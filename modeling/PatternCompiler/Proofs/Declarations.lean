import PatternCompiler.Proofs.MarkedCode

/-! Lines that declare, and lines that refer.

A line that begins with `const` or `static` declares the name after it, and each further word of a line
refers to something (`declared?`, `references`). Code that is faithful to its marks declares nothing and
refers to what is marked in it (`Stmt.mem_references_rowsOf`). An `Item` is a declaration whose words are
known, so from a list of items and code after it one can tell what its lines declare, how often, and
what they refer to. -/
namespace PatternCompiler

open Place Source

/-! ### Lines -/

/-- The item that a line declares, after the word that begins the declaration. -/
def declared? (line : String) : Option (String × String) :=
  match words line with
  | keyword :: name :: _ => if keyword = "const" ∨ keyword = "static" then some (keyword, name) else none
  | _ => none

/-- The words of a line by which it refers to something: all but the name that it declares. -/
def references (line : String) : List String :=
  match words line with
  | keyword :: name :: rest =>
    if keyword = "const" ∨ keyword = "static" then rest else keyword :: name :: rest
  | ws => ws

/-- The lines that declare an item. -/
def declarations (name : String) (lines : List String) : List String :=
  lines.filter fun l => (declared? l).any fun d => d.2 == name

/-! ### Words of lines -/

theorem mem_words {w l : String} : w ∈ words l ↔ w.toList ∈ (code []).wordsFrom l.toList := by
  rw [words, List.mem_map]
  constructor
  · rintro ⟨cs, hcs, rfl⟩
    rwa [String.toList_ofList]
  · intro h
    exact ⟨_, h, String.ofList_toList⟩

theorem mem_words_of_watched {w l : String} (h : watched w.toList = true) :
    w ∈ words l ↔ w.toList ∈ watchedOf l := by
  rw [mem_words, watchedOf, List.mem_filter, and_iff_left h]

/-- A line that neither `const` nor `static` stands in declares nothing. -/
theorem references_of_notMem {l : String} (hconst : "const" ∉ words l) (hstatic : "static" ∉ words l) :
    declared? l = none ∧ references l = words l := by
  rw [declared?, references]
  split
  · rename_i keyword name rest heq
    rw [heq, List.mem_cons, not_or] at hconst hstatic
    have hneither : ¬ (keyword = "const" ∨ keyword = "static") :=
      not_or.mpr ⟨Ne.symm hconst.1, Ne.symm hstatic.1⟩
    rw [if_neg hneither, if_neg hneither]
    exact ⟨rfl, heq.symm⟩
  · exact ⟨rfl, rfl⟩

/-- The words of a declaration. -/
theorem words_declaration {keyword name rest : String} (hkeyword : IsWord keyword) (hname : IsWord name)
    (hrest : Breaks rest) : words (keyword ++ " " ++ name ++ rest) = keyword :: name :: words rest := by
  have hblank : Sealed (fun _ => true) " " [] := sealed_text rfl rfl
  have hhead := ((loose_word hkeyword).append_sealed (breaks_text rfl rfl) hblank).append_loose (loose_word hname)
  have hstops := Breaks.stops hrest []
  rw [List.append_nil] at hstops
  have hwords := hhead.words_append rest.toList hstops
  rw [← String.toList_append] at hwords
  simpa [words] using congrArg (List.map String.ofList) hwords

/-! ### Names -/

namespace Source.Global

theorem name_classTable_ne {s : String} (h : ['C', 'L'].isPrefixOf s.toList = false) (i : Nat) :
    (classTable i).name ≠ s := by
  rintro rfl
  simp [name, List.isPrefixOf] at h

theorem name_injective : Function.Injective name := by
  intro g g' h
  cases g with
  | classTable i =>
    cases g' with
    | classTable j =>
      rw [name, name, String.append_right_inj, Nat.toString_eq_repr, Nat.toString_eq_repr, Nat.repr_inj] at h
      rw [h]
    | _ => exact absurd h (name_classTable_ne (by decide) i)
  | _ =>
    cases g' with
    | classTable j => exact absurd h.symm (name_classTable_ne (by decide) j)
    | _ =>
      revert h
      decide

/-- Names of items that do not depend on what the code refers to, and words that begin declarations. -/
theorem name_ne_of_mem (g : Global) {s : String}
    (h : s ∈ ["const", "static", "CAPTURE_NUMBERS", "GROUP_NAMES", "BACKTRACK"]) : g.name ≠ s := by
  cases g with
  | classTable i =>
    refine name_classTable_ne ?_ i
    revert s
    decide
  | _ =>
    revert s
    decide

end Source.Global

namespace Source.Stmt

variable {ss : List Stmt}

theorem notMem_words (h : AllFaithful ss) {w : String} (hw : watched w.toList = true)
    (hname : ∀ g : Global, g.name ≠ w) {r : Row} (hr : r ∈ rowsOf ss) : w ∉ words r.text := by
  rw [mem_words_of_watched hw]
  intro hmem
  have hnames := watchedOf_rowsOf ss h ▸ List.mem_flatMap_of_mem hr hmem
  obtain ⟨g, _, hg⟩ := mem_namesOf.mp hnames
  exact hname g (String.toList_inj.mp hg.symm)

/-- Faithful code declares nothing, and refers to what is marked in it. -/
theorem declared?_rowsOf (h : AllFaithful ss) {r : Row} (hr : r ∈ rowsOf ss) :
    declared? r.text = none ∧ references r.text = words r.text :=
  references_of_notMem (notMem_words h (by decide) (fun g => g.name_ne_of_mem (by decide)) hr)
    (notMem_words h (by decide) (fun g => g.name_ne_of_mem (by decide)) hr)

theorem mem_references_rowsOf (h : AllFaithful ss) (g : Global) :
    g.name ∈ ((rowsOf ss).map Row.text).flatMap references ↔ anyMentions g ss = true := by
  have hmem : g.name.toList ∈ ((rowsOf ss).flatMap fun r => watchedOf r.text) ↔ anyMentions g ss = true := by
    rw [watchedOf_rowsOf ss h, mem_namesOf]
    constructor
    · rintro ⟨g', hg', heq⟩
      rwa [Global.name_injective (String.toList_inj.mp heq)]
    · intro hg
      exact ⟨g, hg, rfl⟩
  rw [List.flatMap_map, ← hmem, List.mem_flatMap, List.mem_flatMap]
  refine exists_congr fun r => and_congr_right fun hr => ?_
  rw [(declared?_rowsOf h hr).2, mem_words_of_watched g.watched_name]

end Source.Stmt

/-! ### Declarations -/

/-- A declaration: the word that begins it, the name, and what stands after the name. -/
structure Item where
  keyword : String
  name : String
  rest : String
  /-- The items that the declaration refers to. -/
  uses : List Global
  keyword_eq : keyword = "const" ∨ keyword = "static"
  isWord_name : IsWord name
  breaks_rest : Breaks rest = true
  loose_rest : Loose watched rest (uses.map fun g => g.name.toList)

namespace Item

def line (i : Item) : String := i.keyword ++ " " ++ i.name ++ i.rest

def row (i : Item) : Row := ⟨0, i.line⟩

theorem isWord_keyword (i : Item) : IsWord i.keyword := by
  rcases i.keyword_eq with h | h <;> rw [h]
  · exact isWord_text rfl rfl
  · exact isWord_text rfl rfl

theorem words_line (i : Item) : words i.line = i.keyword :: i.name :: words i.rest :=
  words_declaration i.isWord_keyword i.isWord_name i.breaks_rest

theorem declared?_line (i : Item) : declared? i.line = some (i.keyword, i.name) := by
  rw [declared?, i.words_line]
  exact if_pos i.keyword_eq

theorem references_line (i : Item) : references i.line = words i.rest := by
  rw [references, i.words_line]
  exact if_pos i.keyword_eq

theorem mem_references_line (i : Item) (g : Global) : g.name ∈ references i.line ↔ g ∈ i.uses := by
  rw [references_line, mem_words_of_watched g.watched_name, watchedOf_of_loose i.loose_rest, List.mem_map]
  constructor
  · rintro ⟨g', hg', heq⟩
    rwa [← Global.name_injective (String.toList_inj.mp heq)]
  · intro hg
    exact ⟨g, hg, rfl⟩

theorem oneLine_line (i : Item) : OneLine i.line := by
  have hblank : OneLine " " := oneLine_text rfl rfl
  exact ((i.isWord_keyword.oneLine.append hblank).append i.isWord_name.oneLine).append i.loose_rest.oneLine

/-! #### Kinds of declarations -/

theorem sealed_bracketed {parts : List String} (h : ∀ p ∈ parts, Bare p) : Sealed watched (bracketed parts) [] :=
  sealed_around (loose_intercalate h) rfl rfl rfl

theorem bare_pair {a b : String} (ha : Bare a) (hb : Bare b) : Bare (pairCode a b) := by
  have hcomma : Sealed watched ", " [] := sealed_text rfl rfl
  have hend : Bare ")" := bare_text rfl rfl
  have hstart : Sealed watched "(" [] := sealed_text rfl rfl
  exact ((((hstart.append_loose ha).append_sealed (breaks_text rfl rfl) hcomma).append_loose hb).append
    (breaks_text rfl rfl) hend)

theorem sealed_rangesCode (k : CharClass) : Sealed watched (rangesCode k) [] := by
  refine sealed_bracketed fun s hs => ?_
  obtain ⟨r, _, rfl⟩ := List.mem_map.mp hs
  exact bare_pair (sealed_charLiteral _).loose (sealed_charLiteral _).loose

/-- A constant that refers to nothing. -/
def constant (name opening value : String) (hname : IsWord name) (hbreaks : Breaks opening = true)
    (hopening : Sealed watched opening []) (hvalue : Bare value) : Item where
  keyword := "const"
  name := name
  rest := opening ++ value ++ ";"
  uses := []
  keyword_eq := .inl rfl
  isWord_name := hname
  breaks_rest := Breaks.append (Breaks.append hbreaks _) _
  loose_rest := (hopening.append_loose hvalue).append (breaks_text rfl rfl) (bare_text rfl rfl)

theorem row_constant {start name opening value : String} (hstart : "const" ++ " " ++ name ++ opening = start)
    (hname : IsWord name) (hbreaks : Breaks opening = true) (hopening : Sealed watched opening [])
    (hvalue : Bare value) :
    (constant name opening value hname hbreaks hopening hvalue).row = ⟨0, start ++ value ++ ";"⟩ := by
  simp only [row, line, constant, ← hstart, String.append_assoc]

def culture (c : Culture) : Item :=
  constant "CULTURE" ": Culture = " (cultureCode c) (Global.isWord_name .culture) (breaks_text rfl rfl)
    (sealed_text rfl rfl) (by cases c <;> exact bare_text rfl rfl)

/-- A class under a name. -/
def charClass (g : Global) (k : CharClass) : Item :=
  constant g.name ": &[(char, char)] = " (rangesCode k) g.isWord_name (breaks_text rfl rfl)
    (sealed_text rfl rfl) (sealed_rangesCode k).loose

def captureNumbers (numbers : List Nat) : Item :=
  constant "CAPTURE_NUMBERS" ": &[u32] = " (bracketed (numbers.map toString))
    (isWord_text rfl rfl) (breaks_text rfl rfl) (sealed_text rfl rfl)
    (sealed_bracketed (List.forall_mem_map.mpr fun n _ => bare_number n)).loose

def groupNames (names : List String) : Item :=
  constant "GROUP_NAMES" ": &[&str] = " (bracketed (names.map Quoted.stringLiteral))
    (isWord_text rfl rfl) (breaks_text rfl rfl) (sealed_text rfl rfl)
    (sealed_bracketed (List.forall_mem_map.mpr fun s _ => (sealed_stringLiteral s).loose)).loose

def backtrack (n : Nat) : Item :=
  constant "BACKTRACK" ": usize = " (toString n) (isWord_text rfl rfl) (breaks_text rfl rfl)
    (sealed_text rfl rfl) (bare_number n)

/-- What the table of the literal search is made from, but for the culture. -/
def skipArguments (l : Lead) : String :=
  String.intercalate ", "
    [bracketed (l.literal.map Quoted.charLiteral),
      bracketed (l.shifts.map fun e => pairCode (Quoted.charLiteral e.1) (toString e.2)),
      toString l.ignoreCase, toString l.rightToLeft]

theorem bare_skipArguments (l : Lead) : Bare (skipArguments l) := by
  refine loose_intercalate fun s hs => ?_
  simp only [List.mem_cons, List.not_mem_nil, or_false] at hs
  rcases hs with rfl | rfl | rfl | rfl
  · exact (sealed_bracketed (List.forall_mem_map.mpr fun c _ => (sealed_charLiteral c).loose)).loose
  · exact (sealed_bracketed (List.forall_mem_map.mpr fun e _ =>
      bare_pair (sealed_charLiteral e.1).loose (bare_number e.2))).loose
  · exact bare_bool _
  · exact bare_bool _

/-- The table of the literal search. -/
def skip (l : Lead) : Item where
  keyword := "static"
  name := "SKIP"
  rest := ": SkipTable = SkipTable::new(" ++ skipArguments l ++ ", " ++ "CULTURE" ++ ");"
  uses := [.culture]
  keyword_eq := .inr rfl
  isWord_name := Global.isWord_name .skip
  breaks_rest := Breaks.append (Breaks.append (Breaks.append (Breaks.append (breaks_text rfl rfl) _) _) _) _
  loose_rest :=
    have hend : Sealed watched ");" [] := sealed_text rfl rfl
    (((sealed_around (bare_skipArguments l) rfl rfl rfl).append_loose (loose_name .culture)).append_sealed
      (breaks_text rfl rfl) hend).loose

theorem row_culture (c : Culture) : (culture c).row = ⟨0, "const CULTURE: Culture = " ++ cultureCode c ++ ";"⟩ :=
  row_constant (by simp) _ _ _ _

theorem row_charClass (g : Global) (k : CharClass) :
    (charClass g k).row = ⟨0, "const " ++ g.name ++ ": &[(char, char)] = " ++ rangesCode k ++ ";"⟩ :=
  row_constant (by simp) _ _ _ _

theorem row_captureNumbers (numbers : List Nat) :
    (captureNumbers numbers).row =
      ⟨0, "const CAPTURE_NUMBERS: &[u32] = " ++ bracketed (numbers.map toString) ++ ";"⟩ :=
  row_constant (by simp) _ _ _ _

theorem row_groupNames (names : List String) :
    (groupNames names).row =
      ⟨0, "const GROUP_NAMES: &[&str] = " ++ bracketed (names.map Quoted.stringLiteral) ++ ";"⟩ :=
  row_constant (by simp) _ _ _ _

theorem row_backtrack (n : Nat) : (backtrack n).row = ⟨0, "const BACKTRACK: usize = " ++ n.repr ++ ";"⟩ :=
  row_constant (by simp) _ _ _ _

theorem line_charClass (g : Global) (k : CharClass) :
    (charClass g k).line = "const " ++ g.name ++ ": &[(char, char)] = " ++ rangesCode k ++ ";" :=
  congrArg Row.text (row_charClass g k)

/-- Classes under consecutive numbers. -/
def classes (index : Nat) : List CharClass → List Item
  | [] => []
  | k :: rest => charClass (.classTable index) k :: classes (index + 1) rest

end Item

/-! ### Lines together -/

section

variable {ss : List Stmt}

/-- The lines of declarations and of code. -/
def linesOf (is : List Item) (ss : List Stmt) : List String :=
  ((is.map Item.row ++ [(⟨0, ""⟩ : Row)]) ++ Stmt.rowsOf ss).map Row.text

theorem linesOf_eq (is : List Item) (ss : List Stmt) :
    linesOf is ss = is.map Item.line ++ "" :: (Stmt.rowsOf ss).map Row.text := by
  simp [linesOf, Item.row, Function.comp_def]

theorem mem_references_linesOf (is : List Item) (h : Stmt.AllFaithful ss) (g : Global) :
    g.name ∈ (linesOf is ss).flatMap references ↔ (∃ i ∈ is, g ∈ i.uses) ∨ Stmt.anyMentions g ss = true := by
  have hblank : references "" = [] := rfl
  rw [linesOf_eq, List.flatMap_append, List.flatMap_cons, hblank, List.nil_append, List.mem_append,
    Stmt.mem_references_rowsOf h, List.flatMap_map, List.mem_flatMap]
  simp only [Item.mem_references_line]

theorem filterMap_declared?_linesOf (is : List Item) (h : Stmt.AllFaithful ss) :
    (linesOf is ss).filterMap declared? = is.map fun i => (i.keyword, i.name) := by
  have hblank : declared? "" = none := rfl
  have hcode : ((Stmt.rowsOf ss).map Row.text).filterMap declared? = [] := by
    rw [List.filterMap_eq_nil_iff, List.forall_mem_map]
    exact fun r hr => (Stmt.declared?_rowsOf h hr).1
  rw [linesOf_eq, List.filterMap_append, List.filterMap_cons_none hblank, hcode, List.append_nil,
    List.filterMap_map, ← List.filterMap_eq_map]
  congr 1
  funext i
  exact i.declared?_line

theorem declarations_linesOf (is : List Item) (h : Stmt.AllFaithful ss) (name : String) :
    declarations name (linesOf is ss) = (is.filter fun i => i.name == name).map Item.line := by
  have hblank : declared? "" = none := rfl
  have hcode : declarations name ((Stmt.rowsOf ss).map Row.text) = [] := by
    rw [declarations, List.filter_eq_nil_iff, List.forall_mem_map]
    intro r hr
    rw [(Stmt.declared?_rowsOf h hr).1]
    simp
  rw [declarations] at hcode
  rw [linesOf_eq, declarations, List.filter_append, List.filter_cons_of_neg (by simp [hblank]), hcode,
    List.append_nil, List.filter_map]
  congr 2
  funext i
  simp [Item.declared?_line]

end

namespace Item

theorem filter_of_name {is : List Item} {g' : Global} (h : ∀ i ∈ is, i.name = g'.name) (g : Global) :
    (is.filter fun i => i.name == g.name) = if g = g' then is else [] := by
  split
  · rename_i heq
    rw [List.filter_eq_self]
    intro i hi
    rw [h i hi, heq, beq_self_eq_true]
  · rename_i hne
    rw [List.filter_eq_nil_iff]
    intro i hi heq
    rw [h i hi, beq_iff_eq] at heq
    exact hne (Global.name_injective heq).symm

theorem name_of_mem_classes {ks : List CharClass} {index : Nat} {i : Item} (h : i ∈ classes index ks) :
    ∃ j, index ≤ j ∧ i.name = (Global.classTable j).name ∧ i.uses = [] := by
  induction ks generalizing index with
  | nil => cases h
  | cons k ks ih =>
    rcases List.mem_cons.mp h with rfl | h
    · exact ⟨index, Nat.le_refl _, rfl, rfl⟩
    · obtain ⟨j, hj, hi⟩ := ih h
      exact ⟨j, Nat.le_of_succ_le hj, hi⟩

theorem filter_classes_of_ne {g : Global} {ks : List CharClass} {index : Nat}
    (h : ∀ j, index ≤ j → g ≠ .classTable j) : ((classes index ks).filter fun i => i.name == g.name) = [] := by
  rw [List.filter_eq_nil_iff]
  intro i hi heq
  obtain ⟨j, hj, hname, _⟩ := name_of_mem_classes hi
  rw [hname, beq_iff_eq] at heq
  exact h j hj (Global.name_injective heq).symm

theorem filter_classes (ks : List CharClass) (index n : Nat) :
    ((classes index ks).filter fun i => i.name == (Global.classTable (index + n)).name) =
      ks[n]?.toList.map (charClass (.classTable (index + n))) := by
  induction ks generalizing index n with
  | nil => rfl
  | cons k ks ih =>
    rw [classes]
    cases n with
    | zero =>
      rw [Nat.add_zero, List.filter_cons_of_pos, filter_classes_of_ne]
      · rfl
      · rintro j hj heq
        cases heq
        omega
      · exact beq_self_eq_true (Global.classTable index).name
    | succ n =>
      have hhead : (charClass (.classTable index) k).name ≠ (Global.classTable (index + (n + 1))).name := by
        intro heq
        have hindex : Global.classTable index = .classTable (index + (n + 1)) := Global.name_injective heq
        have := Global.classTable.inj hindex
        omega
      rw [List.filter_cons_of_neg (by simpa using hhead), ← Nat.add_assoc, Nat.add_right_comm, ih (index + 1) n]
      rfl

end Item

end PatternCompiler
