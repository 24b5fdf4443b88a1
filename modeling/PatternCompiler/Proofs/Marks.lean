import PatternCompiler.Proofs.Layout
import PatternCompiler.Proofs.Words

/-! Names in generated source.

The items that the source declares on demand are marked in the phrases that refer to them. Code is
faithful (`Stmt.Faithful`) if its marks agree with its text: each statement is written in lines of its
own, and of the words of these lines those that name such an item, or begin a declaration, are the
marked ones (`Stmt.watchedOf_rowsOf`, `Stmt.oneLine_rowsOf`). -/
namespace PatternCompiler

open Place

/-! ### Watched words -/

/-- The names of items that are declared on demand, and the words that begin a declaration. -/
def watchedWords : List (List Char) :=
  [['c', 'o', 'n', 's', 't'], ['s', 't', 'a', 't', 'i', 'c'], ['C', 'U', 'L', 'T', 'U', 'R', 'E'],
    ['c', 'h', 'a', 'r', '_', 'i', 'n', '_', 'c', 'l', 'a', 's', 's'],
    ['F', 'I', 'R', 'S', 'T', '_', 'C', 'H', 'A', 'R', 'S'], ['S', 'K', 'I', 'P']]

def watched (w : List Char) : Bool :=
  watchedWords.contains w || ['C', 'L', 'A', 'S', 'S', '_'].isPrefixOf w

/-- The watched words of a line. -/
def watchedOf (line : String) : List (List Char) := ((code []).wordsFrom line.toList).filter watched

theorem watchedOf_of_loose {s : String} {ws : List (List Char)} (h : Loose watched s ws) : watchedOf s = ws :=
  h.words_eq

theorem watchedOf_comment (s : String) : watchedOf ("// " ++ s) = [] := by
  have hwords := words_comment s
  rw [words, List.map_eq_nil_iff] at hwords
  rw [watchedOf, hwords]
  rfl

/-- A piece of a line without any watched word. -/
abbrev Bare (s : String) : Prop := Loose watched s []

theorem bare_text {s : String} {cs : List Char} (hs : s = String.ofList cs)
    (h : isLoose watched cs [] = true) : Bare s := loose_text hs h

theorem watched_of_isDigit {c : Char} (h : c.isDigit = true) (cs : List Char) : watched (c :: cs) = false := by
  have hne : ∀ d, d.isDigit = false → c ≠ d := by
    rintro d hd rfl
    rw [h] at hd
    cases hd
  simp [watched, watchedWords, List.isPrefixOf, hne 'c' rfl, hne 's' rfl, hne 'C' rfl, hne 'F' rfl, hne 'S' rfl,
    (hne 'C' rfl).symm]

theorem bare_number (n : Nat) : Bare (toString n) := by
  have hnumber : Loose watched (toString n) ([Nat.toDigits 10 n].filter watched) := loose_number n
  cases hdigits : Nat.toDigits 10 n with
  | nil => exact absurd hdigits Nat.toDigits_ne_nil
  | cons c cs =>
    have hc : c.isDigit = true :=
      Nat.isDigit_of_mem_toDigits (by decide) (by decide) (hdigits ▸ List.mem_cons_self ..)
    rw [hdigits, List.filter_singleton, watched_of_isDigit hc cs] at hnumber
    exact hnumber

section

variable {a b c : String} {d : Char} {as cs : List Char}

/-- A plain piece between two fixed ones. -/
theorem sealed_around (hb : Bare b) (ha : a = String.ofList as) (hc : c = String.ofList (d :: cs))
    (h : (isSealed watched as [] && !isWordChar d && isSealed watched (d :: cs) []) = true) :
    Sealed watched (a ++ b ++ c) [] := by
  simp only [Bool.and_eq_true, Bool.not_eq_true'] at h
  obtain ⟨⟨has, hd⟩, hcs⟩ := h
  exact ((sealed_text ha has).append_loose hb).append_sealed (breaks_text hc hd) (sealed_text hc hcs)

theorem bare_around (hb : Bare b) (ha : a = String.ofList as) (hc : c = String.ofList (d :: cs))
    (h : (isSealed watched as [] && !isWordChar d && isLoose watched (d :: cs) []) = true) :
    Bare (a ++ b ++ c) := by
  simp only [Bool.and_eq_true, Bool.not_eq_true'] at h
  obtain ⟨⟨has, hd⟩, hcs⟩ := h
  exact ((sealed_text ha has).append_loose hb).append (breaks_text hc hd) (loose_text hc hcs)

/-- A plain piece after a fixed one. -/
theorem bare_after (hb : Bare b) (ha : a = String.ofList as)
    (h : isSealed watched as [] = true) : Bare (a ++ b) :=
  (sealed_text ha h).append_loose hb

end

theorem bare_integer (n : Int) : Bare (toString n) := by
  cases n with
  | ofNat n => exact bare_number n
  | negSucc n => exact bare_after (bare_number (n + 1)) rfl rfl

theorem bare_bool (b : Bool) : Bare (toString b) := by
  cases b <;> exact bare_text rfl rfl

namespace Source

namespace Global

theorem isWord_name (g : Global) : IsWord g.name := by
  cases g with
  | classTable i =>
    have hchars : name (classTable i) = String.ofList (['C', 'L', 'A', 'S', 'S', '_'] ++ Nat.toDigits 10 i) := by
      rw [name, Nat.toString_eq_ofList_toDigits, String.ofList_append]
    rw [hchars]
    refine isWord_ofList ?_ (List.cons_ne_nil _ _)
    rw [List.all_append, all_isWordChar_toDigits]
    rfl
  | _ => exact isWord_text rfl rfl

theorem watched_name (g : Global) : watched g.name.toList = true := by
  cases g with
  | classTable i => simp [name, watched, List.isPrefixOf]
  | _ => decide

end Global

/-- The name of an item is a watched word. -/
theorem loose_name (g : Global) : Loose watched g.name [g.name.toList] := by
  have hword : Loose watched g.name ([g.name.toList].filter watched) := loose_word g.isWord_name
  rwa [List.filter_singleton, g.watched_name] at hword

/-! ### Phrases -/

namespace Phrase

/-- The names of the items that a phrase refers to. -/
def names (p : Phrase) : List (List Char) :=
  p.flatMap fun
    | .text _ => []
    | .global g => [g.name.toList]

@[simp] theorem toText_nil : toText [] = "" := rfl

@[simp] theorem toText_cons (t : Token) (p : Phrase) : toText (t :: p) = t.toText ++ toText p := by
  simp [toText]

@[simp] theorem toText_append (p q : Phrase) : toText (p ++ q) = toText p ++ toText q := by
  simp [toText]

@[simp] theorem toText_plain (s : String) : toText (plain s) = s := by
  simp [toText, plain, Token.toText]

@[simp] theorem names_nil : names [] = [] := rfl

@[simp] theorem names_text (s : String) (p : Phrase) : names (.text s :: p) = names p := rfl

@[simp] theorem names_global (g : Global) (p : Phrase) : names (.global g :: p) = g.name.toList :: names p := rfl

@[simp] theorem names_append (p q : Phrase) : names (p ++ q) = names p ++ names q := List.flatMap_append ..

@[simp] theorem names_plain (s : String) : names (plain s) = [] := rfl

theorem mem_names {p : Phrase} {w : List Char} :
    w ∈ p.names ↔ ∃ g, p.mentions g = true ∧ w = g.name.toList := by
  induction p with
  | nil => simp [mentions]
  | cons t p ih =>
    cases t with
    | text s => simp [ih, mentions]
    | global g =>
      simp only [names_global, List.mem_cons, ih, mentions, List.contains_cons, Bool.or_eq_true, beq_iff_eq,
        Token.global.injEq]
      constructor
      · rintro (rfl | ⟨g', hg', rfl⟩)
        · exact ⟨g, .inl rfl, rfl⟩
        · exact ⟨g', .inr hg', rfl⟩
      · rintro ⟨g', rfl | hg', rfl⟩
        · exact .inl rfl
        · exact .inr ⟨g', hg', rfl⟩

/-- The watched words of a phrase are the names that are marked in it. -/
def Faithful (p : Phrase) : Prop := Loose watched p.toText p.names

/-- The same of a phrase after which a word may begin. -/
def Closed (p : Phrase) : Prop := Sealed watched p.toText p.names

end Phrase

/-! ### Statements -/

namespace Stmt

mutual

/-- In the lines of the statement the watched words are the names that are marked in it. -/
@[simp] def Faithful : Stmt → Prop
  | line p => p.Faithful
  | scope header body tail => (header.Faithful ∧ Bare ("\x7d" ++ tail)) ∧ AllFaithful body
  | branch condition yes no => condition.Faithful ∧ AllFaithful yes ∧ AllFaithful no
  | comment s => OneLine s
  | _ => True

@[simp] def AllFaithful : List Stmt → Prop
  | [] => True
  | s :: rest => s.Faithful ∧ AllFaithful rest

end

mutual

/-- The names of the items that a statement refers to. -/
def names : Stmt → List (List Char)
  | line p => p.names
  | scope header body _ => header.names ++ namesOf body
  | branch condition yes no => condition.names ++ (namesOf yes ++ namesOf no)
  | _ => []

def namesOf : List Stmt → List (List Char)
  | [] => []
  | s :: rest => s.names ++ namesOf rest

end

mutual

theorem mem_names {s : Stmt} {w : List Char} : w ∈ s.names ↔ ∃ g, s.mentions g = true ∧ w = g.name.toList := by
  cases s with
  | line p => exact Phrase.mem_names
  | scope header body tail =>
    rw [names, List.mem_append, Phrase.mem_names, mem_namesOf]
    simp only [mentions, Bool.or_eq_true, or_and_right, exists_or]
  | branch condition yes no =>
    rw [names, List.mem_append, List.mem_append, Phrase.mem_names, mem_namesOf, mem_namesOf]
    simp only [mentions, Bool.or_eq_true, or_and_right, exists_or, or_assoc]
  | _ => simp [names, mentions]

theorem mem_namesOf {ss : List Stmt} {w : List Char} :
    w ∈ namesOf ss ↔ ∃ g, anyMentions g ss = true ∧ w = g.name.toList := by
  cases ss with
  | nil => simp [namesOf, anyMentions]
  | cons s ss =>
    rw [namesOf, List.mem_append, mem_names, mem_namesOf]
    simp only [anyMentions, Bool.or_eq_true, or_and_right, exists_or]

end

/-! #### Rows -/

theorem loose_opening {header : Phrase} (h : header.Faithful) :
    Loose watched (Buffer.opening header.toText) header.names := by
  have hbrace : Sealed watched " \x7b" [] := sealed_text rfl rfl
  rw [Buffer.opening]
  split
  · rename_i hempty
    have hnames := h.words_eq
    rw [String.isEmpty_iff.mp hempty] at hnames
    rw [← hnames]
    exact bare_text rfl rfl
  · have hall := (h.append_sealed (breaks_text rfl rfl) hbrace).loose
    rwa [List.append_nil] at hall

theorem loose_openIf {condition : Phrase} (h : condition.Faithful) :
    Loose watched (Buffer.opening ("if " ++ condition.toText)) condition.names := by
  have hif : Sealed watched "if " [] := sealed_text rfl rfl
  have hheader : Phrase.Faithful (.text "if " :: condition) := by
    rw [Phrase.Faithful, Phrase.toText_cons]
    exact hif.append_loose h
  have hopening := loose_opening hheader
  rwa [Phrase.toText_cons, Token.toText] at hopening

theorem bare_else : Bare "\x7d else \x7b" := bare_text rfl rfl

theorem bare_close : Bare "\x7d" := bare_text rfl rfl

theorem bare_setState (id : Nat) : Bare ("state = " ++ toString id ++ ";") :=
  bare_around (bare_number id) rfl rfl rfl

theorem bare_pushTag (tag : Nat) : Bare ("r.track_push(" ++ toString tag ++ ")" ++ ";") := by
  have htag : Sealed watched ("r.track_push(" ++ toString tag ++ ")") [] :=
    sealed_around (bare_number tag) rfl rfl rfl
  exact htag.append_loose (bare_text rfl rfl)

theorem watchedOf_deeper (rows : List Row) :
    ((rows.map Row.deeper).flatMap fun r => watchedOf r.text) = rows.flatMap fun r => watchedOf r.text := by
  rw [List.flatMap_map]
  rfl

mutual

/-- The watched words of the lines of faithful code are the names that are marked in it. -/
theorem watchedOf_rows (s : Stmt) (h : s.Faithful) : (s.rows.flatMap fun r => watchedOf r.text) = s.names := by
  cases s with
  | line p => simpa [rows, names] using watchedOf_of_loose h
  | scope header body tail =>
    rw [Faithful] at h
    obtain ⟨⟨hheader, htail⟩, hbody⟩ := h
    rw [rows, Row.scope, List.flatMap_append, List.flatMap_cons, watchedOf_of_loose (loose_opening hheader),
      watchedOf_deeper, watchedOf_rowsOf body hbody, names]
    simpa using watchedOf_of_loose htail
  | branch condition yes no =>
    rw [Faithful] at h
    obtain ⟨hcondition, hyes, hno⟩ := h
    simp only [rows, names, List.flatMap_append, List.flatMap_cons, List.flatMap_nil,
      watchedOf_of_loose (loose_openIf hcondition), watchedOf_of_loose bare_else, watchedOf_of_loose bare_close,
      watchedOf_deeper, watchedOf_rowsOf yes hyes, watchedOf_rowsOf no hno, List.nil_append, List.append_nil,
      List.append_assoc]
  | comment s => simpa [rows, names] using watchedOf_comment s
  | setState id => simpa [rows, names] using watchedOf_of_loose (bare_setState id)
  | pushTag tag => simpa [rows, names] using watchedOf_of_loose (bare_pushTag tag)
  | blank => simpa [rows, names] using watchedOf_of_loose (bare_text (s := "") rfl rfl)
  | setBacktrack => simpa [rows, names] using watchedOf_of_loose (bare_text (s := "state = BACKTRACK;") rfl rfl)
  | continueRun => simpa [rows, names] using watchedOf_of_loose (bare_text (s := "continue 'run;") rfl rfl)

theorem watchedOf_rowsOf (ss : List Stmt) (h : AllFaithful ss) :
    ((rowsOf ss).flatMap fun r => watchedOf r.text) = namesOf ss := by
  cases ss with
  | nil => rfl
  | cons s ss =>
    rw [AllFaithful] at h
    obtain ⟨hs, hss⟩ := h
    rw [rowsOf, List.flatMap_append, watchedOf_rows s hs, watchedOf_rowsOf ss hss, namesOf]

end

theorem oneLine_deeper {rows : List Row} (h : ∀ r ∈ rows, OneLine r.text) :
    ∀ r ∈ rows.map Row.deeper, OneLine r.text := by
  rw [List.forall_mem_map]
  exact h

mutual

/-- Faithful code has no line breaks but those between its rows. -/
theorem oneLine_rows (s : Stmt) (h : s.Faithful) : ∀ r ∈ s.rows, OneLine r.text := by
  cases s with
  | line p => exact List.forall_mem_singleton.mpr h.oneLine
  | scope header body tail =>
    rw [Faithful] at h
    obtain ⟨⟨hheader, htail⟩, hbody⟩ := h
    rw [rows, Row.scope, List.forall_mem_append, List.forall_mem_cons, List.forall_mem_singleton]
    exact ⟨⟨(loose_opening hheader).oneLine, oneLine_deeper (oneLine_rowsOf body hbody)⟩, htail.oneLine⟩
  | branch condition yes no =>
    rw [Faithful] at h
    obtain ⟨hcondition, hyes, hno⟩ := h
    rw [rows, List.forall_mem_append, List.forall_mem_append, List.forall_mem_cons, List.forall_mem_cons,
      List.forall_mem_singleton]
    exact ⟨⟨⟨(loose_openIf hcondition).oneLine, oneLine_deeper (oneLine_rowsOf yes hyes)⟩, bare_else.oneLine,
      oneLine_deeper (oneLine_rowsOf no hno)⟩, bare_close.oneLine⟩
  | comment s =>
    rw [Faithful] at h
    exact List.forall_mem_singleton.mpr ((oneLine_text rfl rfl).append h)
  | setState id => exact List.forall_mem_singleton.mpr (bare_setState id).oneLine
  | pushTag tag => exact List.forall_mem_singleton.mpr (bare_pushTag tag).oneLine
  | blank | setBacktrack | continueRun => exact List.forall_mem_singleton.mpr (oneLine_text rfl rfl)

theorem oneLine_rowsOf (ss : List Stmt) (h : AllFaithful ss) : ∀ r ∈ rowsOf ss, OneLine r.text := by
  cases ss with
  | nil => exact List.forall_mem_nil _
  | cons s ss =>
    rw [AllFaithful] at h
    obtain ⟨hs, hss⟩ := h
    rw [rowsOf, List.forall_mem_append]
    exact ⟨oneLine_rows s hs, oneLine_rowsOf ss hss⟩

end

/-! ### Faithful code -/

section

variable {p : Phrase} {ss ts body yes no : List Stmt} {name text : String}

@[simp] theorem faithful_plain : (Phrase.plain text).Faithful ↔ Bare text := by
  rw [Phrase.Faithful, Phrase.toText_plain, Phrase.names_plain]

/-- A sealed text before a phrase changes nothing. -/
theorem faithful_text_cons (h : Sealed watched text []) : Phrase.Faithful (.text text :: p) ↔ p.Faithful := by
  rw [Phrase.Faithful, Phrase.toText_cons, Phrase.names_text, Phrase.Faithful]
  constructor
  · intro hp
    refine ⟨fun hmem => hp.oneLine ?_, fun rest hrest => ?_⟩
    · rw [String.toList_append]
      exact List.mem_append_right _ hmem
    · have hall := hp.words_append rest hrest
      rwa [String.toList_append, List.append_assoc, Token.toText, h.words_append, List.nil_append] at hall
  · intro hp
    exact h.append_loose hp

theorem faithful_declaration {keyword : String} (hkeyword : Sealed watched keyword []) (hname : Bare name)
    (hvalue : p.Faithful) : Phrase.Faithful (.text (keyword ++ name ++ " = ") :: p ++ [.text ";"]) := by
  have hhead : Sealed watched (keyword ++ name ++ " = ") [] :=
    (hkeyword.append_loose hname).append_sealed (breaks_text rfl rfl) (sealed_text rfl rfl)
  have hend : Sealed watched ";" [] := sealed_text rfl rfl
  rw [List.cons_append, faithful_text_cons hhead, Phrase.Faithful, Phrase.toText_append, Phrase.names_append]
  simpa [Token.toText] using (hvalue.append_sealed (breaks_text rfl rfl) hend).loose

theorem faithful_let (hname : Bare name) (hvalue : p.Faithful) :
    Phrase.Faithful (.text ("let " ++ name ++ " = ") :: p ++ [.text ";"]) :=
  faithful_declaration (sealed_text rfl rfl) hname hvalue

/-- A declaration with a fixed value. -/
theorem faithful_let_text {cs ds : List Char} (hname : name = String.ofList cs) (hvalue : text = String.ofList ds)
    (h : (isLoose watched cs [] && isLoose watched ds []) = true) :
    Phrase.Faithful (.text ("let " ++ name ++ " = ") :: Phrase.plain text ++ [.text ";"]) := by
  obtain ⟨hcs, hds⟩ := Bool.and_eq_true_iff.mp h
  exact faithful_let (bare_text hname hcs) (faithful_plain.mpr (bare_text hvalue hds))

theorem faithful_letMut (hname : Bare name) (hvalue : p.Faithful) :
    Phrase.Faithful (.text ("let mut " ++ name ++ " = ") :: p ++ [.text ";"]) :=
  faithful_declaration (sealed_text rfl rfl) hname hvalue

@[simp] theorem allFaithful_append : AllFaithful (ss ++ ts) ↔ AllFaithful ss ∧ AllFaithful ts := by
  induction ss with
  | nil => simp
  | cons s ss ih => simp [ih, and_assoc]

@[simp] theorem faithful_code : (code text).Faithful ↔ Bare text := by
  rw [code, Faithful, faithful_plain]

@[simp] theorem faithful_declare : (declare name p).Faithful ↔
    Phrase.Faithful (.text ("let " ++ name ++ " = ") :: p ++ [.text ";"]) := by
  rw [declare, Faithful]

@[simp] theorem faithful_declareMut : (declareMut name p).Faithful ↔
    Phrase.Faithful (.text ("let mut " ++ name ++ " = ") :: p ++ [.text ";"]) := by
  rw [declareMut, Faithful]

theorem bare_end : Bare ("\x7d" ++ "") := by
  rw [String.append_empty]
  exact bare_text rfl rfl

@[simp] theorem faithful_block : (block text body).Faithful ↔ Bare text ∧ AllFaithful body := by
  rw [block, Faithful, faithful_plain, and_iff_left bare_end]

@[simp] theorem faithful_ifScope : (ifScope p body).Faithful ↔ p.Faithful ∧ AllFaithful body := by
  rw [ifScope, Faithful, faithful_text_cons (sealed_text rfl rfl), and_iff_left bare_end]

@[simp] theorem faithful_whileScope : (whileScope p body).Faithful ↔ p.Faithful ∧ AllFaithful body := by
  rw [whileScope, Faithful, faithful_text_cons (sealed_text rfl rfl), and_iff_left bare_end]

@[simp] theorem allFaithful_fail : AllFaithful Source.fail := by simp [Source.fail]

@[simp] theorem faithful_failIf : (failIf p).Faithful ↔ p.Faithful := by
  rw [failIf, faithful_ifScope, and_iff_left allFaithful_fail]

@[simp] theorem allFaithful_goto {target id : Nat} : AllFaithful (Source.goto target id) := by
  have hroom : Bare "r.ensure_storage();" := bare_text rfl rfl
  by_cases h : target ≤ id <;> simp [Source.goto, h, hroom]

end

end Stmt

/-! ### Characters -/

section

variable {p q : Phrase} {text index : String} {g : Global}

theorem Phrase.breaks_cons (h : Breaks text) : Breaks (toText (.text text :: p)) = true := by
  rw [toText_cons]
  exact Breaks.append h _

namespace Phrase.Closed

theorem faithful (h : p.Closed) : p.Faithful := h.loose

theorem nil : Closed [] := sealed_text rfl rfl

theorem text_cons (hs : Sealed watched text []) (hp : p.Closed) : Closed (.text text :: p) := by
  rw [Closed, toText_cons, names_text]
  exact hs.append hp

theorem global_cons (hbreaks : Breaks p.toText) (hp : p.Closed) : Closed (.global g :: p) := by
  rw [Closed, toText_cons, names_global]
  exact (loose_name g).append_sealed hbreaks hp

theorem append (hp : p.Closed) (hq : q.Closed) : Closed (p ++ q) := by
  rw [Closed, toText_append, names_append]
  exact Sealed.append hp hq

theorem append_bare (hp : p.Closed) (h : Bare text) : Phrase.Faithful (p ++ [.text text]) := by
  rw [Faithful, toText_append, names_append]
  have hall := Sealed.append_loose hp h
  simpa [Token.toText] using hall

end Phrase.Closed

theorem closed_read (o : Operation) (h : Bare index) : (read o index).Closed := by
  have hlower : Sealed watched (".to_lower(r.text[" ++ index ++ "])") [] :=
    sealed_around h rfl rfl rfl
  have hsame : Sealed watched ("r.text[" ++ index ++ "]") [] := sealed_around h rfl rfl rfl
  rw [read]
  split
  · have hbreaks := Breaks.append (Breaks.append (s := ".to_lower(r.text[") (breaks_text rfl rfl) index) "])"
    exact .global_cons (Phrase.breaks_cons hbreaks) (.text_cons hlower .nil)
  · exact .text_cons hsame .nil

theorem closed_compared (h : p.Closed) {relation : String} (hrelation : Sealed watched relation []) (c : Char) :
    (compared p relation c).Closed := by
  have hblank : Sealed watched " " [] := sealed_text rfl rfl
  exact h.append (.text_cons (((hblank.append hrelation).append hblank).append (sealed_charLiteral c)) .nil)

theorem closed_inClass (h : p.Closed) (k : Nat) : (inClass p k).Closed := by
  have hend : Phrase.Closed [.text ", ", .global (.classTable k), .text ")"] :=
    .text_cons (sealed_text rfl rfl) <|
      .global_cons (Phrase.breaks_cons (breaks_text rfl rfl)) (.text_cons (sealed_text rfl rfl) .nil)
  exact .global_cons (Phrase.breaks_cons (breaks_text rfl rfl)) (.text_cons (sealed_text rfl rfl) (h.append hend))

theorem closed_passes (t : CharTest Nat) (h : p.Closed) : (passes t p).Closed := by
  cases t with
  | one c | notone c => exact closed_compared h (sealed_text rfl rfl) c
  | set k => exact closed_inClass h k

theorem closed_misses (t : CharTest Nat) (h : p.Closed) : (misses t p).Closed := by
  cases t with
  | one c | notone c => exact closed_compared h (sealed_text rfl rfl) c
  | set k => exact .text_cons (sealed_text rfl rfl) (closed_inClass h k)

theorem bare_nextIndex (o : Operation) : Bare (nextIndex o) := by
  rw [nextIndex]
  split <;> exact bare_text rfl rfl

theorem bare_available (o : Operation) : Bare (available o) := by
  rw [available]
  split <;> exact bare_text rfl rfl

theorem bare_steppedBack (o : Operation) : Bare (steppedBack o) := by
  rw [steppedBack]
  split <;> exact bare_text rfl rfl

@[simp] theorem faithful_stepCode (o : Operation) : (stepCode o).Faithful := by
  rw [stepCode, Stmt.faithful_code]
  split <;> exact bare_text rfl rfl

theorem faithful_moveCode (o : Operation) (h : Bare text) : (moveCode o text).Faithful := by
  have hend : Sealed watched ";" [] := sealed_text rfl rfl
  have hstart : Sealed watched (if o.rightToLeft then "pos -= " else "pos += ") [] := by
    split <;> exact sealed_text rfl rfl
  rw [moveCode, Stmt.faithful_code]
  exact ((hstart.append_loose h).append_sealed (breaks_text rfl rfl) hend).loose

theorem faithful_tooFew (o : Operation) (h : Bare text) : (tooFew o text).Faithful := by
  have hless : Sealed watched " < " [] := sealed_text rfl rfl
  rw [tooFew, Stmt.faithful_plain]
  exact ((bare_available o).append_sealed (breaks_text rfl rfl) hless).append_loose h

end

end Source

end PatternCompiler
