import PatternCompiler.Proofs.Statements

/-! The words of a line of generated source.

A word is a longest run of letters, digits and underscores, outside of comments, of characters and
texts between quotes, and of labels. `Sealed` and `Loose` say what words a piece of a line has,
whatever stands after it: a loose piece may end within a word, so what stands after it must not go
on with one (`Breaks`). Pieces are put together by `Sealed.append` and its kin, and the words of the
line are those of its pieces. -/
namespace PatternCompiler

/-- Where in a line a character stands. -/
inductive Place where
  /-- In code, after the beginning of a word. -/
  | code (word : List Char)
  /-- After a slash, which may begin a comment. -/
  | slash
  | comment
  /-- After a quote, which may begin a character or a label. -/
  | quote
  /-- One character further. -/
  | quoted
  /-- After the backslash of a character. -/
  | escape
  /-- In a character that is written with a backslash. -/
  | char
  | label
  | string
  | stringEscape
deriving DecidableEq

namespace Place

def isWordChar (c : Char) : Bool := c.isAlphanum || c == '_'

/-- What a character outside of words begins. -/
def enter (c : Char) : Place :=
  if c = '/' then slash else if c = '\'' then quote else if c = '"' then string else code []

def next : Place → Char → Place
  | code w, c => if isWordChar c then code (w ++ [c]) else enter c
  | slash, c => if c = '/' then comment else if isWordChar c then code [c] else enter c
  | comment, _ => comment
  | quote, c => if c = '\\' then escape else quoted
  | quoted, c => if c = '\'' then code [] else if isWordChar c then label else enter c
  | escape, _ => char
  | char, c => if c = '\'' then code [] else char
  | label, c => if isWordChar c then label else enter c
  | string, c => if c = '\\' then stringEscape else if c = '"' then code [] else string
  | stringEscape, _ => string

/-- The word that ends at a place, if there is one. -/
def pending : Place → List (List Char)
  | code [] => []
  | code (c :: cs) => [c :: cs]
  | _ => []

def isCode : Place → Bool
  | code _ => true
  | _ => false

/-- The word that ends before a character. -/
def ended (s : Place) (c : Char) : List (List Char) := if isWordChar c then [] else s.pending

def through (s : Place) (cs : List Char) : Place := cs.foldl next s

/-- The words that end within a text. -/
def endedIn (s : Place) : List Char → List (List Char)
  | [] => []
  | c :: cs => s.ended c ++ endedIn (s.next c) cs

/-- The words of the rest of a line. -/
def wordsFrom (s : Place) (cs : List Char) : List (List Char) := s.endedIn cs ++ (s.through cs).pending

theorem endedIn_append (s : Place) (xs ys : List Char) :
    s.endedIn (xs ++ ys) = s.endedIn xs ++ (s.through xs).endedIn ys := by
  induction xs generalizing s with
  | nil => rfl
  | cons c xs ih => simp [endedIn, ih, through]

theorem through_append (s : Place) (xs ys : List Char) :
    s.through (xs ++ ys) = (s.through xs).through ys := List.foldl_append ..

theorem wordsFrom_append (s : Place) (xs ys : List Char) :
    s.wordsFrom (xs ++ ys) = s.endedIn xs ++ (s.through xs).wordsFrom ys := by
  rw [wordsFrom, wordsFrom, endedIn_append, through_append, List.append_assoc]

/-- No word ends within the text. -/
structure Passes (s : Place) (cs : List Char) (t : Place) : Prop where
  through : s.through cs = t
  ended : s.endedIn cs = []

namespace Passes

variable {s t u : Place} {xs ys : List Char}

theorem append (hx : Passes s xs t) (hy : Passes t ys u) : Passes s (xs ++ ys) u := by
  refine ⟨?_, ?_⟩
  · rw [through_append, hx.through, hy.through]
  · rw [endedIn_append, hx.ended, hx.through, hy.ended, List.append_nil]

theorem single {c : Char} (hnext : s.next c = t) (hended : s.ended c = []) : Passes s [c] t := by
  refine ⟨hnext, ?_⟩
  rw [endedIn, hended, endedIn, List.append_nil]

theorem cons {c : Char} (hnext : s.next c = t) (hended : s.ended c = []) (h : Passes t xs u) :
    Passes s (c :: xs) u :=
  (single hnext hended).append h

/-- A place that is not left by any of the characters. -/
theorem all (h : ∀ c ∈ xs, s.next c = s) (hs : s.pending = []) : Passes s xs s := by
  induction xs with
  | nil => exact ⟨rfl, rfl⟩
  | cons c xs ih =>
    obtain ⟨hc, hxs⟩ := List.forall_mem_cons.mp h
    exact cons hc (by rw [Place.ended, hs, ite_self]) (ih hxs)

theorem flatMap {α : Type} {f : α → List Char} (h : ∀ x, Passes s (f x) s) (xs : List α) :
    Passes s (xs.flatMap f) s := by
  induction xs with
  | nil => exact ⟨rfl, rfl⟩
  | cons x xs ih => exact (h x).append ih

/-- Characters of a word are taken one by one. -/
theorem word (h : ∀ c ∈ xs, isWordChar c = true) (w : List Char) : Passes (code w) xs (code (w ++ xs)) := by
  induction xs generalizing w with
  | nil =>
    rw [List.append_nil]
    exact ⟨rfl, rfl⟩
  | cons c xs ih =>
    obtain ⟨hc, hxs⟩ := List.forall_mem_cons.mp h
    have hrest := ih hxs (w ++ [c])
    rw [List.append_assoc, List.singleton_append] at hrest
    exact cons (if_pos hc) (if_pos hc) hrest

end Passes

end Place

/-- The words of a line. -/
def words (line : String) : List String := ((Place.code []).wordsFrom line.toList).map String.ofList

open Place

/-- A comment has no words. -/
theorem words_comment (s : String) : words ("// " ++ s) = [] := by
  have hrest : Passes comment s.toList comment := .all (fun _ _ => rfl) rfl
  rw [words, String.toList_append, wordsFrom_append, wordsFrom]
  show List.map String.ofList ([] ++ (endedIn comment s.toList ++ (through comment s.toList).pending)) = _
  rw [hrest.ended, hrest.through]
  rfl

/-- The text does not go beyond its line. -/
def OneLine (s : String) : Prop := '\n' ∉ s.toList

/-! ### Pieces of a line -/

section

variable {keep : List Char → Bool} {s t : String} {ws vs : List (List Char)}

/-- What stands here does not go on with a word. -/
def Stops (cs : List Char) : Bool := cs.head?.all fun c => !isWordChar c

/-- The piece begins with a character that ends a word. -/
def Breaks (s : String) : Bool := s.toList.head?.any fun c => !isWordChar c

/-- Of the words of a piece those to be kept are `ws`, if no word goes on after it. -/
structure Loose (keep : List Char → Bool) (s : String) (ws : List (List Char)) : Prop where
  oneLine : OneLine s
  words_append : ∀ rest, Stops rest →
    ((code []).wordsFrom (s.toList ++ rest)).filter keep = ws ++ ((code []).wordsFrom rest).filter keep

/-- Of the words of a piece those to be kept are `ws`, and no word goes on after it. -/
structure Sealed (keep : List Char → Bool) (s : String) (ws : List (List Char)) : Prop where
  oneLine : OneLine s
  words_append : ∀ rest,
    ((code []).wordsFrom (s.toList ++ rest)).filter keep = ws ++ ((code []).wordsFrom rest).filter keep

theorem OneLine.append (hs : OneLine s) (ht : OneLine t) : OneLine (s ++ t) := by
  rw [OneLine, String.toList_append, List.mem_append]
  exact not_or.mpr ⟨hs, ht⟩

theorem wordsFrom_of_stops {rest : List Char} (h : Stops rest) (w : List Char) :
    (code w).wordsFrom rest = (code w).pending ++ (code []).wordsFrom rest := by
  cases rest with
  | nil => simp [wordsFrom, endedIn, through, pending]
  | cons c rest =>
    have hc : isWordChar c = false := by simpa [Stops] using h
    simp [wordsFrom, endedIn, through, next, ended, hc, pending]

theorem loose_of_through {w : List Char} (hline : OneLine s) (hthrough : (code []).through s.toList = code w)
    (hwords : ((code []).endedIn s.toList ++ (code w).pending).filter keep = ws) : Loose keep s ws := by
  refine ⟨hline, fun rest hrest => ?_⟩
  rw [wordsFrom_append, hthrough, wordsFrom_of_stops hrest, ← List.append_assoc, List.filter_append, hwords]

theorem sealed_of_through (hline : OneLine s) (hthrough : (code []).through s.toList = code [])
    (hwords : ((code []).endedIn s.toList).filter keep = ws) : Sealed keep s ws := by
  refine ⟨hline, fun rest => ?_⟩
  rw [wordsFrom_append, hthrough, List.filter_append, hwords]

theorem Breaks.stops (h : Breaks s = true) (rest : List Char) : Stops (s.toList ++ rest) = true := by
  rw [Breaks] at h
  cases hs : s.toList with
  | nil => simp [hs] at h
  | cons c cs => simpa [hs, Stops] using h

theorem Breaks.append (h : Breaks s = true) (t : String) : Breaks (s ++ t) = true := by
  rw [Breaks] at h
  rw [Breaks, String.toList_append]
  cases hs : s.toList with
  | nil => simp [hs] at h
  | cons c cs => simpa [hs] using h

/-! #### Fixed pieces -/

/-- A text is loose, with the words that it has by itself. -/
def isLoose (keep : List Char → Bool) (cs : List Char) (ws : List (List Char)) : Bool :=
  !cs.contains '\n' && (((code []).through cs).isCode && ((code []).wordsFrom cs).filter keep == ws)

def isSealed (keep : List Char → Bool) (cs : List Char) (ws : List (List Char)) : Bool :=
  !cs.contains '\n' && ((code []).through cs == code [] && ((code []).wordsFrom cs).filter keep == ws)

section

variable {c : Char} {cs : List Char}

theorem oneLine_text (hs : s = String.ofList cs) (h : cs.contains '\n' = false) : OneLine s := by
  rw [OneLine, hs, String.toList_ofList]
  simpa using h

theorem loose_text (hs : s = String.ofList cs) (h : isLoose keep cs ws = true) :
    Loose keep s ws := by
  simp only [isLoose, Bool.and_eq_true, beq_iff_eq, Bool.not_eq_true'] at h
  obtain ⟨hline, hcode, hwords⟩ := h
  cases hthrough : (code []).through cs with
  | code w =>
    refine loose_of_through (w := w) (oneLine_text hs hline) ?_ ?_
    · rw [hs, String.toList_ofList, hthrough]
    · rw [hs, String.toList_ofList, ← hwords, wordsFrom, hthrough]
  | _ => rw [hthrough] at hcode; cases hcode

theorem sealed_text (hs : s = String.ofList cs) (h : isSealed keep cs ws = true) :
    Sealed keep s ws := by
  simp only [isSealed, Bool.and_eq_true, beq_iff_eq, Bool.not_eq_true'] at h
  obtain ⟨hline, hthrough, hwords⟩ := h
  refine sealed_of_through (oneLine_text hs hline) (by rw [hs, String.toList_ofList, hthrough]) ?_
  rw [hs, String.toList_ofList, ← hwords, wordsFrom, hthrough, pending, List.append_nil]

theorem breaks_text (hs : s = String.ofList (c :: cs)) (hc : isWordChar c = false) :
    Breaks s = true := by
  rw [Breaks, hs, String.toList_ofList, List.head?_cons, Option.any_some, hc]
  rfl

end

/-! #### Pieces together -/

theorem Sealed.loose (h : Sealed keep s ws) : Loose keep s ws := ⟨h.oneLine, fun rest _ => h.words_append rest⟩

theorem Sealed.append (hs : Sealed keep s ws) (ht : Sealed keep t vs) : Sealed keep (s ++ t) (ws ++ vs) := by
  refine ⟨hs.oneLine.append ht.oneLine, fun rest => ?_⟩
  rw [String.toList_append, List.append_assoc, hs.words_append, ht.words_append, List.append_assoc]

theorem Sealed.append_loose (hs : Sealed keep s ws) (ht : Loose keep t vs) : Loose keep (s ++ t) (ws ++ vs) := by
  refine ⟨hs.oneLine.append ht.oneLine, fun rest hrest => ?_⟩
  rw [String.toList_append, List.append_assoc, hs.words_append, ht.words_append rest hrest, List.append_assoc]

theorem Loose.append (hs : Loose keep s ws) (hbreaks : Breaks t) (ht : Loose keep t vs) :
    Loose keep (s ++ t) (ws ++ vs) := by
  refine ⟨hs.oneLine.append ht.oneLine, fun rest hrest => ?_⟩
  rw [String.toList_append, List.append_assoc, hs.words_append _ (Breaks.stops hbreaks rest),
    ht.words_append rest hrest, List.append_assoc]

theorem Loose.append_sealed (hs : Loose keep s ws) (hbreaks : Breaks t) (ht : Sealed keep t vs) :
    Sealed keep (s ++ t) (ws ++ vs) := by
  refine ⟨hs.oneLine.append ht.oneLine, fun rest => ?_⟩
  rw [String.toList_append, List.append_assoc, hs.words_append _ (Breaks.stops hbreaks rest), ht.words_append rest,
    List.append_assoc]

/-- The words of a whole line. -/
theorem Loose.words_eq (h : Loose keep s ws) : ((code []).wordsFrom s.toList).filter keep = ws := by
  have hline := h.words_append [] rfl
  rw [List.append_nil] at hline
  simpa [wordsFrom, endedIn, through, pending] using hline

/-! #### Words, numbers and literals -/

/-- The text is a single word. -/
structure IsWord (s : String) : Prop where
  chars : ∀ c ∈ s.toList, isWordChar c = true
  nonempty : s.toList ≠ []

theorem isWord_ofList {cs : List Char} (hcs : cs.all isWordChar = true) (hne : cs ≠ []) :
    IsWord (String.ofList cs) := by
  refine ⟨?_, ?_⟩ <;> rw [String.toList_ofList]
  · exact List.all_eq_true.mp hcs
  · exact hne

theorem isWord_text {c : Char} {cs : List Char} (hs : s = String.ofList (c :: cs))
    (h : (c :: cs).all isWordChar = true) : IsWord s := by
  rw [hs]
  exact isWord_ofList h (List.cons_ne_nil _ _)

theorem IsWord.oneLine (h : IsWord s) : OneLine s := fun hmem => absurd (h.chars _ hmem) (by decide)

theorem loose_word (h : IsWord s) : Loose keep s ([s.toList].filter keep) := by
  have hpasses := Passes.word h.chars []
  refine loose_of_through h.oneLine hpasses.through ?_
  rw [hpasses.ended, List.nil_append, List.nil_append]
  cases hs : s.toList with
  | nil => exact absurd hs h.nonempty
  | cons c cs => rfl

theorem isWordChar_of_isDigit {c : Char} (h : c.isDigit = true) : isWordChar c = true := by
  simp [isWordChar, Char.isAlphanum, h]

theorem all_isWordChar_toDigits (n : Nat) : (Nat.toDigits 10 n).all isWordChar = true :=
  List.all_eq_true.mpr fun _ hc => isWordChar_of_isDigit (Nat.isDigit_of_mem_toDigits (by decide) (by decide) hc)

theorem loose_number (n : Nat) : Loose keep (toString n) ([Nat.toDigits 10 n].filter keep) := by
  have hword := isWord_ofList (all_isWordChar_toDigits n) Nat.toDigits_ne_nil
  have hloose : Loose keep (String.ofList (Nat.toDigits 10 n)) _ := loose_word hword
  rwa [String.toList_ofList, ← Nat.toString_eq_ofList_toDigits] at hloose

theorem exists_digitChar {n : Nat} {c : Char} (h : c ∈ Nat.toDigits 16 n) : ∃ d < 16, c = Nat.digitChar d := by
  induction n using Nat.strongRecOn with
  | ind n ih =>
    rw [Nat.toDigits_eq_if (by decide)] at h
    split at h
    · exact ⟨n, ‹_›, List.mem_singleton.mp h⟩
    · rcases List.mem_append.mp h with h | h
      · exact ih (n / 16) (by omega) h
      · exact ⟨n % 16, Nat.mod_lt _ (by decide), List.mem_singleton.mp h⟩

theorem isAlphanum_of_mem_toDigits {n : Nat} {c : Char} (h : c ∈ Nat.toDigits 16 n) : c.isAlphanum = true := by
  have hdigit : ∀ d < 16, (Nat.digitChar d).isAlphanum = true := by decide
  obtain ⟨d, hd, rfl⟩ := exists_digitChar h
  exact hdigit d hd

/-- What is written into a comment stays within its line. -/
theorem oneLine_comment (s : String) : OneLine (Quoted.comment s) := by
  have hdigit : ∀ d < 16, (Nat.digitChar d).toUpper ≠ '\n' := by decide
  have hchar : ∀ c, '\n' ∉ Quoted.commentChar c := by
    intro c
    unfold Quoted.commentChar
    split
    · decide
    split
    · decide
    split
    · decide
    split
    · rw [List.mem_append, List.mem_append, List.mem_map]
      rintro ((h | ⟨a, ha, h⟩) | h)
      · exact absurd h (by decide)
      · obtain ⟨d, hd, rfl⟩ := exists_digitChar ha
        exact hdigit d hd h
      · exact absurd h (by decide)
    · rename_i hc _ _ _
      exact fun h => hc (List.mem_singleton.mp h).symm
  rw [OneLine, Quoted.comment, String.toList_ofList, List.mem_flatMap]
  rintro ⟨c, _, hc⟩
  exact hchar c hc

/-- How a character is written between quotes: as itself, or with a backslash. -/
theorem literalChar_cases {quote c : Char} (P : List Char → Prop) (hquote : quote ≠ '\n')
    (hself : c ≠ '\\' → c ≠ quote → c ≠ '\n' → P [c]) (hescaped : ∀ d, d ≠ '\n' → P ['\\', d])
    (hnumber : ∀ ds : List Char, (∀ d ∈ ds, d.isAlphanum = true) → P ('\\' :: 'u' :: '\x7b' :: (ds ++ ['\x7d']))) :
    P (Quoted.literalChar quote c) := by
  have hbyNumber : Quoted.byNumber c = '\\' :: 'u' :: '\x7b' :: (Nat.toDigits 16 c.toNat ++ ['\x7d']) := rfl
  unfold Quoted.literalChar
  iterate 5 (split; · exact hescaped _ (by decide))
  split
  · rename_i hc
    exact hescaped c (hc ▸ hquote)
  split
  · rename_i hslash hnewline _ _ _ hne _
    exact hself hslash hne hnewline
  · rw [hbyNumber]
    exact hnumber _ fun d hd => isAlphanum_of_mem_toDigits hd

theorem newline_notMem_literalChar {quote : Char} (hquote : quote ≠ '\n') (c : Char) :
    '\n' ∉ Quoted.literalChar quote c := by
  refine literalChar_cases (fun cs => '\n' ∉ cs) hquote ?_ ?_ ?_
  · intro _ _ hc
    simpa using hc.symm
  · intro d hd
    simpa using hd.symm
  · intro ds hds
    have hdigits : '\n' ∉ ds := fun h => absurd (hds _ h) (by decide)
    simpa using hdigits

theorem passes_literalChar_quote (c : Char) : Passes quote (Quoted.literalChar '\'' c ++ ['\'']) (code []) := by
  have hend : Passes char ['\''] (code []) := .single rfl rfl
  refine literalChar_cases (fun cs => Passes quote (cs ++ ['\'']) (code [])) (by decide) ?_ ?_ ?_
  · intro hslash _ _
    exact .cons (if_neg hslash) (ite_self _) (.single rfl rfl)
  · intro d _
    exact .cons rfl rfl (.cons rfl (ite_self _) hend)
  · intro ds hds
    have hdigits : Passes char ds char := by
      refine .all (fun d hd => if_neg ?_) rfl
      rintro rfl
      exact absurd (hds _ hd) (by decide)
    exact .cons rfl rfl (.cons rfl rfl (.cons rfl rfl ((hdigits.append (.single rfl rfl)).append hend)))

theorem passes_literalChar_string (c : Char) : Passes string (Quoted.literalChar '"' c) string := by
  refine literalChar_cases (fun cs => Passes string cs string) (by decide) ?_ ?_ ?_
  · intro hslash hquote _
    exact .single ((if_neg hslash).trans (if_neg hquote)) (ite_self _)
  · intro d _
    exact .cons rfl rfl (.single rfl (ite_self _))
  · intro ds hds
    have hdigits : Passes string ds string := by
      refine .all (fun d hd => (if_neg ?_).trans (if_neg ?_)) rfl
      all_goals
        rintro rfl
        exact absurd (hds _ hd) (by decide)
    exact .cons rfl rfl (.cons rfl rfl (.cons rfl rfl (hdigits.append (.single rfl rfl))))

theorem sealed_charLiteral (c : Char) : Sealed keep (Quoted.charLiteral c) [] := by
  have hpasses : Passes (code []) (Quoted.charLiteral c).toList (code []) := by
    rw [Quoted.charLiteral, String.toList_ofList, List.cons_append]
    exact .cons rfl rfl (passes_literalChar_quote c)
  have hline : OneLine (Quoted.charLiteral c) := by
    rw [OneLine, Quoted.charLiteral, String.toList_ofList]
    simpa using newline_notMem_literalChar (by decide) c
  exact sealed_of_through hline hpasses.through (by rw [hpasses.ended]; rfl)

theorem sealed_stringLiteral (text : String) : Sealed keep (Quoted.stringLiteral text) [] := by
  have hpasses : Passes (code []) (Quoted.stringLiteral text).toList (code []) := by
    rw [Quoted.stringLiteral, String.toList_ofList, List.cons_append]
    exact .cons rfl rfl ((Passes.flatMap passes_literalChar_string _).append (.single rfl rfl))
  have hline : OneLine (Quoted.stringLiteral text) := by
    rw [OneLine, Quoted.stringLiteral, String.toList_ofList]
    simpa using fun c _ => newline_notMem_literalChar (by decide) c
  exact sealed_of_through hline hpasses.through (by rw [hpasses.ended]; rfl)

/-- Pieces with commas between them. -/
theorem loose_intercalate {parts : List String} (h : ∀ p ∈ parts, Loose keep p []) :
    Loose keep (String.intercalate ", " parts) [] := by
  have hcomma : Sealed keep ", " [] := sealed_text rfl rfl
  induction parts with
  | nil => exact loose_text rfl rfl
  | cons p parts ih =>
    obtain ⟨hp, hparts⟩ := List.forall_mem_cons.mp h
    cases parts with
    | nil => simpa using hp
    | cons q parts =>
      rw [String.intercalate_cons_cons]
      exact (hp.append_sealed (breaks_text rfl rfl) hcomma).append_loose (ih hparts)

end

end PatternCompiler
