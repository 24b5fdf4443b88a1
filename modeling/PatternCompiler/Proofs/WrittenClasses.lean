import PatternCompiler.Proofs.ClassOperations
import PatternCompiler.Proofs.FirstCharacters
import PatternCompiler.Proofs.Numbering
import PatternCompiler.Proofs.Reduction

/-! Classes mean what is written in their brackets.

A class is written as a chain of levels, the outermost first; each lists characters and
ranges, may be negated, and has the next one taken from it. `ClassLevel.Denotes` says which
characters that is, without regard to how the brackets are read. `Pattern.parse_class` says
that a pattern which is just such a class is read under any options as one test, and that
the test accepts these characters.

There is one exception, which is part of what a negated level means: if it lists U+D7FF and
U+E000 but has no range over the surrogates between them, both characters stay in the
class although they are listed (`Pattern.parse_class_split`). -/
namespace PatternCompiler

/-! ### What is written -/

/-- A character, or the characters from one to another. -/
inductive ClassItem where
  | char (c : Char)
  | range (lo hi : Char) (ordered : lo ≤ hi)

namespace ClassItem

def Has : ClassItem → Char → Prop
  | char d, c => c = d
  | range lo hi _, c => lo ≤ c ∧ c ≤ hi

instance decidableHas : (i : ClassItem) → (c : Char) → Decidable (i.Has c)
  | char d, c => inferInstanceAs (Decidable (c = d))
  | range lo hi _, c => inferInstanceAs (Decidable (lo ≤ c ∧ c ≤ hi))

def render : ClassItem → List Char
  | char d => renderEnd d
  | range lo hi _ => renderEnd lo ++ '-' :: renderEnd hi

def toRange : ClassItem → CharRange
  | char d => .single d
  | range lo hi _ => ⟨lo, hi⟩

theorem contains_toRange (i : ClassItem) {c : Char} : i.toRange.contains c = true ↔ i.Has c := by
  cases i with
  | char d => exact CharRange.contains_single
  | range lo hi ordered =>
    rw [CharRange.contains_iff, Has, Scalar.le_iff, Scalar.le_iff]
    exact Iff.rfl

theorem toRange_proper (i : ClassItem) : i.toRange.Proper := by
  cases i with
  | char d => exact Nat.le_refl _
  | range lo hi ordered => exact Scalar.le_iff.mp ordered

theorem spelledAs (i : ClassItem) : Cursor.SpelledAs i.toRange i.render := by
  cases i with
  | char d => exact .single d
  | range lo hi ordered => exact .pair (Scalar.le_iff.mp ordered)

/-- An item goes over the surrogates if it has the characters on both sides of them. -/
theorem straddles_toRange (i : ClassItem) :
    i.toRange.Straddles ↔ i.Has '\uD7FF' ∧ i.Has '\uE000' := by
  have hproper := i.toRange_proper
  have hlo := Scalar.toNat_valid i.toRange.lo
  have hhi := Scalar.toNat_valid i.toRange.hi
  have hbelow : ('\uD7FF' : Char).toNat = 0xD7FF := rfl
  have habove : ('\uE000' : Char).toNat = 0xE000 := rfl
  rw [← contains_toRange, ← contains_toRange, CharRange.contains_iff, CharRange.contains_iff, hbelow, habove]
  unfold CharRange.Proper at hproper
  unfold CharRange.Straddles
  omega

end ClassItem

/-- What stands in one pair of brackets, without the class that is taken from it. -/
structure ClassLevel where
  negated : Bool
  items : List ClassItem
  nonempty : items ≠ []

namespace ClassLevel

/-- What stands between the opening bracket and the class that is taken away. -/
def body (l : ClassLevel) : List Char := (if l.negated then ['^'] else []) ++ l.items.flatMap ClassItem.render

/-- A class from just past its opening bracket. -/
def renderFrom : ClassLevel → List ClassLevel → List Char
  | l, [] => l.body ++ [']']
  | l, m :: inner => l.body ++ '-' :: '[' :: (renderFrom m inner ++ [']'])

def render (l : ClassLevel) (inner : List ClassLevel) : List Char := '[' :: l.renderFrom inner

/-- An item has the character or, if case is ignored, one of which it is the lower-case form. -/
def Lists (ignoreCase : Bool) (k : Culture) (l : ClassLevel) (c : Char) : Prop :=
  ∃ d, (d = c ∨ ignoreCase = true ∧ k.toLower d = c) ∧ ∃ i ∈ l.items, i.Has d

/-- The characters on both sides of the surrogates are listed, but no item goes from one to the other. -/
def Splits (ignoreCase : Bool) (k : Culture) (l : ClassLevel) : Prop :=
  l.Lists ignoreCase k '\uD7FF' ∧ l.Lists ignoreCase k '\uE000' ∧
    ∀ i ∈ l.items, ¬ (i.Has '\uD7FF' ∧ i.Has '\uE000')

/-- The character is in the level by itself. -/
def Means (ignoreCase : Bool) (k : Culture) (l : ClassLevel) (c : Char) : Prop :=
  if l.negated then
    ¬ l.Lists ignoreCase k c ∨ l.Splits ignoreCase k ∧ (c = '\uD7FF' ∨ c = '\uE000')
  else l.Lists ignoreCase k c

/-- The character is in the level and not in the class that is taken from it. -/
def Denotes (ignoreCase : Bool) (k : Culture) : ClassLevel → List ClassLevel → Char → Prop
  | l, [], c => l.Means ignoreCase k c
  | l, m :: inner, c => l.Means ignoreCase k c ∧ ¬ Denotes ignoreCase k m inner c

/-! ### What it means -/

/-- The level as it is read. -/
def toLevel (m : Cursor.BracketMode) (l : ClassLevel) : CharClass.Level :=
  ⟨m.ranges (l.items.map ClassItem.toRange), [], l.negated⟩

variable {l : ClassLevel} {inner : List ClassLevel} {m : Cursor.BracketMode} {c : Char}

theorem has_items {items : List ClassItem} :
    CharClass.Has (items.map ClassItem.toRange) c ↔ ∃ i ∈ items, i.Has c := by
  simp [CharClass.Has, ClassItem.contains_toRange]

/-- Lower-case forms are added one by one. -/
theorem mem_ranges {rs : List CharRange} {q : CharRange} (h : q ∈ m.ranges rs) :
    q ∈ rs ∨ ∃ d, q = .single d := by
  rcases List.mem_append.mp h with h | h
  · exact .inl h
  · split at h
    · obtain ⟨d, _, rfl⟩ := List.mem_map.mp h
      exact .inr ⟨_, rfl⟩
    · cases h

theorem has_ranges {rs : List CharRange} : CharClass.Has (m.ranges rs) c ↔
    ∃ d, (d = c ∨ m.ignoreCase = true ∧ m.culture.toLower d = c) ∧ CharClass.Has rs d := by
  rw [Cursor.BracketMode.ranges, CharClass.has_append]
  constructor
  · rintro (h | ⟨q, hq, hc⟩)
    · exact ⟨c, .inl rfl, h⟩
    · split at hq
      · rename_i hignore
        obtain ⟨d, hd, rfl⟩ := List.mem_map.mp hq
        have hfilter := (List.mem_filter.mp hd).2
        rw [Bool.and_eq_true, List.any_eq_true] at hfilter
        exact ⟨d, .inr ⟨hignore, (CharRange.contains_single.mp hc).symm⟩, hfilter.2⟩
      · cases hq
  · rintro ⟨d, rfl | ⟨hignore, hlower⟩, hd⟩
    · exact .inl hd
    · rw [if_pos hignore, ← hlower]
      by_cases hsame : m.culture.toLower d = d
      · exact .inl (hsame.symm ▸ hd)
      · exact .inr (Culture.has_lowerImage hd hsame)

theorem has_toLevel : CharClass.Has (l.toLevel m).ranges c ↔ l.Lists m.ignoreCase m.culture c := by
  rw [toLevel, has_ranges]
  simp only [has_items]
  exact Iff.rfl

theorem toLevel_proper : ∀ q ∈ (l.toLevel m).ranges, q.Proper := by
  intro q hq
  rcases mem_ranges hq with hq | ⟨d, rfl⟩
  · obtain ⟨i, _, rfl⟩ := List.mem_map.mp hq
    exact i.toRange_proper
  · exact Nat.le_refl _

theorem split_toLevel : CharClass.Split (l.toLevel m).ranges ↔ l.Splits m.ignoreCase m.culture := by
  have hapart : (∀ q ∈ (l.toLevel m).ranges, ¬ q.Straddles) ↔
      ∀ i ∈ l.items, ¬ (i.Has '\uD7FF' ∧ i.Has '\uE000') := by
    simp only [← ClassItem.straddles_toRange]
    constructor
    · intro h i hi
      exact h _ (List.mem_append_left _ (List.mem_map_of_mem hi))
    · intro h q hq
      rcases mem_ranges hq with hq | ⟨d, rfl⟩
      · obtain ⟨i, hi, rfl⟩ := List.mem_map.mp hq
        exact h i hi
      · rintro ⟨hlo, hhi⟩
        exact absurd (Nat.le_trans hhi hlo) (by decide)
  constructor
  · intro h
    exact ⟨has_toLevel.mp h.below, has_toLevel.mp h.above, hapart.mp h.apart⟩
  · rintro ⟨hbelow, habove, h⟩
    exact ⟨has_toLevel.mpr hbelow, has_toLevel.mpr habove, hapart.mpr h⟩

theorem has_resolve : CharClass.Has (l.toLevel m).resolve.ranges.toList c ↔
    l.Means m.ignoreCase m.culture c := by
  rw [CharClass.Level.has_resolve rfl toLevel_proper, has_toLevel, split_toLevel]
  exact Iff.rfl

/-- **The class of a chain of levels** has the characters that the chain denotes. -/
theorem has_resolveChain : CharClass.Has (CharClass.resolveChain ((l :: inner).map (toLevel m))).ranges.toList c ↔
    l.Denotes m.ignoreCase m.culture inner c := by
  induction inner generalizing l with
  | nil => exact has_resolve
  | cons n inner ih =>
    rw [Denotes, ← ih, ← has_resolve]
    exact CharClass.has_resolveChain_cons

end ClassLevel

/-! ### Reading it -/

namespace Cursor

variable {l : ClassLevel} {inner : List ClassLevel} {c : Cursor} {rest : List Char}

theorem level_body (m : BracketMode) (stop : LevelEnd) (hc : c.rest = l.body ++ (stop.mark ++ rest)) :
    ∃ pos, level m c = .ok (l.toLevel m, stop, ⟨pos, rest⟩) := by
  rw [ClassLevel.body, List.append_assoc] at hc
  exact level_ranges m l.negated stop (fun i _ => i.spelledAs) l.nonempty hc

/-- The levels are read from the outside in, up to the first of the brackets that close them. -/
theorem levelsFrom_render (m : BracketMode) {rounds : Nat} (hrounds : inner.length < rounds)
    (hc : c.rest = l.renderFrom inner ++ rest) :
    ∃ pos, levelsFrom m rounds c =
      .ok ((l :: inner).map (ClassLevel.toLevel m), ⟨pos, List.replicate inner.length ']' ++ rest⟩) := by
  obtain ⟨k, rfl⟩ : ∃ k, rounds = k + 1 := ⟨rounds - 1, by omega⟩
  induction inner generalizing l c k rest with
  | nil =>
    rw [ClassLevel.renderFrom, List.append_assoc] at hc
    obtain ⟨pos, hlevel⟩ := level_body m .closed hc
    refine ⟨pos, ?_⟩
    simp only [levelsFrom, hlevel, bind, Except.bind]
    rfl
  | cons n inner ih =>
    obtain ⟨k, rfl⟩ : ∃ j, k = j + 1 := ⟨k - 1, by rw [List.length_cons] at hrounds; omega⟩
    have htext : c.rest = l.body ++ (LevelEnd.subtraction.mark ++ (n.renderFrom inner ++ ']' :: rest)) := by
      simpa [ClassLevel.renderFrom, LevelEnd.mark] using hc
    obtain ⟨pos, hlevel⟩ := level_body m .subtraction htext
    obtain ⟨pos', hinner⟩ := ih (l := n) (c := ⟨pos, n.renderFrom inner ++ ']' :: rest⟩) rfl k
      (Nat.lt_of_succ_lt_succ hrounds)
    have hclosing : List.replicate (n :: inner).length ']' ++ rest =
        List.replicate inner.length ']' ++ ']' :: rest := by
      rw [List.length_cons, List.replicate_succ', List.append_assoc, List.singleton_append]
    refine ⟨pos', ?_⟩
    rw [levelsFrom, hclosing]
    simp only [hlevel, hinner, bind, Except.bind]
    rfl

theorem closeLevels_replicate (n pos : Nat) :
    closeLevels n ⟨pos, List.replicate n ']' ++ rest⟩ = .ok ⟨pos + n, rest⟩ := by
  induction n generalizing pos with
  | zero => rfl
  | succ n ih =>
    show closeLevels n ⟨pos + 1, List.replicate n ']' ++ rest⟩ = _
    rw [ih, Nat.add_assoc, Nat.add_comm 1]

theorem length_renderFrom (l : ClassLevel) (inner : List ClassLevel) :
    inner.length < (l.renderFrom inner).length := by
  induction inner generalizing l with
  | nil => simp [ClassLevel.renderFrom]
  | cons n inner ih =>
    have := ih n
    simp only [ClassLevel.renderFrom, List.length_append, List.length_cons]
    omega

theorem bracket_render (m : BracketMode) (hc : c.rest = l.renderFrom inner ++ rest) :
    ∃ pos, c.bracket m =
      .ok (CharClass.resolveChain ((l :: inner).map (ClassLevel.toLevel m)), ⟨pos, rest⟩) := by
  have hrounds : inner.length < c.rest.length + 1 := by
    have := length_renderFrom l inner
    rw [hc, List.length_append]
    omega
  obtain ⟨pos, hlevels⟩ := levelsFrom_render m hrounds hc
  refine ⟨pos + inner.length, ?_⟩
  simp only [bracket, hlevels, bind, Except.bind, List.length_map, List.length_cons, Nat.add_one_sub_one,
    closeLevels_replicate]

/-- The survey goes over a class inside any others to its last bracket. -/
theorem skipsTo_render (depth : Nat) (hc : c.rest = l.renderFrom inner ++ rest) :
    ∃ pos, ∀ out, After .closed depth ⟨pos, rest⟩ out → SkipsTo depth true false (c.skipChar '^') out := by
  induction inner generalizing l c depth rest with
  | nil =>
    rw [ClassLevel.renderFrom, ClassLevel.body, List.append_assoc, List.append_assoc] at hc
    obtain ⟨pos, hskips⟩ := skipsTo_level l.negated (fun i _ => i.spelledAs) l.nonempty hc
    exact ⟨pos + 1, fun out hafter => hskips out (skipsTo_of_after_closed rfl rfl hafter)⟩
  | cons n inner ih =>
    have htext : c.rest = (if l.negated then ['^'] else []) ++
        (l.items.flatMap ClassItem.render ++ '-' :: '[' :: (n.renderFrom inner ++ ']' :: rest)) := by
      simpa [ClassLevel.renderFrom, ClassLevel.body] using hc
    obtain ⟨pos, hskips⟩ := skipsTo_level l.negated (fun i _ => i.spelledAs) l.nonempty htext
    obtain ⟨pos', hinner⟩ := ih (depth + 1) (c := ⟨pos + 1 + 1, _⟩) rfl
    refine ⟨pos' + 1, fun out hafter => hskips out (.minus rfl (.inner rfl (hinner out ?_)))⟩
    exact skipsTo_of_after_closed rfl rfl hafter

theorem skipBracket_render (hc : c.rest = l.renderFrom inner ++ rest) :
    ∃ pos, c.skipBracket = .ok ⟨pos, rest⟩ := by
  obtain ⟨pos, hskips⟩ := skipsTo_render 0 hc
  exact ⟨pos, hskips _ rfl _ (Nat.lt_succ_self _)⟩

end Cursor

/-! ### A pattern that is one class -/

theorem GroupTable.ofPattern_bracket {text : List Char} {pos : Nat}
    (h : Cursor.skipBracket ⟨1, text⟩ = .ok ⟨pos, []⟩) (o : Options) :
    ∃ table, GroupTable.ofPattern ('[' :: text) o = .ok table := by
  have hstep : (Survey.start ('[' :: text) o).construct '[' ⟨1, text⟩ =
      .ok { Survey.start ('[' :: text) o with cursor := ⟨pos, []⟩ } := by
    rw [Survey.construct, if_neg (by decide), if_neg (by decide), if_pos rfl, h]
    rfl
  have hrun : Survey.run (text.length + 1) (Survey.start ('[' :: text) o) =
      .ok { Survey.start ('[' :: text) o with cursor := ⟨pos, []⟩ } := by
    show (do Survey.run text.length (← (Survey.start ('[' :: text) o).construct '[' ⟨1, text⟩)) = _
    rw [hstep]
    cases text.length <;> rfl
  exact ⟨_, by rw [GroupTable.ofPattern, List.length_cons, hrun]; rfl⟩

namespace Reader

variable {e : Setting} {o : Options} {text : List Char} {k : CharClass} {pos : Nat}

/-- The class is the only part of the pattern. -/
theorem step_bracket
    (h : Cursor.bracket ⟨o.ignoreCase, o.ecmaScript, e.culture⟩ ⟨1, text⟩ = .ok (k, ⟨pos, []⟩)) :
    (start ('[' :: text) o).step e =
      .ok { (start ('[' :: text) o).add (.leaf o (.test (.set k))) with cursor := ⟨pos, []⟩ } := by
  have hblank : Cursor.skipBlanks ⟨0, '[' :: text⟩ o = .ok ⟨0, '[' :: text⟩ :=
    skipBlanks_stays rfl (by decide) (by decide) (fun heq => absurd heq (by decide)) o
  have hrun : Cursor.literalRun ⟨0, '[' :: text⟩ o = ([], ⟨0, '[' :: text⟩) :=
    literalRun_stays rfl (by decide) (by decide) o
  have hstep : (start ('[' :: text) o).step e =
      special e { start ('[' :: text) o with cursor := ⟨1, text⟩ } '[' false := by
    simp only [step, start, hblank, hrun, bind, Except.bind]
    rfl
  have hspecial : special e { start ('[' :: text) o with cursor := ⟨1, text⟩ } '[' false =
      quantifier { withUnit (start ('[' :: text) o) (.test (.set k)) with cursor := ⟨pos, []⟩ } :=
    congrArg (fun x : Except Problem (CharClass × Cursor) => x.bind fun read =>
      quantifier { withUnit (start ('[' :: text) o) (.test (.set read.1)) with cursor := read.2 }) h
  rw [hstep, hspecial]
  rfl

theorem finish_test (text : List Char) (t : CharTest CharClass) (c : Cursor) :
    finish { (start text o).add (.leaf o (.test t)) with cursor := c } =
      .ok (.wrap o (.capture (some 0) none) (.leaf o (.test (Node.simplifyTest t)))) := by
  have hsequence : ((Frame.opened (.capture (some 0) none) o).add (.leaf o (.test t))).sequence =
      .many o .concatenate [.leaf o (.test (Node.simplifyTest t))] := by
    simp [Frame.sequence, Frame.add, Frame.opened, Node.reduce]
  show Except.ok (Frame.node (Frame.endBranch _ o)) = _
  rw [Frame.endBranch, start, add, hsequence]
  rfl

theorem run_bracket
    (h : Cursor.bracket ⟨o.ignoreCase, o.ecmaScript, e.culture⟩ ⟨1, text⟩ = .ok (k, ⟨pos, []⟩)) :
    ∃ r, run e (text.length + 1) (start ('[' :: text) o) = .ok r ∧ r.finish =
      .ok (.wrap o (.capture (some 0) none) (.leaf o (.test (Node.simplifyTest (.set k))))) := by
  refine ⟨_, ?_, finish_test ('[' :: text) (.set k) ⟨pos, []⟩⟩
  show (do run e text.length (← (start ('[' :: text) o).step e)) = _
  rw [step_bracket h]
  cases text.length <;> rfl

end Reader

namespace Pattern

/-- The test that a class in brackets becomes. -/
def testOf (l : ClassLevel) (inner : List ClassLevel) (o : Options) (culture : Culture) : CharTest CharClass :=
  let mode : Cursor.BracketMode := ⟨o.ignoreCase, o.ecmaScript, effectiveCulture o culture⟩
  Node.simplifyTest (.set (CharClass.resolveChain ((l :: inner).map (ClassLevel.toLevel mode))))

theorem accepts_testOf {l : ClassLevel} {inner : List ClassLevel} {o : Options} {culture : Culture} {c : Char} :
    (testOf l inner o culture).accepts c = true ↔
      l.Denotes o.ignoreCase (effectiveCulture o culture) inner c := by
  rw [testOf, Node.simplifyTest_accepts]
  exact (CharClass.contains_iff (CharClass.resolveChain_nearlyAscending _).ordered).trans ClassLevel.has_resolveChain

/-- The tree of a class is its test, in the group of the whole match. -/
theorem parse_bracket (l : ClassLevel) (inner : List ClassLevel) (o : Options) (culture : Culture) :
    ∃ p, Pattern.parse (String.ofList (l.render inner)) o culture = .ok p ∧
      p.root = .wrap o (.capture (some 0) none) (.leaf o (.test (testOf l inner o culture))) := by
  have htext : l.renderFrom inner = l.renderFrom inner ++ [] := (List.append_nil _).symm
  obtain ⟨_, hskip⟩ := Cursor.skipBracket_render (c := ⟨1, l.renderFrom inner⟩) htext
  obtain ⟨table, htable⟩ := GroupTable.ofPattern_bracket hskip o
  obtain ⟨pos, hbracket⟩ := Cursor.bracket_render (c := ⟨1, l.renderFrom inner⟩)
    ⟨o.ignoreCase, o.ecmaScript, effectiveCulture o culture⟩ htext
  obtain ⟨r, hrun, hfinish⟩ := Reader.run_bracket (e := ⟨effectiveCulture o culture, table⟩) hbracket
  refine ⟨⟨_, table, o, effectiveCulture o culture⟩, ?_, rfl⟩
  rw [parse, String.toList_ofList, read, ClassLevel.render, htable, List.length_cons]
  simp only [hrun, hfinish, bind, Except.bind]
  rfl

/-- **A class means what is written.** Whatever the levels, the options and the culture, the pattern is
read as one test, and the test accepts the characters of the class. -/
theorem parse_class (l : ClassLevel) (inner : List ClassLevel) (o : Options) (culture : Culture) :
    ∃ p t, Pattern.parse (String.ofList (l.render inner)) o culture = .ok p ∧
      p.root = .wrap o (.capture (some 0) none) (.leaf o (.test t)) ∧
        ∀ c, t.accepts c = true ↔ l.Denotes o.ignoreCase (effectiveCulture o culture) inner c := by
  obtain ⟨p, hparse, hroot⟩ := parse_bracket l inner o culture
  exact ⟨p, _, hparse, hroot, fun c => accepts_testOf⟩

/-- A level that asks for everything but the two characters next to the surrogates. -/
def butNeighbours : ClassLevel := ⟨true, [.char '\uD7FF', .char '\uE000'], List.cons_ne_nil _ _⟩

/-- A negated class that lists both characters next to the surrogates has them all the same. -/
theorem parse_class_split :
    ∃ p t, Pattern.parse "[^\\ud7ff\\ue000]" {} .invariant = .ok p ∧
      p.root = .wrap {} (.capture (some 0) none) (.leaf {} (.test t)) ∧
        butNeighbours.Lists false .invariant '\uD7FF' ∧ t.accepts '\uD7FF' = true ∧
          butNeighbours.Lists false .invariant '\uE000' ∧ t.accepts '\uE000' = true := by
  have htext : String.ofList (butNeighbours.render []) = "[^\\ud7ff\\ue000]" := by decide +kernel
  obtain ⟨p, hparse, hroot⟩ := parse_bracket butNeighbours [] {} .invariant
  have hbelow : butNeighbours.Lists false .invariant '\uD7FF' :=
    ⟨_, .inl rfl, .char '\uD7FF', by simp [butNeighbours], rfl⟩
  have habove : butNeighbours.Lists false .invariant '\uE000' :=
    ⟨_, .inl rfl, .char '\uE000', by simp [butNeighbours], rfl⟩
  have hsplits : butNeighbours.Splits false .invariant := ⟨hbelow, habove, by decide⟩
  have haccepts : ∀ c, c = '\uD7FF' ∨ c = '\uE000' → (testOf butNeighbours [] {} .invariant).accepts c = true :=
    fun c hc => accepts_testOf.mpr (.inr ⟨hsplits, hc⟩)
  rw [htext] at hparse
  exact ⟨p, _, hparse, hroot, hbelow, haccepts _ (.inl rfl), habove, haccepts _ (.inr rfl)⟩

end Pattern

end PatternCompiler
