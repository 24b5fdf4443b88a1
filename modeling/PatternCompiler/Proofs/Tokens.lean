import PatternCompiler.Proofs.Counts
import PatternCompiler.Proofs.Rendering

/-! Reading back the smallest texts.

What `Node.render` writes for a number, a count, a class or an escape, the cursor's readers
take as just that, whatever follows. The text that follows a part of a tree is `Fresh`:
it does not begin with a quantifier nor with a comment, so nothing of it is taken for
more of the part. -/
namespace PatternCompiler

namespace Cursor

variable {c : Cursor} {rest : List Char} {n min max : Nat} {ch : Char} {cs : List Char} {m : BracketMode}
  {t : GroupTable}

/-! ### Numbers -/

theorem isDigit_of_mem_renderNumber {n : Nat} {d : Char} (h : d ∈ renderNumber n) : d.isDigit = true :=
  Nat.isDigit_of_mem_toDigits (by decide) (by decide) h

theorem renderNumber_pos (n : Nat) : 0 < (renderNumber n).length := Nat.length_toDigits_pos

/-- What is written for a number. -/
def numeralOf (n : Nat) : Numeral :=
  ⟨renderNumber n, List.length_pos_iff.mp (renderNumber_pos n), fun _ => isDigit_of_mem_renderNumber⟩

theorem value_numeralOf (n : Nat) : (numeralOf n).value = n := Nat.ofDigitChars_toDigits (by decide) (by decide)

theorem decimal_number (hn : n ≤ unbounded) (hrest : ∀ d ∈ rest.head?, d.isDigit = false)
    (hc : c.rest = renderNumber n ++ rest) :
    c.decimal = .ok (n, ⟨c.pos + (renderNumber n).length, rest⟩) := by
  rcases decimal_cases (numeralOf n) hrest hc with ⟨hlt, _⟩ | ⟨_, hread⟩
  · rw [value_numeralOf] at hlt
    exact absurd hn (Nat.not_le.mpr hlt)
  · rwa [value_numeralOf] at hread

theorem renderNumber_cons (n : Nat) : ∃ d ds, renderNumber n = d :: ds ∧ d.isDigit = true := by
  obtain ⟨d, ds, h⟩ := List.exists_cons_of_length_pos (renderNumber_pos n)
  exact ⟨d, ds, h, isDigit_of_mem_renderNumber (h ▸ List.mem_cons_self)⟩

/-! ### What follows a part -/

/-- Neither a quantifier nor a comment is ahead. -/
def Fresh (cs : List Char) : Prop :=
  ∀ ch rest, cs = ch :: rest → isQuantifier ch = false ∧ (ch = '(' → rest.take 2 ≠ ['?', '#'])

theorem fresh_nil : Fresh [] := nofun

theorem fresh_cons (hquantifier : isQuantifier ch = false) (hparen : ch ≠ '(') : Fresh (ch :: rest) := by
  rintro _ _ ⟨⟩
  exact ⟨hquantifier, fun h => absurd h hparen⟩

theorem Fresh.startsQuantifier {cs : List Char} (h : Fresh cs) : startsQuantifier cs = false := by
  unfold Cursor.startsQuantifier
  split
  · rfl
  · exact absurd (h _ _ rfl).1 (by decide)
  · exact (h _ _ rfl).1

theorem Fresh.head_ne (h : Fresh cs) : cs.head? ≠ some '?' := by
  cases cs with
  | nil => nofun
  | cons ch rest =>
    rintro ⟨⟩
    exact absurd (h _ _ rfl).1 (by decide)

theorem fresh_paren {cs : List Char} (h : cs.take 2 ≠ ['?', '#']) : Fresh ('(' :: cs) := by
  rintro _ _ ⟨⟩
  exact ⟨by decide, fun _ => h⟩

theorem Fresh.paren (h : Fresh cs) : Fresh ('(' :: cs) := by
  refine fresh_paren fun htake => h.head_ne ?_
  cases cs with
  | nil => cases htake
  | cons ch rest =>
    rw [List.take_succ_cons] at htake
    rw [(List.cons.inj htake).1]
    rfl

/-- Only a comment is skipped. -/
theorem skipBlanks_none (h : ∀ rest, c.rest = '(' :: rest → rest.take 2 ≠ ['?', '#']) :
    c.skipBlanks {} = .ok c := by
  obtain ⟨pos, cs⟩ := c
  cases cs with
  | nil => rfl
  | cons ch rest =>
    have hcomment : ¬ (ch == '(' && rest.take 2 == ['?', '#']) = true := by
      intro hand
      simp only [Bool.and_eq_true, beq_iff_eq] at hand
      exact h rest (by rw [hand.1]) hand.2
    show skipBlanksFrom false .between pos (ch :: rest) = _
    rw [skipBlanksFrom, Bool.false_and, Bool.false_and, if_neg nofun, if_neg nofun, if_neg hcomment]

theorem Fresh.skipBlanks (h : Fresh c.rest) : c.skipBlanks {} = .ok c :=
  skipBlanks_none fun rest hc => (h '(' rest hc).2 rfl

theorem not_isQuantifier {ch : Char} (h : isSpecial ch = false) : isQuantifier ch = false := by
  unfold isSpecial at h
  simp only [Bool.or_eq_false_iff] at h
  exact h.2

theorem fresh_renderChar (ch : Char) : Fresh (renderChar ch ++ rest) := by
  unfold renderChar
  split
  · exact fresh_cons (by decide) (by decide)
  · rename_i h
    have hspecial := Bool.eq_false_iff.mpr h
    exact fresh_cons (not_isQuantifier hspecial) fun heq => by rw [heq] at hspecial; cases hspecial

theorem fresh_test (t : CharTest CharClass) : Fresh (t.render ++ rest) := by
  cases t with
  | one ch => exact fresh_renderChar ch
  | notone | set => exact fresh_cons (by decide) (by decide)

theorem fresh_leaf (l : Leaf) (h : Fresh rest) : Fresh (l.render ++ rest) := by
  cases l with
  | test t => exact fresh_test t
  | span lazy t min max =>
    rw [Leaf.render, List.append_assoc]
    exact fresh_test t
  | multi cs =>
    cases cs with
    | nil => exact h
    | cons ch cs =>
      rw [Leaf.render, List.flatMap_cons, List.append_assoc]
      exact fresh_renderChar ch
  | ref | assertion => exact fresh_cons (by decide) (by decide)
  | nothing => exact h
  | empty => exact h

theorem fresh_branches (ns : List Node) (h : Fresh rest) : Fresh (Node.renderBranches ns ++ rest) := by
  cases ns with
  | nil => exact h
  | cons n ns => exact fresh_cons (by decide) (by decide)

/-- A tree's text keeps what follows it fresh. -/
theorem fresh_render (n : Node) (nested : Bool) (h : Fresh rest) : Fresh (n.render nested ++ rest) := by
  induction n generalizing nested rest with
  | leaf o l => exact fresh_leaf l h
  | wrap o w n ih =>
    cases w with
    | capture number uncapture =>
      rw [Node.render, Wrap.mark, List.append_assoc, List.append_assoc, List.append_assoc]
      exact (ih _ (fresh_cons (by decide) (by decide))).paren
    | _ => exact fresh_paren nofun
  | many o kind ns ih =>
    have hparts : Fresh (Node.renderParts ns ++ rest) := by
      clear kind
      induction ns with
      | nil => exact h
      | cons n ns ihns =>
        rw [Node.renderParts, List.append_assoc]
        exact ih n List.mem_cons_self _ (ihns fun m hm => ih m (List.mem_cons_of_mem _ hm))
    have hbranches : Fresh ((Node.renderBranches ns).tail ++ rest) := by
      cases ns with
      | nil => exact h
      | cons n ns =>
        rw [Node.renderBranches, List.tail_cons, List.append_assoc]
        exact ih n List.mem_cons_self _ (fresh_branches ns h)
    cases kind with
    | alternate =>
      cases nested with
      | true => exact fresh_paren nofun
      | false => exact hbranches
    | testref k => exact fresh_paren nofun
    | concatenate | group | testgroup => exact hparts

/-! ### Counts -/

/-- The bounds of a count, up to its closing brace. -/
theorem renderCount_eq (lazy : Bool) (min max : Nat) (rest : List Char) :
    renderCount lazy min max ++ rest =
      '\x7b' :: (renderNumber min ++
        ',' :: (renderMax max ++ '\x7d' :: ((if lazy then ['?'] else []) ++ rest))) := by
  simp [renderCount]

/-- What is written for the greater bound of a count. -/
def upperOf (max : Nat) : Upper := if max = unbounded then .none else .upTo (numeralOf max)

theorem text_upperOf (max : Nat) : (upperOf max).text = ',' :: renderMax max := by
  unfold upperOf renderMax
  split <;> rfl

theorem value_upperOf (hmax : max ≤ unbounded) :
    (upperOf max).value min = max ∧ ∀ n ∈ (upperOf max).numerals, n.value ≤ unbounded := by
  unfold upperOf
  split
  · rename_i h
    exact ⟨h.symm, List.forall_mem_nil _⟩
  · exact ⟨value_numeralOf max, by simpa [Upper.numerals, value_numeralOf] using hmax⟩

theorem startsQuantifier_count (lazy : Bool) (min max : Nat) (rest : List Char) :
    startsQuantifier (renderCount lazy min max ++ rest) = true := by
  have hcount := startsCount_written (numeralOf min) (upperOf max) ((if lazy then ['?'] else []) ++ rest)
  rw [text_upperOf] at hcount
  rw [renderCount_eq]
  exact hcount

/-- A count is read with its bounds. -/
theorem count?_count (hmin : min ≤ max) (hmax : max ≤ unbounded)
    (hc : c.rest = renderNumber min ++ ',' :: (renderMax max ++ '\x7d' :: cs)) :
    ∃ pos, c.count? = .ok (some (min, max, ⟨pos, cs⟩)) := by
  have htext : c.rest = (numeralOf min).digits ++ ((upperOf max).text ++ '\x7d' :: cs) := by
    rw [text_upperOf]
    exact hc
  obtain ⟨hvalue, hle⟩ := @value_upperOf min max hmax
  rcases count?_cases htext with ⟨⟨n, hn, hlt⟩, _⟩ | ⟨_, hread⟩
  · refine absurd (List.forall_mem_cons.mpr ⟨?_, hle⟩ n hn) (Nat.not_le.mpr hlt)
    rw [value_numeralOf]
    exact Nat.le_trans hmin hmax
  · rw [value_numeralOf, hvalue] at hread
    exact ⟨_, hread⟩

theorem bounds?_count {lazy : Bool} (hmin : min ≤ max) (hmax : max ≤ unbounded)
    (hc : c.rest = renderCount lazy min max ++ rest) :
    ∃ pos, c.bounds? = .ok (some (min, max, ⟨pos, (if lazy then ['?'] else []) ++ rest⟩)) := by
  rw [renderCount_eq] at hc
  rw [bounds?, hc]
  exact count?_count hmin hmax rfl

/-- The mark of a lazy quantifier. -/
theorem skipChar_lazy (lazy : Bool) (hfresh : Fresh rest)
    (hc : c.rest = (if lazy then ['?'] else []) ++ rest) :
    c.skipBlanks {} = .ok c ∧ (c.rest.head? == some '?') = lazy ∧ ∃ pos, c.skipChar '?' = ⟨pos, rest⟩ := by
  cases lazy with
  | true =>
    refine ⟨skipBlanks_none fun cs hcs => ?_, by rw [hc]; rfl, c.pos + 1, by rw [skipChar, hc]; rfl⟩
    rw [hc] at hcs
    cases hcs
  | false =>
    obtain rfl : c.rest = rest := hc
    refine ⟨hfresh.skipBlanks, by simpa using hfresh.head_ne, c.pos, ?_⟩
    unfold skipChar
    split
    · rfl
    · rename_i d rest hrest
      rw [if_neg fun heq => hfresh.head_ne (by rw [hrest, heq]; rfl)]

/-! ### Classes -/

theorem hexDigit?_digitChar {d : Nat} (h : d < 16) : hexDigit? d.digitChar = some d := by
  have hall : ∀ d : Fin 16, hexDigit? (d : Nat).digitChar = some (d : Nat) := by decide
  exact hall ⟨d, h⟩

theorem ofCode?_toNat (ch : Char) : Scalar.ofCode? ch.toNat = some ch := by
  have hvalid : ch.toNat.isValidChar := ch.valid
  rw [Scalar.ofCode?, if_pos hvalid, Char.ofNat_toNat]

/-- One hexadecimal digit. -/
theorem hexFrom_digit {left d : Nat} (hd : d < 16) (hc : c.rest = d.digitChar :: rest) :
    hexFrom (left + 1) n c = hexFrom left (16 * n + d) ⟨c.pos + 1, rest⟩ := by
  rw [hexFrom, hc]
  simp only [hexDigit?_digitChar hd]

/-- Four digits give back the character they were written for. -/
theorem hex_renderHex (hch : ch.toNat < 0x10000) (hc : c.rest = renderHex ch.toNat ++ rest) :
    c.hex 4 = .ok (ch, ⟨c.pos + 4, rest⟩) := by
  have hvalue : 16 * (16 * (16 * (16 * 0 + ch.toNat / 0x1000) + ch.toNat / 0x100 % 16) +
      ch.toNat / 0x10 % 16) + ch.toNat % 16 = ch.toNat := by omega
  have hlen : ¬ c.rest.length < 4 := by rw [hc]; simp [renderHex]
  have hread : hexFrom 4 0 c = .ok (ch.toNat, ⟨c.pos + 4, rest⟩) := by
    rw [hexFrom_digit (by omega) hc, hexFrom_digit (by omega) rfl, hexFrom_digit (by omega) rfl,
      hexFrom_digit (by omega) rfl, hvalue, hexFrom]
    rfl
  simp only [hex, if_neg hlen, hread, bind, Except.bind, ofCode?_toNat]

/-- A character that is written as it is, because its number is too high, is no mark. -/
theorem ne_of_high {d mark : Char} (hd : ¬ d.toNat < 0x10000) (hmark : mark.toNat < 0x10000) : d ≠ mark :=
  fun heq => hd (heq ▸ hmark)

/-- An end of a range is one member of a bracket. Unless it is escaped, it is neither a bracket nor
a dash. -/
theorem member_end (m : BracketMode) (level : CharClass.Level) (pending : Option Char) (first : Bool)
    {d ch : Char} {cs : List Char} (hend : renderEnd d = ch :: cs) (pos : Nat) (rest : List Char) :
    ∃ escaped pos',
      member m level pending first ch ⟨pos, cs ++ rest⟩ = .ok (.char d escaped, ⟨pos', rest⟩) ∧
        (escaped = false → d ≠ '[' ∧ d ≠ '-') := by
  unfold renderEnd at hend
  split at hend
  · rename_i hd
    cases hend
    have hread :
        charEscape ⟨pos, 'u' :: (renderHex d.toNat ++ rest)⟩ m.ecma = .ok (d, ⟨pos + 1 + 4, rest⟩) :=
      hex_renderHex (c := ⟨pos + 1, renderHex d.toNat ++ rest⟩) hd rfl
    refine ⟨true, pos + 1 + 4, ?_, nofun⟩
    show bracketEscape m level pending ⟨pos, 'u' :: (renderHex d.toNat ++ rest)⟩ 'u'
      ⟨pos + 1, renderHex d.toNat ++ rest⟩ = _
    unfold bracketEscape
    simp [Shorthand.ofEscape?, hread, bind, Except.bind]
  · rename_i hd
    cases hend
    have hbracket : ¬ (d = '[' ∧ pending = none) := fun h => ne_of_high hd (by decide) h.1
    refine ⟨false, pos, ?_, fun _ => ⟨ne_of_high hd (by decide), ne_of_high hd (by decide)⟩⟩
    rw [member, if_neg (ne_of_high hd (by decide)), if_neg (ne_of_high hd (by decide)), if_neg hbracket]
    rfl

theorem renderEnd_cons (d : Char) : ∃ ch cs, renderEnd d = ch :: cs ∧ ch ≠ '-' ∧ ch ≠ ']' ∧ ch ≠ '^' := by
  unfold renderEnd
  split
  · exact ⟨_, _, rfl, by decide, by decide, by decide⟩
  · rename_i hd
    exact ⟨_, _, rfl, ne_of_high hd (by decide), ne_of_high hd (by decide), ne_of_high hd (by decide)⟩

/-- A single character of a bracket. -/
theorem levelFrom_single (m : BracketMode) (rounds : Nat) (level : CharClass.Level) (first : Bool)
    {d : Char} (hc : c.rest = renderEnd d ++ rest) (hrest : startsRange rest = false) :
    ∃ pos, levelFrom m (rounds + 1) level none first c =
      levelFrom m rounds (level.addChar d) none false ⟨pos, rest⟩ := by
  obtain ⟨ch, cs, hend, _⟩ := renderEnd_cons d
  rw [hend] at hc
  obtain ⟨escaped, pos, hmember, hmark⟩ := member_end m level none first hend (c.pos + 1) rest
  refine ⟨pos, ?_⟩
  have hdash : ¬ (d = '-' ∧ escaped = false ∧ first = false ∧ rest.head? = some '[') :=
    fun h => (hmark h.2.1).2 h.1
  rw [levelFrom, hc]
  simp only [List.cons_append, hmember, bind, Except.bind, hrest, if_neg hdash]
  rfl

/-- A range in a bracket. -/
theorem levelFrom_pair (m : BracketMode) (rounds : Nat) (level : CharClass.Level) (first : Bool)
    {lo hi : Char} (hc : c.rest = renderEnd lo ++ '-' :: (renderEnd hi ++ rest))
    (hle : lo.toNat ≤ hi.toNat) :
    ∃ pos, levelFrom m (rounds + 2) level none first c =
      levelFrom m rounds (level.addRange ⟨lo, hi⟩) none false ⟨pos, rest⟩ := by
  obtain ⟨ch, cs, hend, _⟩ := renderEnd_cons lo
  obtain ⟨ch', cs', hend', _, hclose, _⟩ := renderEnd_cons hi
  rw [hend] at hc
  obtain ⟨escaped, pos, hmember, _⟩ :=
    member_end m level none first hend (c.pos + 1) ('-' :: (renderEnd hi ++ rest))
  obtain ⟨escaped', pos', hmember', hmark⟩ := member_end m level (some lo) false hend' (pos + 1 + 1) rest
  have hstarts : startsRange ('-' :: (renderEnd hi ++ rest)) = true := by
    rw [hend']
    simpa [startsRange] using hclose
  have hinner : ¬ (hi = '[' ∧ escaped' = false ∧ True) := fun h => (hmark h.2.1).1 h.1
  have hadd : ∀ c : Cursor, c.addRange level lo hi = .ok (level.addRange ⟨lo, hi⟩) :=
    fun c => if_neg (Scalar.not_lt_iff.mpr hle)
  refine ⟨pos', ?_⟩
  rw [levelFrom, hc]
  simp only [List.cons_append, hmember, bind, Except.bind, hstarts, if_true]
  rw [levelFrom]
  simp only [skipOne, hend', List.cons_append, hmember', bind, Except.bind]
  rw [if_neg hinner, hadd]

/-- A range as it is spelled in a bracket: by its only character, or by its two ends. -/
inductive SpelledAs : CharRange → List Char → Prop
  | single (d : Char) : SpelledAs (.single d) (renderEnd d)
  | pair {lo hi : Char} (h : lo.toNat ≤ hi.toNat) : SpelledAs ⟨lo, hi⟩ (renderEnd lo ++ '-' :: renderEnd hi)

theorem spelledAs_render {r : CharRange} (h : r.Proper) : SpelledAs r r.render := by
  obtain ⟨lo, hi⟩ := r
  unfold CharRange.render
  split
  · rename_i heq
    obtain rfl : lo = hi := heq
    exact .single lo
  · exact .pair h

section Spelled

variable {r : CharRange} {text : List Char}

theorem SpelledAs.cons (h : SpelledAs r text) : ∃ ch cs, text = ch :: cs ∧ ch ≠ '-' ∧ ch ≠ '^' := by
  cases h with
  | single d =>
    obtain ⟨ch, cs, hend, hdash, _, hcaret⟩ := renderEnd_cons d
    exact ⟨ch, cs, hend, hdash, hcaret⟩
  | @pair lo hi =>
    obtain ⟨ch, cs, hend, hdash, _, hcaret⟩ := renderEnd_cons lo
    exact ⟨ch, cs ++ '-' :: renderEnd hi, by rw [hend, List.cons_append], hdash, hcaret⟩

theorem SpelledAs.startsRange (h : SpelledAs r text) : startsRange (text ++ rest) = false := by
  obtain ⟨ch, cs, rfl, hdash, _⟩ := h.cons
  simp [Cursor.startsRange, hdash]

/-- A range that no further dash follows. -/
theorem SpelledAs.levelFrom (h : SpelledAs r text) (m : BracketMode) (level : CharClass.Level) (first : Bool)
    {rounds : Nat} (hc : c.rest = text ++ rest) (hrest : Cursor.startsRange rest = false)
    (hrounds : c.rest.length < rounds) :
    ∃ k pos, rest.length < k ∧ levelFrom m rounds level none first c =
      levelFrom m k (level.addRange r) none false ⟨pos, rest⟩ := by
  rw [hc, List.length_append] at hrounds
  cases h with
  | single d =>
    obtain ⟨ch, cs, hend, _⟩ := renderEnd_cons d
    rw [hend, List.length_cons] at hrounds
    obtain ⟨k, rfl⟩ : ∃ k, rounds = k + 1 := ⟨rounds - 1, by omega⟩
    obtain ⟨pos, hstep⟩ := levelFrom_single m k level first hc hrest
    exact ⟨k, pos, by omega, hstep⟩
  | @pair lo hi hle =>
    obtain ⟨ch, cs, hend, _⟩ := renderEnd_cons lo
    rw [hend, List.length_append, List.length_cons, List.length_cons] at hrounds
    rw [List.append_assoc, List.cons_append] at hc
    obtain ⟨k, rfl⟩ : ∃ k, rounds = k + 2 := ⟨rounds - 2, by omega⟩
    obtain ⟨pos, hstep⟩ := levelFrom_pair m k level first hc hle
    exact ⟨k, pos, by omega, hstep⟩

/-- The last range before a subtraction. After a single character the dash looks like that of
another range. -/
theorem SpelledAs.levelFrom_subtraction (h : SpelledAs r text) (m : BracketMode) (level : CharClass.Level)
    (first : Bool) {rounds : Nat} (hc : c.rest = text ++ '-' :: '[' :: rest) (hrounds : c.rest.length < rounds) :
    ∃ pos, Cursor.levelFrom m rounds level none first c = .ok (level.addRange r, .subtraction, ⟨pos, rest⟩) := by
  rw [hc, List.length_append, List.length_cons, List.length_cons] at hrounds
  cases h with
  | single d =>
    obtain ⟨ch, cs, hend, _⟩ := renderEnd_cons d
    rw [hend] at hc
    obtain ⟨escaped, pos, hmember, _⟩ := member_end m level none first hend (c.pos + 1) ('-' :: '[' :: rest)
    obtain ⟨k, rfl⟩ : ∃ k, rounds = k + 2 := ⟨rounds - 2, by omega⟩
    have hstarts : Cursor.startsRange ('-' :: '[' :: rest) = true := rfl
    refine ⟨pos + 1 + 1, ?_⟩
    rw [Cursor.levelFrom, hc]
    simp only [List.cons_append, hmember, bind, Except.bind, hstarts, if_true]
    rfl
  | @pair lo hi hle =>
    rw [List.append_assoc, List.cons_append] at hc
    obtain ⟨k, rfl⟩ : ∃ k, rounds = k + 1 + 2 := ⟨rounds - 3, by omega⟩
    obtain ⟨pos, hstep⟩ := levelFrom_pair m (k + 1) level first hc hle
    exact ⟨pos + 1 + 1, hstep⟩

end Spelled

section Levels

variable {α : Type} {range : α → CharRange} {text : α → List Char} {as : List α}

/-- Ranges of a bracket, up to something that no dash makes part of them. -/
theorem levelFrom_ranges (m : BracketMode) (level : CharClass.Level) (first : Bool)
    (has : ∀ a ∈ as, SpelledAs (range a) (text a)) {rounds : Nat} (hc : c.rest = as.flatMap text ++ rest)
    (hrest : startsRange rest = false) (hrounds : c.rest.length < rounds) :
    ∃ k pos, rest.length < k ∧ levelFrom m rounds level none first c =
      levelFrom m k { level with ranges := level.ranges ++ as.map range } none (first && as.isEmpty)
        ⟨pos, rest⟩ := by
  induction as generalizing c rounds level first with
  | nil =>
    obtain ⟨pos, cs⟩ := c
    obtain rfl : cs = rest := hc
    exact ⟨rounds, pos, hrounds, by simp⟩
  | cons a as ih =>
    obtain ⟨hspelled, has⟩ := List.forall_mem_cons.mp has
    rw [List.flatMap_cons, List.append_assoc] at hc
    have hnext : startsRange (as.flatMap text ++ rest) = false := by
      cases as with
      | nil => exact hrest
      | cons b as =>
        rw [List.flatMap_cons, List.append_assoc]
        exact (has b List.mem_cons_self).startsRange
    obtain ⟨k, pos, hk, hstep⟩ := hspelled.levelFrom m level first hc hnext hrounds
    obtain ⟨k', pos', hk', hrun⟩ := ih (c := ⟨pos, _⟩) (level.addRange (range a)) false has rfl hk
    refine ⟨k', pos', hk', hstep.trans (hrun.trans ?_)⟩
    simp [CharClass.Level.addRange]

/-- What is written where a level ends. -/
def LevelEnd.mark : LevelEnd → List Char
  | .closed => [']']
  | .subtraction => ['-', '[']

/-- All ranges of a level. -/
theorem levelFrom_end (m : BracketMode) (level : CharClass.Level) (stop : LevelEnd)
    (has : ∀ a ∈ as, SpelledAs (range a) (text a)) (hne : as ≠ []) {rounds : Nat}
    (hc : c.rest = as.flatMap text ++ (stop.mark ++ rest)) (hrounds : c.rest.length < rounds) :
    ∃ pos, levelFrom m rounds level none true c =
      .ok ({ level with ranges := level.ranges ++ as.map range }, stop, ⟨pos, rest⟩) := by
  cases stop with
  | closed =>
    obtain ⟨k, pos, hk, hrun⟩ := levelFrom_ranges m level true has hc rfl hrounds
    obtain ⟨k, rfl⟩ : ∃ j, k = j + 1 := ⟨k - 1, by omega⟩
    have hfirst : (true && as.isEmpty) = false := by simpa using hne
    rw [hrun, hfirst]
    exact ⟨pos + 1, rfl⟩
  | subtraction =>
    obtain ⟨init, last, rfl⟩ : ∃ init last, as = init ++ [last] := ⟨_, _, (List.dropLast_concat_getLast hne).symm⟩
    have hlast := has last (by simp)
    have hsplit : c.rest = init.flatMap text ++ (text last ++ '-' :: '[' :: rest) := by
      simpa [LevelEnd.mark] using hc
    obtain ⟨k, pos, hk, hrun⟩ := levelFrom_ranges m level true
      (fun a ha => has a (List.mem_append_left _ ha)) hsplit hlast.startsRange hrounds
    obtain ⟨pos', hend⟩ := hlast.levelFrom_subtraction m
      { level with ranges := level.ranges ++ init.map range } (true && init.isEmpty) (c := ⟨pos, _⟩) rfl hk
    refine ⟨pos', hrun.trans (hend.trans ?_)⟩
    simp [CharClass.Level.addRange]

/-- Whether a level is negated, and where its ranges begin. -/
theorem skipChar_caret (negated : Bool) (has : ∀ a ∈ as, SpelledAs (range a) (text a)) (hne : as ≠ [])
    (hc : c.rest = (if negated then ['^'] else []) ++ (as.flatMap text ++ rest)) :
    (c.rest.head? == some '^') = negated ∧ ∃ pos, c.skipChar '^' = ⟨pos, as.flatMap text ++ rest⟩ := by
  cases negated with
  | true =>
    rw [skipChar, hc]
    exact ⟨rfl, _, rfl⟩
  | false =>
    obtain ⟨a, as, rfl⟩ := List.exists_cons_of_ne_nil hne
    obtain ⟨ch, cs, hrender, _, hcaret⟩ := (has a List.mem_cons_self).cons
    rw [if_neg nofun, List.nil_append] at hc
    have hhead : c.rest = ch :: (cs ++ (as.flatMap text ++ rest)) := by
      rw [hc, List.flatMap_cons, hrender, List.append_assoc, List.cons_append]
    refine ⟨by rw [hhead]; simpa using hcaret, c.pos, ?_⟩
    rw [skipChar, hhead]
    show (if ch = '^' then _ else c) = _
    rw [if_neg hcaret, ← hc]

/-- The ranges of a level as they count in a class. -/
def BracketMode.ranges (m : BracketMode) (rs : List CharRange) : List CharRange :=
  rs ++ if m.ignoreCase then m.culture.lowerImage rs else []

/-- A level that is written as ranges, negated or not. -/
theorem level_ranges (m : BracketMode) (negated : Bool) (stop : LevelEnd)
    (has : ∀ a ∈ as, SpelledAs (range a) (text a)) (hne : as ≠ [])
    (hc : c.rest = (if negated then ['^'] else []) ++ (as.flatMap text ++ (stop.mark ++ rest))) :
    ∃ pos, level m c = .ok (⟨m.ranges (as.map range), [], negated⟩, stop, ⟨pos, rest⟩) := by
  obtain ⟨hnegated, pos, hskip⟩ := skipChar_caret negated has hne hc
  obtain ⟨pos', hread⟩ := levelFrom_end (c := c.skipChar '^') m
    (if negated then CharClass.Level.negate {} else {}) stop has hne (by rw [hskip]) (Nat.lt_succ_self _)
  refine ⟨pos', ?_⟩
  simp only [level, hnegated, hread, bind, Except.bind, BracketMode.ranges]
  cases negated <;> cases m.ignoreCase <;> simp [CharClass.Level.addLowercase, CharClass.Level.negate]

end Levels

/-- A class that is written as ranges, negated or not. -/
theorem bracket_ranges (hm : m.ignoreCase = false) (negated : Bool) (rs : List CharRange)
    (hrs : ∀ r ∈ rs, r.Proper) (hne : rs ≠ [])
    (hc : c.rest = (if negated then ['^'] else []) ++ (rs.flatMap CharRange.render ++ ']' :: rest)) :
    ∃ pos, c.bracket m = .ok (CharClass.Level.resolve ⟨rs, [], negated⟩, ⟨pos, rest⟩) := by
  have hspelled : ∀ r ∈ rs, SpelledAs (id r) r.render := fun r hr => spelledAs_render (hrs r hr)
  obtain ⟨pos, hlevel⟩ := level_ranges m negated .closed hspelled hne hc
  have hranges : m.ranges (rs.map id) = rs := by simp [BracketMode.ranges, hm]
  rw [hranges] at hlevel
  refine ⟨pos, ?_⟩
  simp only [bracket, levelsFrom, hlevel, bind, Except.bind]
  rfl

theorem bracket_set (hm : m.ignoreCase = false) {k : CharClass}
    (hk : (CharTest.set k).Normal) (hc : c.rest = k.ranges.toList.flatMap CharRange.render ++ ']' :: rest) :
    ∃ pos, c.bracket m = .ok (k, ⟨pos, rest⟩) := by
  obtain ⟨hascending, hempty, _⟩ := hk
  have hne : k.ranges.toList ≠ [] := by simpa [CharClass.isEmpty] using hempty
  obtain ⟨pos, hread⟩ := bracket_ranges hm false _ hascending.proper hne hc
  refine ⟨pos, hread.trans ?_⟩
  have hresolve : CharClass.Level.resolve ⟨k.ranges.toList, [], false⟩ =
      CharClass.ofRanges (k.ranges.toList ++ []) := rfl
  rw [hresolve, List.append_nil, CharClass.ofRanges_of_ascending hascending]

theorem bracket_notone (hm : m.ignoreCase = false)
    (hc : c.rest = '^' :: ((CharRange.single ch).render ++ ']' :: rest)) :
    ∃ pos, c.bracket m = .ok ((CharClass.ofRanges [.single ch]).complement, ⟨pos, rest⟩) :=
  bracket_ranges hm true [.single ch] (by simp [CharRange.Proper, CharRange.single]) (by simp)
    (by simpa using hc)

theorem simplifyTest_set {k : CharClass} (hk : (CharTest.set k).Normal) :
    Node.simplifyTest (.set k) = .set k := by
  obtain ⟨_, _, hsingleton, hmissing⟩ := hk
  simp only [Node.simplifyTest, hsingleton, hmissing]

theorem simplifyTest_notone (ch : Char) :
    Node.simplifyTest (.set (CharClass.ofRanges [.single ch]).complement) = .notone ch := by
  obtain ⟨hsingleton, hmissing⟩ := CharClass.missing?_complement_single ch
  simp only [Node.simplifyTest, hsingleton, hmissing]

/-! ### Escapes -/

/-- The characters that are written with a backslash. -/
theorem mem_of_isSpecial (h : isSpecial ch = true) :
    ch ∈ ['\\', '[', '(', ')', '|', '^', '$', '.', '\x7b', '*', '+', '?'] := by
  simpa [isSpecial, isQuantifier, or_assoc] using h

theorem backslash_special (e : Setting) (hch : isSpecial ch = true) (hc : c.rest = ch :: rest) :
    c.backslash e {} = .ok (.test (.one ch), ⟨c.pos + 1, rest⟩) := by
  have hmem := mem_of_isSpecial hch
  obtain ⟨pos, cs⟩ := c
  obtain rfl : cs = ch :: rest := hc
  simp only [List.mem_cons, List.not_mem_nil, or_false] at hmem
  rcases hmem with rfl | rfl | rfl | rfl | rfl | rfl | rfl | rfl | rfl | rfl | rfl | rfl <;> rfl

theorem backslash_assertion (e : Setting) {a : Assertion} (ha : a.letter? = some ch)
    (hc : c.rest = ch :: rest) : c.backslash e {} = .ok (.assertion a, ⟨c.pos + 1, rest⟩) := by
  rw [backslash, hc]
  cases a <;> cases ha <;> rfl

/-- A number up to its closing mark is a reference, if there is such a group. -/
theorem enclosedReference?_number (close : Char) (hclose : close.isDigit = false)
    (hn : n ≤ unbounded) (ht : t.contains n = true) (hc : c.rest = renderNumber n ++ close :: rest) :
    ∃ pos, enclosedReference? t close c = .ok (some (n, ⟨pos, rest⟩)) := by
  obtain ⟨d, ds, hds, hdigit⟩ := renderNumber_cons n
  have hread := decimal_number hn (by simpa using hclose) hc
  rw [hds] at hc
  refine ⟨c.pos + (renderNumber n).length + 1, ?_⟩
  simp [enclosedReference?, hc, hdigit, hread, bind, Except.bind, ht]

theorem backslash_reference {e : Setting} (hn : n ≤ unbounded) (ht : e.table.contains n = true)
    (hc : c.rest = 'k' :: '<' :: (renderNumber n ++ '>' :: rest)) :
    ∃ pos, c.backslash e {} = .ok (.ref n, ⟨pos, rest⟩) := by
  obtain ⟨pos, hread⟩ :=
    enclosedReference?_number (c := ⟨c.pos + 2, renderNumber n ++ '>' :: rest⟩) '>' (by decide) hn ht rfl
  have hreference : reference? e.table false c = .ok (some (n, ⟨pos, rest⟩)) := by
    rw [reference?, hc]
    show (if (renderNumber n ++ '>' :: rest).isEmpty then _ else enclosedReference? e.table '>' _) = _
    rw [if_neg (by simp), hread]
  refine ⟨pos, ?_⟩
  rw [backslash, hc]
  show referenceOrChar e {} c = _
  simp only [referenceOrChar, hreference, bind, Except.bind]

/-! ### Openings -/

theorem conditionReference?_number (hn : n ≤ unbounded)
    (ht : t.contains n = true) (hc : c.rest = renderNumber n ++ ')' :: rest) :
    ∃ pos, c.conditionReference? t = .ok (some (n, ⟨pos, rest⟩)) := by
  obtain ⟨d, ds, hds, hdigit⟩ := renderNumber_cons n
  have hread := decimal_number hn (by simp) hc
  rw [hds] at hc
  refine ⟨c.pos + (renderNumber n).length + 1, ?_⟩
  simp [conditionReference?, hc, hdigit, hread, bind, Except.bind, ht]

/-- The marks of the groups that have one. -/
def groupMarks : List (Char × GroupKind) :=
  [(':', .plain), ('=', .require), ('!', .prevent), ('>', .greedy)]

theorem opening?_mark (t : GroupTable) {mark : Char} {kind : GroupKind} (h : (mark, kind) ∈ groupMarks)
    (hc : c.rest = '?' :: mark :: rest) :
    c.opening? t {} = .ok (some { kind := some kind, options := {}, cursor := ⟨c.pos + 2, rest⟩ }) := by
  simp only [groupMarks, List.mem_cons, Prod.mk.injEq, List.not_mem_nil, or_false] at h
  rw [opening?, hc]
  rcases h with ⟨rfl, rfl⟩ | ⟨rfl, rfl⟩ | ⟨rfl, rfl⟩ | ⟨rfl, rfl⟩ <;> rfl

theorem opening?_condition (hn : n ≤ unbounded) (ht : t.contains n = true)
    (hc : c.rest = '?' :: '(' :: (renderNumber n ++ ')' :: rest)) :
    ∃ pos, c.opening? t {} =
      .ok (some { kind := some (.testref n), options := {}, cursor := ⟨pos, rest⟩ }) := by
  obtain ⟨pos, hread⟩ :=
    conditionReference?_number (c := ⟨c.pos + 2, renderNumber n ++ ')' :: rest⟩) hn ht rfl
  have hcondition : condition t {} ⟨c.pos + 1, '(' :: (renderNumber n ++ ')' :: rest)⟩ =
      .ok { kind := some (.testref n), options := {}, cursor := ⟨pos, rest⟩ } := by
    simp only [condition, skipOne, hread, bind, Except.bind]
  refine ⟨pos, ?_⟩
  rw [opening?, hc]
  show (do .ok (some (← condition t {} _))) = _
  rw [hcondition]
  rfl

theorem opening?_unmarked (t : GroupTable) (o : Options) (h : c.rest.head? ≠ some '?') :
    c.opening? t o = .ok none := by
  unfold opening?
  split
  · rfl
  · rename_i hc
    rw [hc] at h
    exact absurd rfl h
  · rfl

end Cursor
end PatternCompiler
