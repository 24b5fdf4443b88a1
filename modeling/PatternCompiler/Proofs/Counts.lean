import PatternCompiler.Pattern.Parse
import Mathlib

/-! Numerals, and counts in braces.

The reader looks ahead before it takes an opening brace for a quantifier, and then reads the count once
more, number by number. `Reader.quantifier_braces` says that both agree: the look-ahead accepts the
written counts and nothing else, and an accepted count is read up to its closing brace, with the numbers
that stand there, or refused because one of them is too great. So it never turns out to be none. -/
namespace PatternCompiler

/-! ### Numerals -/

/-- A number as it is written. -/
structure Numeral where
  digits : List Char
  nonempty : digits ≠ []
  all : ∀ d ∈ digits, d.isDigit = true

def Numeral.value (n : Numeral) : Nat := Nat.ofDigitChars 10 n.digits 0

namespace Cursor

variable {c : Cursor} {rest : List Char}

theorem le_ofDigitChars (ds : List Char) (n : Nat) : n ≤ Nat.ofDigitChars 10 ds n := by
  rw [Nat.ofDigitChars_eq_ofDigitChars_zero]
  have hpow : 1 ≤ 10 ^ ds.length := Nat.one_le_pow _ _ (by decide)
  calc n = 1 * n := (Nat.one_mul n).symm
    _ ≤ 10 ^ ds.length * n := Nat.mul_le_mul_right n hpow
    _ ≤ _ := Nat.le_add_right _ _

theorem decimalFrom_digits {ds : List Char} (hds : ∀ d ∈ ds, d.isDigit = true)
    (hrest : ∀ d ∈ rest.head?, d.isDigit = false) (n pos : Nat)
    (hn : Nat.ofDigitChars 10 ds n ≤ unbounded) :
    decimalFrom n pos (ds ++ rest) = .ok (Nat.ofDigitChars 10 ds n, ⟨pos + ds.length, rest⟩) := by
  induction ds generalizing n pos with
  | nil =>
    cases rest with
    | nil => rfl
    | cons d rest =>
      rw [List.nil_append, decimalFrom, hrest d rfl]
      rfl
  | cons d ds ih =>
    rw [Nat.ofDigitChars_cons] at hn
    have hnext : 10 * n + digit d ≤ unbounded := Nat.le_trans (le_ofDigitChars ds _) hn
    rw [List.cons_append, decimalFrom, if_pos (hds d List.mem_cons_self)]
    simp only [if_pos hnext]
    rw [ih (fun e he => hds e (List.mem_cons_of_mem _ he)) (10 * n + digit d) _ hn, Nat.ofDigitChars_cons,
      List.length_cons, Nat.add_right_comm]
    rfl

theorem decimalFrom_overflow {ds : List Char} (hds : ∀ d ∈ ds, d.isDigit = true) (n pos : Nat) (hn : n ≤ unbounded)
    (hover : unbounded < Nat.ofDigitChars 10 ds n) :
    ∃ offset, decimalFrom n pos (ds ++ rest) = .error ⟨.captureNumberOverflow, offset⟩ := by
  induction ds generalizing n pos with
  | nil => exact absurd hover (Nat.not_lt.mpr hn)
  | cons d ds ih =>
    rw [Nat.ofDigitChars_cons] at hover
    rw [List.cons_append, decimalFrom, if_pos (hds d List.mem_cons_self)]
    dsimp only
    by_cases hnext : 10 * n + digit d ≤ unbounded
    · rw [if_pos hnext]
      exact ih (fun e he => hds e (List.mem_cons_of_mem _ he)) _ _ hnext hover
    · rw [if_neg hnext]
      exact ⟨_, rfl⟩

/-- A numeral is read up to the first character that is no digit, unless it is too great. -/
theorem decimal_cases (n : Numeral) (hrest : ∀ d ∈ rest.head?, d.isDigit = false)
    (hc : c.rest = n.digits ++ rest) :
    (unbounded < n.value ∧ ∃ offset, c.decimal = .error ⟨.captureNumberOverflow, offset⟩) ∨
    (n.value ≤ unbounded ∧ c.decimal = .ok (n.value, ⟨c.pos + n.digits.length, rest⟩)) := by
  rw [decimal, hc]
  rcases Nat.lt_or_ge unbounded n.value with hlt | hle
  · exact .inl ⟨hlt, decimalFrom_overflow n.all 0 c.pos (Nat.zero_le _) hlt⟩
  · exact .inr ⟨hle, decimalFrom_digits n.all hrest 0 c.pos hle⟩

theorem takeWhile_numeral (n : Numeral) (hrest : ∀ d ∈ rest.head?, d.isDigit = false) :
    (n.digits ++ rest).takeWhile Char.isDigit = n.digits := by
  rw [List.takeWhile_append_of_pos n.all]
  cases rest with
  | nil => simp
  | cons d rest => simp [hrest d rfl]

theorem dropWhile_numeral (n : Numeral) (hrest : ∀ d ∈ rest.head?, d.isDigit = false) :
    (n.digits ++ rest).dropWhile Char.isDigit = rest := by
  rw [List.dropWhile_append_of_pos n.all]
  cases rest with
  | nil => rfl
  | cons d rest => simp [hrest d rfl]

theorem exists_numeral {cs : List Char} (h : cs.takeWhile Char.isDigit ≠ []) :
    ∃ n : Numeral, cs = n.digits ++ cs.dropWhile Char.isDigit :=
  ⟨⟨cs.takeWhile Char.isDigit, h, fun _ => List.mem_takeWhile_imp⟩, List.takeWhile_append_dropWhile.symm⟩

end Cursor

/-! ### Counts -/

/-- The greater bound of a count. -/
inductive Upper where
  /-- The lesser one alone, which is both. -/
  | same
  | none
  | upTo (n : Numeral)

namespace Upper

def text : Upper → List Char
  | same => []
  | none => [',']
  | upTo n => ',' :: n.digits

def numerals : Upper → List Numeral
  | upTo n => [n]
  | _ => []

/-- The number, where the lesser bound is `low`. -/
def value (low : Nat) : Upper → Nat
  | same => low
  | none => unbounded
  | upTo n => n.value

end Upper

def countText (min : Numeral) (max : Upper) : List Char := '\x7b' :: (min.digits ++ (max.text ++ ['\x7d']))

namespace Cursor

variable {c : Cursor} {rest : List Char} {min : Numeral} {max : Upper}

/-- After the lesser bound of a count there is no digit. -/
theorem head_upper (max : Upper) (rest : List Char) :
    ∀ d ∈ (max.text ++ '\x7d' :: rest).head?, d.isDigit = false := by
  cases max <;> simp [Upper.text]

theorem startsCount_written (min : Numeral) (max : Upper) (rest : List Char) :
    startsCount (min.digits ++ (max.text ++ '\x7d' :: rest)) = true := by
  have hdigits : min.digits.isEmpty = false := by simpa using min.nonempty
  rw [startsCount, takeWhile_numeral min (head_upper max rest), List.drop_left, hdigits]
  cases max with
  | same => rfl
  | none => rfl
  | upTo n =>
    have hmax : (n.digits ++ '\x7d' :: rest).dropWhile Char.isDigit = '\x7d' :: rest :=
      dropWhile_numeral n (by simp)
    simp [Upper.text, hmax]

/-- What begins like a count is written as one. -/
theorem exists_of_startsCount {cs : List Char} (h : startsCount cs = true) :
    ∃ (min : Numeral) (max : Upper) (rest : List Char), cs = min.digits ++ (max.text ++ '\x7d' :: rest) := by
  have hdrop : cs.drop (cs.takeWhile Char.isDigit).length = cs.dropWhile Char.isDigit := by
    calc cs.drop (cs.takeWhile Char.isDigit).length
        = (cs.takeWhile Char.isDigit ++ cs.dropWhile Char.isDigit).drop (cs.takeWhile Char.isDigit).length := by
          rw [List.takeWhile_append_dropWhile]
      _ = cs.dropWhile Char.isDigit := List.drop_left
  unfold startsCount at h
  dsimp only at h
  rw [hdrop] at h
  split at h
  · cases h
  rename_i hdigits
  obtain ⟨min, hmin⟩ := @exists_numeral cs (by simpa using hdigits)
  rw [hmin]
  split at h
  · rename_i rest hrest
    rw [hrest]
    exact ⟨min, .same, rest, rfl⟩
  · rename_i rest hrest
    obtain ⟨after, hafter⟩ := List.head?_eq_some_iff.mp (beq_iff_eq.mp h)
    rw [hrest]
    -- Without a digit after the comma the closing brace is next.
    by_cases hnone : rest.takeWhile Char.isDigit = []
    · have hsplit := List.takeWhile_append_dropWhile (p := Char.isDigit) (l := rest)
      rw [hnone, hafter, List.nil_append] at hsplit
      rw [← hsplit]
      exact ⟨min, .none, after, rfl⟩
    · obtain ⟨max, hmax⟩ := exists_numeral hnone
      rw [hmax, hafter]
      exact ⟨min, .upTo max, after, rfl⟩
  · cases h

theorem countMax_cases {start low : Nat} (max : Upper) (hstart : start < c.pos)
    (hc : c.rest = max.text ++ '\x7d' :: rest) :
    ((∃ n ∈ max.numerals, unbounded < n.value) ∧
      ∃ offset, countMax start low c = .error ⟨.captureNumberOverflow, offset⟩) ∨
    ((∀ n ∈ max.numerals, n.value ≤ unbounded) ∧
      countMax start low c = .ok (max.value low, ⟨c.pos + max.text.length, '\x7d' :: rest⟩)) := by
  cases max with
  | same =>
    obtain ⟨pos, cs⟩ := c
    cases hc
    rw [countMax, if_pos hstart]
    exact .inr ⟨List.forall_mem_nil _, rfl⟩
  | none =>
    rw [countMax, if_pos hstart, hc]
    exact .inr ⟨List.forall_mem_nil _, rfl⟩
  | upTo n =>
    -- A digit is no closing brace, so that what is after the comma is read as a number.
    obtain ⟨d, ds, hds⟩ := List.exists_cons_of_ne_nil n.nonempty
    have hdigit : d.isDigit = true := n.all d (by simp [hds])
    have hbrace : d ≠ '\x7d' := fun heq => by rw [heq] at hdigit; cases hdigit
    have hmax : countMax start low c = decimal ⟨c.pos + 1, n.digits ++ '\x7d' :: rest⟩ := by
      rw [countMax, if_pos hstart, hc, Upper.text, hds]
      simp [hbrace]
    rw [hmax]
    rcases @decimal_cases ⟨c.pos + 1, n.digits ++ '\x7d' :: rest⟩ ('\x7d' :: rest) n (by simp) rfl with
      ⟨hlt, hread⟩ | ⟨hle, hread⟩
    · exact .inl ⟨⟨n, List.mem_singleton_self n, hlt⟩, hread⟩
    · refine .inr ⟨by simpa [Upper.numerals] using hle, ?_⟩
      rw [hread, Upper.text, List.length_cons, Nat.add_right_comm]
      rfl

/-- A count is read up to its closing brace, unless a number is too great. -/
theorem count?_cases (hc : c.rest = min.digits ++ (max.text ++ '\x7d' :: rest)) :
    ((∃ n ∈ min :: max.numerals, unbounded < n.value) ∧
      ∃ offset, c.count? = .error ⟨.captureNumberOverflow, offset⟩) ∨
    ((∀ n ∈ min :: max.numerals, n.value ≤ unbounded) ∧
      c.count? = .ok (some (min.value, max.value min.value,
        ⟨c.pos + min.digits.length + max.text.length + 1, rest⟩))) := by
  -- The reader goes back if it is still at the beginning, but a digit is behind it.
  have hlen : 0 < min.digits.length := List.length_pos_iff.mpr min.nonempty
  rcases decimal_cases min (head_upper max rest) hc with ⟨hlt, offset, hmin⟩ | ⟨hle, hmin⟩
  · refine .inl ⟨⟨min, List.mem_cons_self, hlt⟩, offset, ?_⟩
    rw [count?, hmin]
    rfl
  rcases @countMax_cases ⟨c.pos + min.digits.length, max.text ++ '\x7d' :: rest⟩ rest c.pos min.value max
    (Nat.lt_add_of_pos_right hlen) rfl with ⟨⟨n, hn, hlt⟩, offset, hmax⟩ | ⟨hle', hmax⟩
  · refine .inl ⟨⟨n, List.mem_cons_of_mem _ hn, hlt⟩, offset, ?_⟩
    simp only [count?, hmin, hmax, bind, Except.bind]
  · refine .inr ⟨List.forall_mem_cons.mpr ⟨hle, hle'⟩, ?_⟩
    simp only [count?, hmin, hmax, bind, Except.bind]
    rw [if_neg (by omega)]

theorem startsQuantifier_iff (hc : c.rest.head? = some '\x7b') :
    startsQuantifier c.rest = true ↔ ∃ min max, countText min max <+: c.rest := by
  obtain ⟨rest, hrest⟩ := List.head?_eq_some_iff.mp hc
  rw [hrest]
  constructor
  · intro hstarts
    obtain ⟨min, max, after, rfl⟩ := exists_of_startsCount hstarts
    exact ⟨min, max, after, by simp [countText]⟩
  · rintro ⟨min, max, after, htext⟩
    have hcount : rest = min.digits ++ (max.text ++ '\x7d' :: after) := by
      simpa [countText] using htext.symm
    rw [hcount]
    exact startsCount_written min max after

theorem bounds?_cases (hc : countText min max <+: c.rest) :
    ((∃ n ∈ min :: max.numerals, unbounded < n.value) ∧
      ∃ offset, c.bounds? = .error ⟨.captureNumberOverflow, offset⟩) ∨
    ((∀ n ∈ min :: max.numerals, n.value ≤ unbounded) ∧
      c.bounds? = .ok (some (min.value, max.value min.value, c.drop (countText min max).length))) := by
  obtain ⟨after, hafter⟩ := hc
  have hrest : c.rest = '\x7b' :: (min.digits ++ (max.text ++ '\x7d' :: after)) := by
    simpa [countText] using hafter.symm
  have hbounds : c.bounds? = count? ⟨c.pos + 1, min.digits ++ (max.text ++ '\x7d' :: after)⟩ := by
    rw [bounds?, hrest]
    rfl
  have hdrop : c.drop (countText min max).length =
      ⟨c.pos + 1 + min.digits.length + max.text.length + 1, after⟩ := by
    rw [drop, ← hafter, List.drop_left]
    simp only [countText, List.length_cons, List.length_append, List.length_nil]
    congr 1
    omega
  rw [hbounds, hdrop]
  exact count?_cases rfl

end Cursor

namespace Reader

/-- The last part gets the bounds that were read up to `c`. -/
def quantified (r : Reader) (min max : Nat) (c : Cursor) : Except Problem Reader :=
  c.skipBlanks r.options >>= fun c =>
    if max < min then (c.skipChar '?').fail .reversedQuantifierRange
    else .ok { r.placeQuantified (c.rest.head? == some '?') min max with
      cursor := c.skipChar '?', afterQuantifier := true }

theorem quantifier_eq {r : Reader} {c : Cursor} (hblanks : r.cursor.skipBlanks r.options = .ok c)
    (hstarts : Cursor.startsQuantifier c.rest = true) :
    r.quantifier = c.bounds? >>= fun b =>
      b.elim (.ok { r.place with cursor := c, afterQuantifier := true }) fun b => r.quantified b.1 b.2.1 b.2.2 := by
  rw [quantifier, hblanks]
  dsimp only [bind, Except.bind]
  rw [if_pos hstarts]
  cases c.bounds? with
  | error p => rfl
  | ok b => cases b <;> rfl

/-- **The look-ahead for braces and their reading agree.** A brace is taken for a quantifier where a count
is written. Either one of its numerals is too great, and the reader fails for that cause, or the bounds are
what the numerals say and the reader goes on right after the closing brace. -/
theorem quantifier_braces {c : Cursor} (hc : c.rest.head? = some '\x7b') :
    (Cursor.startsQuantifier c.rest = true ↔ ∃ min max, countText min max <+: c.rest) ∧
    ∀ (min : Numeral) (max : Upper), countText min max <+: c.rest →
      ((∃ n ∈ min :: max.numerals, unbounded < n.value) ∧
        ∃ offset, c.bounds? = .error ⟨.captureNumberOverflow, offset⟩ ∧
          ∀ r : Reader, r.cursor.skipBlanks r.options = .ok c →
            r.quantifier = .error ⟨.captureNumberOverflow, offset⟩) ∨
      ((∀ n ∈ min :: max.numerals, n.value ≤ unbounded) ∧
        c.bounds? = .ok (some (min.value, max.value min.value, c.drop (countText min max).length)) ∧
          ∀ r : Reader, r.cursor.skipBlanks r.options = .ok c →
            r.quantifier = r.quantified min.value (max.value min.value) (c.drop (countText min max).length)) := by
  have hstarts := Cursor.startsQuantifier_iff hc
  refine ⟨hstarts, fun min max htext => ?_⟩
  have hquantifier (r : Reader) (hblanks : r.cursor.skipBlanks r.options = .ok c) :=
    quantifier_eq hblanks (hstarts.mpr ⟨min, max, htext⟩)
  rcases Cursor.bounds?_cases htext with ⟨hlt, offset, hbounds⟩ | ⟨hle, hbounds⟩
  · refine .inl ⟨hlt, offset, hbounds, fun r hblanks => ?_⟩
    rw [hquantifier r hblanks, hbounds]
    rfl
  · refine .inr ⟨hle, hbounds, fun r hblanks => ?_⟩
    rw [hquantifier r hblanks, hbounds]
    rfl

/-- The greatest count, with zeros before the lesser bound, and one that is too great. -/
theorem quantifier_braces_limit :
    Cursor.bounds? ⟨1, "\x7b007,2147483647\x7d?".toList⟩ = .ok (some (7, 2147483647, ⟨17, ['?']⟩)) ∧
    ∃ offset, Cursor.bounds? ⟨1, "\x7b2147483648\x7d".toList⟩ = .error ⟨.captureNumberOverflow, offset⟩ := by
  constructor
  · rcases (@quantifier_braces ⟨1, "\x7b007,2147483647\x7d?".toList⟩ rfl).2
      ⟨"007".toList, by decide, List.all_eq_true.mp (by decide)⟩
      (.upTo ⟨"2147483647".toList, by decide, List.all_eq_true.mp (by decide)⟩) ⟨['?'], by decide⟩
      with ⟨hlt, _⟩ | ⟨_, hbounds, _⟩
    · exact absurd hlt (by decide)
    · exact hbounds
  · rcases (@quantifier_braces ⟨1, "\x7b2147483648\x7d".toList⟩ rfl).2
      ⟨"2147483648".toList, by decide, List.all_eq_true.mp (by decide)⟩ .same ⟨[], by decide⟩
      with ⟨_, offset, hbounds, _⟩ | ⟨hle, _⟩
    · exact ⟨offset, hbounds⟩
    · exact absurd hle (by decide)

end Reader

end PatternCompiler
