import PatternCompiler.Proofs.Assigning
import PatternCompiler.Proofs.Tokens

/-! References by number in ECMAScript mode.

The digits after a backslash are tried as longer and longer numbers, until a number is past all
those of groups (`tried`). The last number whose group is declared before the backslash is the
one referred to, so it is that of the longest such numeral (`lastDeclared_eq_some_iff`). The cursor,
however, is past every digit that was tried: `backslash_ecmaReference` says how far it is, and when
it is right after the numeral. -/
namespace PatternCompiler

namespace GroupTable

variable {t : GroupTable} {position n : Nat}

/-- The group with this number is declared before a position of the pattern. -/
def DeclaredBefore (t : GroupTable) (position n : Nat) : Prop := ∃ offset ∈ t.offset? n, offset < position

instance (t : GroupTable) (position n : Nat) : Decidable (t.DeclaredBefore position n) :=
  inferInstanceAs (Decidable (∃ offset ∈ t.offset? n, offset < position))

theorem DeclaredBefore.lt_top (h : t.DeclaredBefore position n) : n < t.top := by
  obtain ⟨offset, hoffset, _⟩ := h
  have hmem : n ∈ t.numbers := offset?_isSome.mp (by rw [hoffset]; rfl)
  exact (foldl_top t.numbers 0).2.1 n hmem

end GroupTable

namespace Cursor

/-! ### Numerals -/

/-- The numbers that the beginnings of a run of digits are, the shortest first; `n` is the value of
the digits before it. -/
def numerals (n : Nat) : List Char → List Nat
  | [] => []
  | d :: ds => (10 * n + digit d) :: numerals (10 * n + digit d) ds

@[simp] theorem length_numerals (n : Nat) (ds : List Char) : (numerals n ds).length = ds.length := by
  induction ds generalizing n with
  | nil => rfl
  | cons d ds ih => rw [numerals, List.length_cons, ih, List.length_cons]

theorem getElem_numerals (n : Nat) (ds : List Char) (i : Nat) (h : i < (numerals n ds).length) :
    (numerals n ds)[i] = Nat.ofDigitChars 10 (ds.take (i + 1)) n := by
  induction ds generalizing n i with
  | nil => cases h
  | cons d ds ih =>
    cases i with
    | zero => simp [numerals, digit, Nat.ofDigitChars_cons]
    | succ i => simp [numerals, digit, ih, Nat.ofDigitChars_cons]

/-- A longer numeral is not a smaller number. -/
theorem ofDigitChars_take_le (ds : List Char) {i j : Nat} (h : i ≤ j) :
    Nat.ofDigitChars 10 (ds.take i) 0 ≤ Nat.ofDigitChars 10 (ds.take j) 0 := by
  obtain ⟨more, hmore⟩ := List.take_prefix_take_left (l := ds) h
  rw [← hmore, Nat.ofDigitChars_append]
  exact le_ofDigitChars _ _

/-! ### The loop -/

section Loop

variable {t : GroupTable} {backslash n pos : Nat} {found : Option Nat} {d e : Char} {rest : List Char}

/-- The group that counts once a number has been tried. -/
def latest (t : GroupTable) (backslash n : Nat) (found : Option Nat) : Option Nat :=
  if t.DeclaredBefore backslash n then some n else found

theorem ecmaReferenceFrom_past (h : ¬ n ≤ t.top) :
    ecmaReferenceFrom t backslash n found pos (d :: rest) = (found, ⟨pos, d :: rest⟩) := by
  rw [ecmaReferenceFrom, if_neg h]

theorem ecmaReferenceFrom_last (h : n ≤ t.top) (hrest : ∀ e ∈ rest.head?, e.isDigit = false) :
    ecmaReferenceFrom t backslash n found pos (d :: rest) =
      (latest t backslash n found, ⟨pos + 1, rest⟩) := by
  rw [ecmaReferenceFrom, if_pos h]
  cases ho : t.offset? n <;> cases rest <;> simp_all [latest, GroupTable.DeclaredBefore]

theorem ecmaReferenceFrom_more (h : n ≤ t.top) (he : e.isDigit = true) :
    ecmaReferenceFrom t backslash n found pos (d :: e :: rest) =
      ecmaReferenceFrom t backslash (10 * n + digit e) (latest t backslash n found) (pos + 1) (e :: rest) := by
  rw [ecmaReferenceFrom, if_pos h]
  cases ho : t.offset? n <;> simp [latest, GroupTable.DeclaredBefore, ho, he]

/-- The numbers that are tried for a run of digits. -/
def tried (t : GroupTable) (n : Nat) (ds : List Char) : List Nat := (numerals n ds).takeWhile (· ≤ t.top)

theorem tried_cons_of_le (ds : List Char) (h : 10 * n + digit d ≤ t.top) :
    tried t n (d :: ds) = (10 * n + digit d) :: tried t (10 * n + digit d) ds := by
  simp only [tried, numerals, List.takeWhile_cons_of_pos, h, decide_true]

theorem tried_cons_of_not_le (ds : List Char) (h : ¬ 10 * n + digit d ≤ t.top) : tried t n (d :: ds) = [] := by
  simp [tried, numerals, h]

/-- The last of the numbers whose group is declared before the backslash. -/
def lastDeclared (t : GroupTable) (backslash : Nat) (numbers : List Nat) : Option Nat :=
  numbers.reverse.find? fun k => t.DeclaredBefore backslash k

theorem lastDeclared_cons (numbers : List Nat) :
    (lastDeclared t backslash (n :: numbers)).or found =
      (lastDeclared t backslash numbers).or (latest t backslash n found) := by
  rw [lastDeclared, List.reverse_cons, List.find?_append, Option.or_assoc, latest]
  by_cases h : t.DeclaredBefore backslash n <;> simp [h, lastDeclared]

/-- The numbers are tried in turn, the last one that counts is taken, and the cursor is past all. -/
theorem ecmaReferenceFrom_eq (hd : d.isDigit = true) :
    ecmaReferenceFrom t backslash (10 * n + digit d) found pos (d :: rest) =
      ((lastDeclared t backslash (tried t n ((d :: rest).takeWhile Char.isDigit))).or found,
        drop ⟨pos, d :: rest⟩ (tried t n ((d :: rest).takeWhile Char.isDigit)).length) := by
  induction rest generalizing n found pos d with
  | nil =>
    rw [List.takeWhile_cons_of_pos hd]
    by_cases h : 10 * n + digit d ≤ t.top
    · rw [ecmaReferenceFrom_last h (by simp), tried_cons_of_le _ h, lastDeclared_cons]
      rfl
    · rw [ecmaReferenceFrom_past h, tried_cons_of_not_le _ h]
      rfl
  | cons e rest ih =>
    rw [List.takeWhile_cons_of_pos hd]
    by_cases h : 10 * n + digit d ≤ t.top
    · rw [tried_cons_of_le _ h, lastDeclared_cons]
      by_cases he : e.isDigit = true
      · rw [ecmaReferenceFrom_more h he, ih he]
        simp [drop, Nat.add_assoc, Nat.add_comm 1]
      · rw [ecmaReferenceFrom_last h (by simpa using he), List.takeWhile_cons_of_neg he]
        rfl
    · rw [ecmaReferenceFrom_past h, tried_cons_of_not_le _ h]
      rfl

end Loop

/-! ### Lengths -/

/-- The number that the first `k` characters of a run of digits are. -/
def numeral (run : List Char) (k : Nat) : Nat := Nat.ofDigitChars 10 (run.take k) 0

section Lengths

variable {t : GroupTable} {backslash n k : Nat} {run : List Char}

theorem tried_isPrefix (t : GroupTable) (n : Nat) (run : List Char) : tried t n run <+: numerals n run :=
  List.takeWhile_prefix _

theorem length_tried_le (t : GroupTable) (n : Nat) (run : List Char) : (tried t n run).length ≤ run.length :=
  (tried_isPrefix t n run).length_le.trans_eq (length_numerals n run)

theorem getElem_tried (i : Nat) (h : i < (tried t 0 run).length) : (tried t 0 run)[i] = numeral run (i + 1) := by
  rw [(tried_isPrefix t 0 run).getElem h]
  exact getElem_numerals 0 run i _

/-- The numbers that are tried are those up to the greatest one of a group. -/
theorem ofDigitChars_le_top_iff (hn : n ≤ t.top) (hk : k ≤ run.length) :
    Nat.ofDigitChars 10 (run.take k) n ≤ t.top ↔ k ≤ (tried t n run).length := by
  induction run generalizing n k with
  | nil =>
    obtain rfl := Nat.le_zero.mp hk
    exact iff_of_true hn (Nat.le_refl _)
  | cons d ds ih =>
    cases k with
    | zero => exact iff_of_true hn (Nat.zero_le _)
    | succ k =>
      rw [List.take_succ_cons, Nat.ofDigitChars_cons]
      by_cases h : 10 * n + digit d ≤ t.top
      · rw [tried_cons_of_le _ h, List.length_cons, Nat.succ_le_succ_iff]
        exact ih h (Nat.le_of_succ_le_succ hk)
      · rw [tried_cons_of_not_le _ h]
        refine iff_of_false (fun hle => h ((le_ofDigitChars _ _).trans hle)) (by simp)

theorem tried_isGreatest (t : GroupTable) (run : List Char) :
    IsGreatest {m | m ≤ run.length ∧ numeral run m ≤ t.top} (tried t 0 run).length :=
  ⟨⟨length_tried_le t 0 run,
      (ofDigitChars_le_top_iff (Nat.zero_le _) (length_tried_le t 0 run)).mpr (Nat.le_refl _)⟩,
    fun _ hm => (ofDigitChars_le_top_iff (Nat.zero_le _) hm.1).mp hm.2⟩

/-- The first `k` digits are the longest numeral whose group is declared before the backslash. -/
def Longest (t : GroupTable) (backslash : Nat) (run : List Char) (k : Nat) : Prop :=
  IsGreatest {k | 0 < k ∧ k ≤ run.length ∧ t.DeclaredBefore backslash (numeral run k)} k

theorem lastDeclared_eq_some_iff :
    lastDeclared t backslash (tried t 0 run) = some n ↔ ∃ k, Longest t backslash run k ∧ n = numeral run k := by
  have hlength := length_tried_le t 0 run
  simp only [lastDeclared, List.find?_eq_some_iff_getElem, List.getElem_reverse, List.length_reverse,
    getElem_tried, decide_eq_true_eq, Bool.not_eq_true', decide_eq_false_iff_not]
  constructor
  · rintro ⟨hdeclared, i, hi, rfl, hnone⟩
    refine ⟨_, ⟨⟨Nat.succ_pos _, by omega, hdeclared⟩, fun j ⟨hpos, hj, hdeclared'⟩ => ?_⟩, rfl⟩
    have hle := (ofDigitChars_le_top_iff (Nat.zero_le _) hj).mp (Nat.le_of_lt hdeclared'.lt_top)
    by_contra hlt
    have hj' : (tried t 0 run).length - 1 - ((tried t 0 run).length - j) + 1 = j := by omega
    exact hnone ((tried t 0 run).length - j) (by omega) (by rwa [hj'])
  · rintro ⟨k, ⟨⟨hpos, hk, hdeclared⟩, hgreatest⟩, rfl⟩
    have hle := (ofDigitChars_le_top_iff (Nat.zero_le _) hk).mp (Nat.le_of_lt hdeclared.lt_top)
    have hk' : (tried t 0 run).length - 1 - ((tried t 0 run).length - k) + 1 = k := by omega
    refine ⟨hdeclared, (tried t 0 run).length - k, by omega, by rw [hk'], fun j hj hdeclared' => ?_⟩
    have := hgreatest ⟨Nat.succ_pos _, by omega, hdeclared'⟩
    omega

end Lengths

/-! ### Escapes -/

/-- The cursor goes as far as the digits are a number that could be one of a group. -/
def Furthest (t : GroupTable) (run : List Char) (m : Nat) : Prop :=
  IsGreatest {m | m ≤ run.length ∧ numeral run m ≤ t.top} m

variable {e : Setting} {o : Options} {c c' : Cursor} {d : Char} {rest : List Char} {n : Nat}

theorem isDigit_of_nonzero (hd : '1' ≤ d ∧ d ≤ '9') : d.isDigit = true := by
  simp only [Char.isDigit, Bool.and_eq_true, decide_eq_true_eq]
  exact ⟨Nat.le_of_succ_le hd.1, hd.2⟩

theorem ecmaReference_eq (t : GroupTable) (hc : c.rest = d :: rest) (hd : d.isDigit = true) :
    ecmaReference t c = (lastDeclared t (c.pos - 1) (tried t 0 (c.rest.takeWhile Char.isDigit)),
      c.drop (tried t 0 (c.rest.takeWhile Char.isDigit)).length) := by
  obtain ⟨pos, cs⟩ := c
  obtain rfl : cs = d :: rest := hc
  have hloop : ecmaReferenceFrom t (pos - 1) (10 * 0 + digit d) none pos (d :: rest) = _ := ecmaReferenceFrom_eq hd
  rw [Nat.mul_zero, Nat.zero_add, Option.or_none] at hloop
  exact hloop

theorem eq_of_nonzero (hd : '1' ≤ d ∧ d ≤ '9') :
    d = '1' ∨ d = '2' ∨ d = '3' ∨ d = '4' ∨ d = '5' ∨ d = '6' ∨ d = '7' ∨ d = '8' ∨ d = '9' := by
  have hlow : 49 ≤ d.toNat := hd.1
  have hhigh : d.toNat ≤ 57 := hd.2
  simp only [← Char.toNat_inj]
  simp only [Char.reduceToNat]
  omega

/-- No other escape begins with a digit. -/
theorem backslash_of_nonzero (e : Setting) (o : Options) (hc : c.rest = d :: rest) (hd : '1' ≤ d ∧ d ≤ '9') :
    c.backslash e o = referenceOrChar e o c ∧
      reference? e.table true c =
        .ok ((ecmaReference e.table c).1.map fun n => (n, (ecmaReference e.table c).2)) := by
  rw [backslash, reference?, hc]
  obtain rfl | rfl | rfl | rfl | rfl | rfl | rfl | rfl | rfl := eq_of_nonzero hd <;> exact ⟨rfl, rfl⟩

theorem backslash_digit (hecma : o.ecmaScript = true) (hc : c.rest = d :: rest) (hd : '1' ≤ d ∧ d ≤ '9') :
    c.backslash e o = .ok (.ref n, c') ↔ ecmaReference e.table c = (some n, c') := by
  obtain ⟨hescape, hreference⟩ := backslash_of_nonzero e o hc hd
  rw [hescape, referenceOrChar, hecma, hreference]
  cases hfound : ecmaReference e.table c with
  | mk found c₁ =>
    cases found with
    | some k => simp [bind, Except.bind]
    | none =>
      simp only [bind, Except.bind, Option.map_none]
      cases c.charEscape true <;> simp

/-- **An escape of a digit refers to the longest numeral whose group is declared before it**, if there is
one. All digits are skipped that still could be a number of a group, so the cursor is right after the
numeral only if no digit follows it, or one that leads past all groups. -/
theorem backslash_ecmaReference (hecma : o.ecmaScript = true) (hc : c.rest = d :: rest) (hd : '1' ≤ d ∧ d ≤ '9') :
    (∀ n c', c.backslash e o = .ok (.ref n, c') ↔
      ∃ k m, Longest e.table (c.pos - 1) (c.rest.takeWhile Char.isDigit) k ∧
        Furthest e.table (c.rest.takeWhile Char.isDigit) m ∧
        n = numeral (c.rest.takeWhile Char.isDigit) k ∧ c' = c.drop m) ∧
    ∀ k m, Longest e.table (c.pos - 1) (c.rest.takeWhile Char.isDigit) k →
      Furthest e.table (c.rest.takeWhile Char.isDigit) m →
      k ≤ m ∧ (c.drop m = c.drop k ↔ k = (c.rest.takeWhile Char.isDigit).length ∨
        e.table.top < numeral (c.rest.takeWhile Char.isDigit) (k + 1)) := by
  generalize hrun : c.rest.takeWhile Char.isDigit = run
  have hfurthest : Furthest e.table run (tried e.table 0 run).length := tried_isGreatest e.table run
  constructor
  · intro n c'
    rw [backslash_digit hecma hc hd, ecmaReference_eq _ hc (isDigit_of_nonzero hd), hrun, Prod.mk.injEq,
      lastDeclared_eq_some_iff]
    constructor
    · rintro ⟨⟨k, hk, rfl⟩, rfl⟩
      exact ⟨k, _, hk, hfurthest, rfl, rfl⟩
    · rintro ⟨k, m, hk, hm, rfl, rfl⟩
      exact ⟨⟨k, hk, rfl⟩, by rw [hm.unique hfurthest]⟩
  · intro k m hk hm
    obtain ⟨⟨_, hlength, hdeclared⟩, _⟩ := hk
    have hle : k ≤ m := hm.2 ⟨hlength, Nat.le_of_lt hdeclared.lt_top⟩
    have hdrop : c.drop m = c.drop k ↔ m = k := by
      refine ⟨fun h => ?_, fun h => by rw [h]⟩
      have := congrArg Cursor.pos h
      simpa [drop] using this
    refine ⟨hle, hdrop.trans ⟨?_, ?_⟩⟩
    · rintro rfl
      by_contra! hmore
      have := hm.2 ⟨by have := hm.1.1; omega, hmore.2⟩
      omega
    · rintro (rfl | hpast)
      · exact Nat.le_antisymm hm.1.1 hle
      · by_contra hne
        have := ofDigitChars_take_le run (show k + 1 ≤ m by omega)
        exact absurd (this.trans hm.1.2) (Nat.not_le_of_lt hpast)

/-- The second digit leads past the only group, and is left for the pattern. -/
theorem backslash_ecmaReference_single :
    ∃ t, GroupTable.ofPattern "(a)\\10".toList { ecmaScript := true } = .ok t ∧
      ∃ k m, Longest t 3 ['1', '0'] k ∧ Furthest t ['1', '0'] m ∧ 1 = numeral ['1', '0'] k ∧
        (⟨5, ['0']⟩ : Cursor) = drop ⟨4, ['1', '0']⟩ m := by
  obtain ⟨t, ht, hcheck⟩ := exists_ok_of_check (GroupTable.ofPattern "(a)\\10".toList { ecmaScript := true })
    (fun t => (backslash ⟨.invariant, t⟩ { ecmaScript := true } ⟨4, ['1', '0']⟩).toOption.any
      (· == (.ref 1, ⟨5, ['0']⟩))) (by decide +kernel)
  obtain ⟨_, hread, hresult⟩ := exists_ok_of_check _ _ hcheck
  obtain rfl := eq_of_beq hresult
  exact ⟨t, ht, ((backslash_ecmaReference rfl rfl (by decide)).1 _ _).mp hread⟩

/-- Number 10 is no group, but could be one, as there is a group 20: the digit after the numeral is
lost, and the tree ends with the reference. -/
theorem backslash_loses_digit :
    ∃ t p, GroupTable.ofPattern "(a)(?<20>b)\\10".toList { ecmaScript := true } = .ok t ∧
      Longest t 11 ['1', '0'] 1 ∧
      backslash ⟨.invariant, t⟩ { ecmaScript := true } ⟨12, ['1', '0']⟩ = .ok (.ref 1, ⟨14, []⟩) ∧
      Pattern.parse "(a)(?<20>b)\\10" { ecmaScript := true } .invariant = .ok p ∧
      p.root.leaves = [.test (.one 'a'), .test (.one 'b'), .ref 1] := by
  obtain ⟨t, ht, hcheck⟩ := exists_ok_of_check
    (GroupTable.ofPattern "(a)(?<20>b)\\10".toList { ecmaScript := true })
    (fun t => decide (t.DeclaredBefore 11 1 ∧ ¬ t.DeclaredBefore 11 10) &&
      (backslash ⟨.invariant, t⟩ { ecmaScript := true } ⟨12, ['1', '0']⟩).toOption.any
        (· == (.ref 1, ⟨14, []⟩))) (by decide +kernel)
  obtain ⟨hdeclared, hcheck⟩ := Bool.and_eq_true_iff.mp hcheck
  obtain ⟨hone, hten⟩ := of_decide_eq_true hdeclared
  obtain ⟨_, hread, hresult⟩ := exists_ok_of_check _ _ hcheck
  obtain rfl := eq_of_beq hresult
  obtain ⟨p, hp, hleaves⟩ := exists_ok_of_check
    (Pattern.parse "(a)(?<20>b)\\10" { ecmaScript := true } .invariant)
    (fun p => p.root.leaves == [.test (.one 'a'), .test (.one 'b'), .ref 1]) (by decide +kernel)
  refine ⟨t, p, ht, ⟨⟨by decide, by decide, hone⟩, fun k ⟨_, hk, hdeclared⟩ => ?_⟩, hread, hp, eq_of_beq hleaves⟩
  by_contra hlt
  obtain rfl : k = 2 := Nat.le_antisymm hk (Nat.lt_of_not_le hlt)
  exact hten hdeclared

end Cursor
end PatternCompiler
