import Mathlib
import PatternCompiler.Search.Runner
import PatternCompiler.Search.Skip

/-! The search for a literal is exact.

The table of shifts is strictly ascending, so looking a character up by halves finds it if
it is there (`bisect_eq_some_iff`). What is found is how far the window has to move until
its far end meets that character (`shift_eq`): by no more than its own length, by at least
one position, and not past any window that holds the literal
(`not_occurs_of_lt_shift_forward`, `not_occurs_of_lt_shift_backward`).

So a round of the search, if it goes on, leaves the windows to be found as they are, and
comes closer to where the search ends. `find_nearest` says what it ends with. -/
namespace PatternCompiler.Lead

variable {l : Lead} {k : Culture} {text : Array Char}

/-! ### The table of shifts -/

/-- The first entry of a character is kept and no other one. -/
theorem mem_nearest {ps : List (Char × Nat)} {c : Char} {n : Nat} :
    (c, n) ∈ nearest ps ↔ ps.lookup c = some n := by
  induction ps with
  | nil => simp [nearest]
  | cons p ps ih =>
    obtain ⟨d, m⟩ := p
    rw [nearest, List.mem_cons, List.mem_filter, ih, List.lookup_cons]
    by_cases h : c = d
    · simp [h, eq_comm]
    · simp [h, beq_false_of_ne h]

theorem nearest_distinct (ps : List (Char × Nat)) : (nearest ps).Pairwise (·.1 ≠ ·.1) := by
  induction ps with
  | nil => exact .nil
  | cons p ps ih =>
    refine List.pairwise_cons.mpr ⟨fun q hq => ?_, ih.filter _⟩
    have hne := (List.mem_filter.mp hq).2
    rw [decide_eq_true_eq] at hne
    exact hne.symm

/-- The table is sorted by character and has each character once. -/
theorem shifts_ascending (l : Lead) : l.shifts.Pairwise (·.1 < ·.1) := by
  have hsorted : l.shifts.Pairwise fun p q => decide (p.1 ≤ q.1) = true := by
    refine List.pairwise_mergeSort (fun a b c hab hbc => ?_) (fun a b => ?_) _
    · rw [decide_eq_true_eq] at *
      exact hab.trans hbc
    · rw [Bool.or_eq_true, decide_eq_true_eq, decide_eq_true_eq]
      exact le_total a.1 b.1
  have hdistinct : l.shifts.Pairwise (·.1 ≠ ·.1) :=
    (List.mergeSort_perm _ _).symm.pairwise (nearest_distinct _) fun h => h.symm
  refine hsorted.imp₂ (fun p q hle hne => ?_) hdistinct
  exact lt_of_le_of_ne (of_decide_eq_true hle) hne

/-- Among entries in ascending order, the one of a character is found by halves. -/
theorem bisect_eq_some_iff {table : Array (Char × Nat)} (htable : table.toList.Pairwise (·.1 < ·.1))
    {c : Char} {n low high : Nat} (hhigh : high ≤ table.size) :
    bisect table c low high = some n ↔ ∃ i, low ≤ i ∧ i < high ∧ table[i]? = some (c, n) := by
  have hlt : ∀ {i j : Nat} {p q : Char × Nat}, table[i]? = some p → table[j]? = some q → i < j → p.1 < q.1 := by
    intro i j p q hp hq hij
    rw [← Array.getElem?_toList] at hp hq
    obtain ⟨hi, rfl⟩ := List.getElem?_eq_some_iff.mp hp
    obtain ⟨hj, rfl⟩ := List.getElem?_eq_some_iff.mp hq
    exact List.pairwise_iff_getElem.mp htable i j hi hj hij
  fun_induction bisect table c low high with
  | case1 low high hactive middle hnone =>
    rw [Array.getElem?_eq_none_iff] at hnone
    omega
  | case2 low high hactive middle m hmiddle =>
    refine ⟨fun h => ⟨middle, by omega, by omega, ?_⟩, fun ⟨i, _, _, hi⟩ => ?_⟩
    · rw [hmiddle, Option.some.inj h]
    · rcases Nat.lt_trichotomy i middle with h | rfl | h
      · exact absurd (hlt hi hmiddle h) (lt_irrefl c)
      · rw [hmiddle] at hi
        exact congrArg some (congrArg Prod.snd (Option.some.inj hi))
      · exact absurd (hlt hmiddle hi h) (lt_irrefl c)
  | case3 low high hactive middle d m hmiddle hne hless ih =>
    refine (ih hhigh).trans (exists_congr fun i => ⟨fun ⟨hlow, hi⟩ => ⟨by omega, hi⟩, fun ⟨_, hi, hget⟩ => ?_⟩)
    refine ⟨?_, hi, hget⟩
    -- What stands up to the middle has a lesser character.
    by_contra hle
    rcases Nat.lt_or_ge i middle with h | h
    · exact lt_asymm (hlt hget hmiddle h) hless
    · obtain rfl : i = middle := by omega
      rw [hmiddle] at hget
      exact hne (congrArg Prod.fst (Option.some.inj hget))
  | case4 low high hactive middle d m hmiddle hne hless ih =>
    refine (ih (by omega)).trans (exists_congr fun i => ⟨fun ⟨hlow, hi, hget⟩ => ⟨hlow, by omega, hget⟩, ?_⟩)
    refine fun ⟨hlow, hi, hget⟩ => ⟨hlow, ?_, hget⟩
    by_contra hge
    rcases Nat.lt_or_ge middle i with h | h
    · exact hless (hlt hmiddle hget h)
    · obtain rfl : i = middle := by omega
      rw [hmiddle] at hget
      exact hne (congrArg Prod.fst (Option.some.inj hget))
  | case5 low high hdone =>
    refine ⟨fun h => ?_, fun ⟨i, hlow, hi, _⟩ => ?_⟩
    · cases h
    · omega

theorem lookup_zipIdx (cs : List Char) (start : Nat) (c : Char) :
    (cs.zipIdx start).lookup c = if c ∈ cs then some (start + cs.idxOf c) else none := by
  induction cs generalizing start with
  | nil => rfl
  | cons d cs ih =>
    rw [List.zipIdx_cons, List.lookup_cons, ih, List.idxOf_cons]
    by_cases h : c = d
    · simp [h]
    · have hne : d ≠ c := fun he => h he.symm
      by_cases hc : c ∈ cs
      · simp [h, hc, beq_false_of_ne h, beq_false_of_ne hne, Nat.add_comm, Nat.add_left_comm]
      · simp [h, hc, beq_false_of_ne h]

theorem approach_length (l : Lead) : l.approach.length = l.size - 1 := by
  unfold approach
  split <;> simp [size]

/-- The shift of a character is the number of steps until the far end of the window meets it. -/
theorem shift_eq (hl : l.literal ≠ []) (c : Char) : l.shift c = l.approach.idxOf c + 1 := by
  have hpos : 0 < l.size := List.length_pos_of_ne_nil hl
  have hlookup : bisect l.shifts.toArray c 0 l.shifts.toArray.size = (l.approach.zipIdx 1).lookup c := by
    have htable : l.shifts.toArray.toList.Pairwise (·.1 < ·.1) := l.shifts_ascending
    refine Option.ext fun n => ?_
    rw [bisect_eq_some_iff htable (Nat.le_refl _), ← mem_nearest, ← List.mem_mergeSort, ← shifts,
      List.mem_iff_getElem?]
    refine exists_congr fun i => ⟨fun ⟨_, _, hi⟩ => by simpa using hi, fun hi => ?_⟩
    have hlt : i < l.shifts.length := (List.getElem?_eq_some_iff.mp hi).1
    exact ⟨Nat.zero_le i, by simpa using hlt, by simpa using hi⟩
  show (bisect l.shifts.toArray c 0 l.shifts.toArray.size).getD l.size = _
  rw [hlookup, lookup_zipIdx]
  split
  · exact Nat.add_comm ..
  · rename_i hc
    rw [Option.getD_none, List.idxOf_eq_length hc, approach_length]
    omega

theorem shift_pos (hl : l.literal ≠ []) (c : Char) : 0 < l.shift c := by
  rw [shift_eq hl]
  omega

theorem shift_le_size (hl : l.literal ≠ []) (c : Char) : l.shift c ≤ l.size := by
  have hpos : 0 < l.size := List.length_pos_of_ne_nil hl
  have hle := l.approach.idxOf_le_length (a := c)
  rw [approach_length] at hle
  rw [shift_eq hl]
  omega

/-- A character that is met after `e` steps does not shift the window further. -/
theorem shift_le_of_approach (hl : l.literal ≠ []) {c : Char} {e : Nat} (he : 0 < e)
    (h : l.approach[e - 1]? = some c) : l.shift c ≤ e := by
  obtain ⟨hlt, rfl⟩ := List.getElem?_eq_some_iff.mp h
  have hle : l.approach.idxOf l.approach[e - 1] ≤ e - 1 := by
    by_contra hgt
    have hne := List.not_of_lt_findIdx (Nat.not_le.mp hgt)
    rw [beq_self_eq_true] at hne
    cases hne
  rw [shift_eq hl]
  omega

/-! ### Windows -/

/-- The window that begins at `i` holds the literal. -/
def Occurs (l : Lead) (k : Culture) (text : Array Char) (i : Nat) : Prop :=
  ∀ n < l.size, text[i + n]?.map (l.fold k) = l.literal[n]?

theorem agrees_iff {as bs : List Char} (h : as.length ≤ bs.length) :
    l.agrees k as bs = true ↔ ∀ n < as.length, bs[n]?.map (l.fold k) = as[n]? := by
  induction as generalizing bs with
  | nil => simp [agrees]
  | cons a as ih =>
    cases bs with
    | nil => cases h
    | cons b bs =>
      rw [agrees, Bool.and_eq_true, beq_iff_eq, ih (Nat.le_of_succ_le_succ h)]
      refine ⟨fun ⟨hhead, htail⟩ n hn => ?_, fun hall => ⟨?_, fun n hn => ?_⟩⟩
      · cases n with
        | zero => exact congrArg some hhead
        | succ n => exact htail n (Nat.lt_of_succ_lt_succ hn)
      · exact Option.some.inj (hall 0 (Nat.succ_pos _))
      · exact hall (n + 1) (Nat.succ_lt_succ hn)

/-- The comparison of a window in the text says whether it holds the literal. -/
theorem standsAt_eq (k : Culture) {i : Nat} (h : i + l.size ≤ text.size) :
    ∃ b, l.standsAt k text i = .ok b ∧ (b = true ↔ l.Occurs k text i) := by
  refine ⟨_, if_neg (by omega), ?_⟩
  have hlength : (text.extract i (i + l.size)).toList.length = l.size := by
    rw [Array.length_toList, Array.size_extract]
    omega
  rw [agrees_iff (Nat.le_of_eq hlength.symm)]
  refine forall₂_congr fun n (hn : n < l.size) => ?_
  rw [Array.getElem?_toList, Array.getElem?_extract, if_pos (by omega)]

theorem shiftAt_eq {i : Nat} {c : Char} (h : text[i]? = some c) :
    l.shiftAt k text i = .ok (l.shift (l.fold k c)) := by
  rw [shiftAt, h]

/-- No window that holds the literal is passed over on the way forward. -/
theorem not_occurs_of_lt_shift_forward (hl : l.literal ≠ []) (hdir : l.rightToLeft = false) {i e : Nat} {c : Char}
    (hc : text[i + l.size - 1]? = some c) (he : 0 < e) (hshift : e < l.shift (l.fold k c)) :
    ¬ l.Occurs k text (i + e) := by
  intro hoccurs
  have hle := shift_le_size hl (l.fold k c)
  have hmet := hoccurs (l.size - 1 - e) (by omega)
  rw [show i + e + (l.size - 1 - e) = i + l.size - 1 by omega, hc] at hmet
  refine absurd (shift_le_of_approach hl he ?_) (Nat.not_le.mpr hshift)
  rw [← Option.map_some, hmet, approach, hdir, if_neg Bool.false_ne_true, List.getElem?_reverse,
    List.length_dropLast, List.getElem?_dropLast, if_pos]
  · congr 1
    simp only [size] at *
    omega
  · simp only [size] at *
    omega
  · rw [List.length_dropLast]
    simp only [size] at *
    omega

/-- No window that holds the literal is passed over on the way back. -/
theorem not_occurs_of_lt_shift_backward (hl : l.literal ≠ []) (hdir : l.rightToLeft = true) {i e : Nat} {c : Char}
    (hc : text[i]? = some c) (he : 0 < e) (hi : e ≤ i) (hshift : e < l.shift (l.fold k c)) :
    ¬ l.Occurs k text (i - e) := by
  intro hoccurs
  have hle := shift_le_size hl (l.fold k c)
  have hmet := hoccurs e (by omega)
  rw [show i - e + e = i by omega, hc] at hmet
  refine absurd (shift_le_of_approach hl he ?_) (Nat.not_le.mpr hshift)
  rw [← Option.map_some, hmet, approach, hdir, if_pos rfl, List.getElem?_drop]
  congr 1
  omega

/-! ### The way forward -/

/-- The member of a set that comes first in a direction, if there is any. -/
def IsNearest (rightToLeft : Bool) (s : Set Nat) : Option Nat → Prop
  | none => s = ∅
  | some i => if rightToLeft then IsGreatest s i else IsLeast s i

/-- The windows from `i` on that end in time and hold the literal, by where they begin. -/
def hitsFrom (l : Lead) (k : Culture) (text : Array Char) (finish i : Nat) : Set Nat :=
  {a | i ≤ a ∧ a + l.size ≤ finish ∧ l.Occurs k text a}

section

variable {beg finish rounds i j : Nat}

theorem findForward_stop (hword : i + l.size < Word.modulus) (h : finish < i + l.size) :
    l.findForward k text finish (rounds + 1) i = .ok none := by
  rw [findForward, Word.after_of_lt hword]
  exact if_neg (Nat.not_le.mpr h)

theorem findForward_found (hword : i + l.size < Word.modulus) (hfinish : finish ≤ text.size)
    (h : i + l.size ≤ finish) (hoccurs : l.Occurs k text i) :
    l.findForward k text finish (rounds + 1) i = .ok (some i) := by
  obtain ⟨b, hstands, hb⟩ := standsAt_eq k (h.trans hfinish)
  rw [findForward, Word.after_of_lt hword]
  simp only [bind, Except.bind]
  rw [if_pos h, hstands, hb.mpr hoccurs]
  rfl

theorem findForward_moves (rounds : Nat) (hl : l.literal ≠ []) (hword : i + l.size < Word.modulus)
    (hfinish : finish ≤ text.size) (h : i + l.size ≤ finish) (hoccurs : ¬ l.Occurs k text i) :
    ∃ c, text[i + l.size - 1]? = some c ∧ l.findForward k text finish (rounds + 1) i =
      l.findForward k text finish rounds (i + l.shift (l.fold k c)) := by
  have hpos : 0 < l.size := List.length_pos_of_ne_nil hl
  have hlast : i + l.size - 1 < text.size := by omega
  have hget : text[i + l.size - 1]? = some text[i + l.size - 1] := Array.getElem?_eq_getElem hlast
  refine ⟨text[i + l.size - 1], hget, ?_⟩
  have hle := shift_le_size hl (l.fold k text[i + l.size - 1])
  obtain ⟨b, hstands, hb⟩ := standsAt_eq k (h.trans hfinish)
  rw [findForward, Word.after_of_lt hword]
  simp only [bind, Except.bind]
  rw [if_pos h, hstands, Bool.eq_false_iff.mpr fun ht => hoccurs (hb.mp ht), shiftAt_eq hget]
  simp only [Bool.false_eq_true, if_false]
  rw [Word.after_of_lt (by omega)]

/-- The windows that a shift passes over do not hold the literal. -/
theorem hitsFrom_shift (hl : l.literal ≠ []) (hdir : l.rightToLeft = false) {c : Char}
    (hc : text[i + l.size - 1]? = some c) (hoccurs : ¬ l.Occurs k text i) :
    l.hitsFrom k text finish (i + l.shift (l.fold k c)) = l.hitsFrom k text finish i := by
  refine Set.ext fun a => ⟨fun ⟨ha, hrest⟩ => ⟨by omega, hrest⟩, fun ⟨ha, hrest⟩ => ⟨?_, hrest⟩⟩
  by_contra hlt
  rcases Nat.eq_or_lt_of_le ha with rfl | hia
  · exact hoccurs hrest.2
  · refine not_occurs_of_lt_shift_forward hl hdir hc (e := a - i) (k := k) (by omega) (by omega) ?_
    rw [show i + (a - i) = a by omega]
    exact hrest.2

/-- Every round but the last moves on, so there are enough of them, and the windows to be found stay
the same. -/
theorem findForward_nearest (hl : l.literal ≠ []) (hdir : l.rightToLeft = false) (hfinish : finish ≤ text.size)
    (hstored : text.size + l.size < Word.modulus) (hi : i ≤ finish) (hrounds : finish < i + rounds) :
    ∃ r, l.findForward k text finish rounds i = .ok r ∧ IsNearest false (l.hitsFrom k text finish i) r := by
  induction rounds generalizing i with
  | zero => omega
  | succ rounds ih =>
    have hword : i + l.size < Word.modulus := by omega
    by_cases hend : i + l.size ≤ finish
    · by_cases hoccurs : l.Occurs k text i
      · exact ⟨some i, findForward_found hword hfinish hend hoccurs, ⟨Nat.le_refl i, hend, hoccurs⟩, fun a ha => ha.1⟩
      · obtain ⟨c, hc, hmoves⟩ := findForward_moves rounds hl hword hfinish hend hoccurs
        have hpos := shift_pos hl (l.fold k c)
        have hle := shift_le_size hl (l.fold k c)
        rw [hmoves, ← hitsFrom_shift hl hdir hc hoccurs]
        exact ih (by omega) (by omega)
    · refine ⟨none, findForward_stop hword (Nat.not_le.mp hend), ?_⟩
      exact Set.eq_empty_of_forall_notMem fun a ha => hend (by have := ha.1; have := ha.2.1; omega)

/-! ### The way back -/

/-- The windows up to `j` that begin in time and hold the literal, by where they end. -/
def hitsUpTo (l : Lead) (k : Culture) (text : Array Char) (beg j : Nat) : Set Nat :=
  {b | beg + l.size ≤ b ∧ b ≤ j ∧ l.Occurs k text (b - l.size)}

theorem findBackward_stop (hword : beg + l.size < Word.modulus) (h : j < beg + l.size) :
    l.findBackward k text beg (rounds + 1) j = .ok none := by
  rw [findBackward, Word.after_of_lt hword]
  exact if_neg (Nat.not_le.mpr h)

theorem findBackward_found (hword : beg + l.size < Word.modulus) (hj : j ≤ text.size)
    (h : beg + l.size ≤ j) (hoccurs : l.Occurs k text (j - l.size)) :
    l.findBackward k text beg (rounds + 1) j = .ok (some j) := by
  obtain ⟨b, hstands, hb⟩ := standsAt_eq k (by omega : j - l.size + l.size ≤ text.size)
  rw [findBackward, Word.after_of_lt hword]
  simp only [bind, Except.bind]
  rw [if_pos h, Word.before_of_le (by omega)]
  simp only
  rw [hstands, hb.mpr hoccurs]
  rfl

theorem findBackward_moves (rounds : Nat) (hl : l.literal ≠ []) (hword : beg + l.size < Word.modulus)
    (hj : j ≤ text.size) (h : beg + l.size ≤ j) (hoccurs : ¬ l.Occurs k text (j - l.size)) :
    ∃ c, text[j - l.size]? = some c ∧ l.findBackward k text beg (rounds + 1) j =
      l.findBackward k text beg rounds (j - l.shift (l.fold k c)) := by
  have hpos : 0 < l.size := List.length_pos_of_ne_nil hl
  have hfirst : j - l.size < text.size := by omega
  have hget : text[j - l.size]? = some text[j - l.size] := Array.getElem?_eq_getElem hfirst
  refine ⟨text[j - l.size], hget, ?_⟩
  have hle := shift_le_size hl (l.fold k text[j - l.size])
  obtain ⟨b, hstands, hb⟩ := standsAt_eq k (by omega : j - l.size + l.size ≤ text.size)
  rw [findBackward, Word.after_of_lt hword]
  simp only [bind, Except.bind]
  rw [if_pos h, Word.before_of_le (by omega)]
  simp only
  rw [hstands, Bool.eq_false_iff.mpr fun ht => hoccurs (hb.mp ht), shiftAt_eq hget]
  simp only [Bool.false_eq_true, if_false]
  rw [Word.before_of_le (by omega)]

theorem hitsUpTo_shift (hl : l.literal ≠ []) (hdir : l.rightToLeft = true) {c : Char}
    (hc : text[j - l.size]? = some c) (hoccurs : ¬ l.Occurs k text (j - l.size)) :
    l.hitsUpTo k text beg (j - l.shift (l.fold k c)) = l.hitsUpTo k text beg j := by
  refine Set.ext fun b => ⟨fun ⟨hb, hle, ho⟩ => ⟨hb, by omega, ho⟩, fun ⟨hb, hle, ho⟩ => ⟨hb, ?_, ho⟩⟩
  by_contra hlt
  rcases Nat.eq_or_lt_of_le hle with rfl | hbj
  · exact hoccurs ho
  · refine not_occurs_of_lt_shift_backward hl hdir hc (e := j - b) (k := k) (by omega) (by omega) (by omega) ?_
    rw [show j - l.size - (j - b) = b - l.size by omega]
    exact ho

theorem findBackward_nearest (hl : l.literal ≠ []) (hdir : l.rightToLeft = true)
    (hbeg : beg + l.size < Word.modulus) (hj : j ≤ text.size) (hrounds : j < rounds) :
    ∃ r, l.findBackward k text beg rounds j = .ok r ∧ IsNearest true (l.hitsUpTo k text beg j) r := by
  induction rounds generalizing j with
  | zero => omega
  | succ rounds ih =>
    by_cases hend : beg + l.size ≤ j
    · by_cases hoccurs : l.Occurs k text (j - l.size)
      · exact ⟨some j, findBackward_found hbeg hj hend hoccurs, ⟨hend, Nat.le_refl j, hoccurs⟩, fun b hb => hb.2.1⟩
      · obtain ⟨c, hc, hmoves⟩ := findBackward_moves rounds hl hbeg hj hend hoccurs
        have hpos := shift_pos hl (l.fold k c)
        have hle := shift_le_size hl (l.fold k c)
        rw [hmoves, ← hitsUpTo_shift hl hdir hc hoccurs]
        exact ih (by omega) (by omega)
    · refine ⟨none, findBackward_stop hbeg (Nat.not_le.mp hend), ?_⟩
      exact Set.eq_empty_of_forall_notMem fun b hb => hend (hb.1.trans hb.2.1)

end

/-! ### Both ways -/

/-- **The search for a literal is exact.** It ends without a fault at the nearest window at or beyond the
position that holds the literal, and finds nothing only if there is none. -/
theorem find_nearest (l : Lead) (k : Culture) (text : Array Char) (htext : 4 * text.size ≤ Runner.maxStorage)
    (hliteral : 4 * l.size ≤ Runner.maxStorage) {beg pos finish : Nat} (hbeg : beg ≤ pos) (hpos : pos ≤ finish)
    (hfinish : finish ≤ text.size) :
    ∃ r, l.find k text beg pos finish = .ok r ∧
      IsNearest l.rightToLeft
        (if l.rightToLeft then l.hitsUpTo k text beg pos else l.hitsFrom k text finish pos) r := by
  have hstored : text.size + l.size < Word.modulus := by
    simp only [Runner.maxStorage, Word.modulus] at *
    omega
  by_cases hl : l.literal = []
  · have hsize : l.size = 0 := by rw [size, hl, List.length_nil]
    have hoccurs : ∀ i, l.Occurs k text i := fun i n hn => absurd hn (by omega)
    refine ⟨some pos, by rw [find, hl]; rfl, ?_⟩
    cases hdir : l.rightToLeft with
    | true => exact ⟨⟨by omega, Nat.le_refl pos, hoccurs _⟩, fun b hb => hb.2.1⟩
    | false => exact ⟨⟨Nat.le_refl pos, by omega, hoccurs _⟩, fun a ha => ha.1⟩
  · rw [find, if_neg (by rwa [List.isEmpty_iff])]
    cases hdir : l.rightToLeft with
    | true => exact findBackward_nearest hl hdir (by omega) (by omega) (by omega)
    | false => exact findForward_nearest hl hdir hfinish hstored hpos (by omega)

/-- A literal that overlaps itself, searched for from the end and in any case. -/
def overlapping : Lead := ⟨['a', 'b', 'a'], true, true⟩

def letters : Array Char := #['x', 'A', 'B', 'A', 'b', 'A', 'B']

theorem find_nearest_overlapping :
    ∃ j, overlapping.find .invariant letters 1 7 7 = .ok (some j) ∧
      IsGreatest (overlapping.hitsUpTo .invariant letters 1 7) j := by
  obtain ⟨r, hr, hnearest⟩ := find_nearest overlapping .invariant letters (by decide) (by decide)
    (by decide : 1 ≤ 7) (by decide : 7 ≤ 7) (by decide)
  cases r with
  | none =>
    have hhit : 6 ∈ overlapping.hitsUpTo .invariant letters 1 7 :=
      ⟨by decide, by decide, by unfold Occurs; decide⟩
    exact absurd hnearest (Set.nonempty_of_mem hhit).ne_empty
  | some j => exact ⟨j, hr, hnearest⟩

end PatternCompiler.Lead
