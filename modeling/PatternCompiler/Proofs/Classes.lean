import PatternCompiler.CharClass.Basic
import Mathlib

/-! What a character class contains.

The ranges of a class are `Ascending` when each has its ends in order and there is a code
point between any two of them. `ofRanges` brings any ranges into that form
(`ofRanges_ascending`) and keeps their characters (`has_ofRanges`); ranges that have the
form are left alone (`ofRanges_of_ascending`). Bisection only needs that no two overlap
(`Ordered`): then it finds a character just when one of the ranges has it, `contains_iff`. -/
namespace PatternCompiler

/-! ### Characters and code points -/

namespace Scalar

theorem le_iff {c d : Char} : c ≤ d ↔ c.toNat ≤ d.toNat := Iff.rfl

theorem lt_iff {c d : Char} : c < d ↔ c.toNat < d.toNat := Iff.rfl

theorem not_lt_iff {c d : Char} : ¬ c < d ↔ d.toNat ≤ c.toNat := Nat.not_lt

theorem toNat_ofNat {n : Nat} (h : n.isValidChar) : (Char.ofNat n).toNat = n := by
  rw [Char.ofNat, dif_pos h]
  rfl

theorem toNat_zero : (Char.ofNat 0).toNat = 0 := toNat_ofNat (.inl (by decide))

theorem toNat_top : top.toNat = 0x10FFFF := toNat_ofNat (.inr ⟨by decide, by decide⟩)

theorem toNat_valid (c : Char) : c.toNat < 0xD800 ∨ 0xDFFF < c.toNat ∧ c.toNat < 0x110000 := c.valid

/-- Nothing stands between a character and the one before it. -/
theorem prev?_of_lt {c d : Char} (h : d.toNat < c.toNat) : ∃ b, prev? c = some b ∧ d.toNat ≤ b.toNat := by
  have hc := toNat_valid c
  have hd := toNat_valid d
  by_cases hgap : c.toNat = 0xE000
  · refine ⟨_, if_pos hgap, ?_⟩
    rw [toNat_ofNat (.inl (by decide))]
    omega
  · refine ⟨Char.ofNat (c.toNat - 1), by rw [prev?, if_neg hgap, if_neg (by omega)], ?_⟩
    rw [toNat_ofNat (show Nat.isValidChar _ by unfold Nat.isValidChar; omega)]
    omega

/-- Nothing stands between a character and the one after it. -/
theorem next?_of_lt {c d : Char} (h : c.toNat < d.toNat) : ∃ a, next? c = some a ∧ a.toNat ≤ d.toNat := by
  have hc := toNat_valid c
  have hd := toNat_valid d
  by_cases hgap : c.toNat = 0xD7FF
  · refine ⟨_, if_pos hgap, ?_⟩
    rw [toNat_ofNat (.inr ⟨by decide, by decide⟩)]
    omega
  · have htop : c ≠ top := by
      rintro rfl
      have htop := toNat_top
      omega
    refine ⟨Char.ofNat (c.toNat + 1), by rw [next?, if_neg hgap, if_neg htop], ?_⟩
    rw [toNat_ofNat (show Nat.isValidChar _ by unfold Nat.isValidChar; omega)]
    omega

/-- The character after the one before. -/
theorem next?_of_prev? {c b : Char} (h : prev? c = some b) : next? b = some c := by
  have hc := toNat_valid c
  have hback : Char.ofNat c.toNat = c := Char.ofNat_toNat c
  unfold prev? at h
  split at h
  · rename_i hgap
    cases h
    rw [next?, toNat_ofNat (.inl (by decide)), if_pos rfl, ← hgap, hback]
  split at h
  · cases h
  · cases h
    have hb : (Char.ofNat (c.toNat - 1)).toNat = c.toNat - 1 :=
      toNat_ofNat (show Nat.isValidChar _ by unfold Nat.isValidChar; omega)
    have htop := toNat_top
    have hne : Char.ofNat (c.toNat - 1) ≠ top := fun heq => by
      rw [heq, htop] at hb
      omega
    rw [next?, hb, if_neg (by omega), if_neg hne, Nat.sub_add_cancel (by omega), hback]

/-- The character before the one after. -/
theorem prev?_of_next? {c a : Char} (h : next? c = some a) : prev? a = some c := by
  have hc := toNat_valid c
  have hback : Char.ofNat c.toNat = c := Char.ofNat_toNat c
  have htop := toNat_top
  unfold next? at h
  split at h
  · rename_i hgap
    cases h
    rw [prev?, toNat_ofNat (.inr ⟨by decide, by decide⟩), if_pos rfl, ← hgap, hback]
  split at h
  · cases h
  · rename_i hne
    cases h
    have hlast : c.toNat ≠ 0x10FFFF := fun heq => hne (Char.toNat_inj.mp (heq.trans htop.symm))
    have ha : (Char.ofNat (c.toNat + 1)).toNat = c.toNat + 1 :=
      toNat_ofNat (show Nat.isValidChar _ by unfold Nat.isValidChar; omega)
    rw [prev?, ha, if_neg (by omega), if_neg (by omega), Nat.add_sub_cancel, hback]

theorem eq_of_prev?_none {c : Char} (h : prev? c = none) : c = Char.ofNat 0 := by
  unfold prev? at h
  split at h
  · cases h
  split at h
  · exact Char.toNat_inj.mp ‹_›
  · cases h

theorem eq_top_of_next?_none {c : Char} (h : next? c = none) : c = top := by
  unfold next? at h
  split at h
  · cases h
  split at h
  · assumption
  · cases h

/-- The next character is the next code point, but for the surrogates. -/
theorem next?_toNat {c a : Char} (h : next? c = some a) :
    a.toNat = c.toNat + 1 ∨ c.toNat = 0xD7FF ∧ a.toNat = 0xE000 := by
  have hc := toNat_valid c
  have htop := toNat_top
  unfold next? at h
  split at h
  · cases h
    exact .inr ⟨‹_›, toNat_ofNat (.inr ⟨by decide, by decide⟩)⟩
  split at h
  · cases h
  · rename_i hne
    have hlast : c.toNat ≠ 0x10FFFF := fun heq => hne (Char.toNat_inj.mp (heq.trans htop.symm))
    cases h
    exact .inl (toNat_ofNat (show Nat.isValidChar _ by unfold Nat.isValidChar; omega))

theorem lt_of_next? {c a : Char} (h : next? c = some a) : c.toNat < a.toNat := by
  have := next?_toNat h
  omega

/-- The characters after `c` are those from the next one on. -/
theorem next?_le_iff {c a d : Char} (h : next? c = some a) : a.toNat ≤ d.toNat ↔ c.toNat < d.toNat := by
  constructor
  · exact Nat.lt_of_lt_of_le (lt_of_next? h)
  · intro hlt
    obtain ⟨b, hb, hle⟩ := next?_of_lt hlt
    rw [h] at hb
    cases hb
    exact hle

theorem toNat_le_top (c : Char) : c.toNat ≤ top.toNat := by
  have htop := toNat_top
  rcases toNat_valid c with h | h <;> omega

end Scalar

/-! ### Ranges -/

namespace CharRange

variable {r s : CharRange} {c : Char}

/-- The ends stand in order. -/
def Proper (r : CharRange) : Prop := r.lo.toNat ≤ r.hi.toNat

/-- There is a code point between `r` and the later range `s`. -/
def Before (r s : CharRange) : Prop := r.hi.toNat + 1 < s.lo.toNat

instance : DecidablePred Proper := fun _ => Nat.decLe _ _

instance : DecidableRel Before := fun _ _ => Nat.decLt _ _

theorem contains_iff : r.contains c = true ↔ r.lo.toNat ≤ c.toNat ∧ c.toNat ≤ r.hi.toNat := by
  simp [contains, Scalar.le_iff]

theorem contains_single {d : Char} : (single d).contains c = true ↔ c = d := by
  rw [contains_iff, ← Char.toNat_inj]
  exact ⟨fun h => Nat.le_antisymm h.2 h.1, fun h => ⟨Nat.le_of_eq h.symm, Nat.le_of_eq h⟩⟩

theorem between_proper (a b : Char) : (between a b).Proper := by
  unfold between Proper
  split
  · rename_i h
    exact Nat.le_of_lt (Scalar.lt_iff.mp h)
  · rename_i h
    exact Scalar.not_lt_iff.mp h

theorem between_of_proper (h : r.Proper) : between r.lo r.hi = r :=
  if_neg (Scalar.not_lt_iff.mpr h)

theorem meets_iff : r.meets s = true ↔ ¬ r.Before s := by
  simp [meets, Before]

theorem extend_hi (r s : CharRange) : (r.extend s).hi.toNat = max r.hi.toNat s.hi.toNat := by
  by_cases h : r.hi < s.hi
  · have hhi : (r.extend s).hi = s.hi := if_pos h
    rw [hhi, Nat.max_eq_right (Nat.le_of_lt (Scalar.lt_iff.mp h))]
  · have hhi : (r.extend s).hi = r.hi := if_neg h
    rw [hhi, Nat.max_eq_left (Scalar.not_lt_iff.mp h)]

/-- Two ranges that meet are one range together. -/
theorem contains_extend (hlo : r.lo.toNat ≤ s.lo.toNat) (hmeets : r.meets s = true) :
    (r.extend s).contains c = true ↔ r.contains c = true ∨ s.contains c = true := by
  have hnear := meets_iff.mp hmeets
  have hstart : (r.extend s).lo = r.lo := rfl
  unfold Before at hnear
  rw [contains_iff, contains_iff, contains_iff, extend_hi, hstart]
  omega

end CharRange

namespace CharClass

open CharRange (Proper Before)

/-- Ranges in ascending order with a code point between any two. -/
structure Ascending (rs : List CharRange) : Prop where
  proper : ∀ r ∈ rs, r.Proper
  apart : rs.Pairwise Before

/-- Ranges in ascending order that do not overlap. -/
structure Ordered (rs : List CharRange) : Prop where
  proper : ∀ r ∈ rs, r.Proper
  disjoint : rs.Pairwise fun r s => r.hi.toNat < s.lo.toNat

variable {rs : List CharRange} {r : CharRange} {c : Char} {ranges : Array CharRange}

theorem Ascending.ordered (h : Ascending rs) : Ordered rs :=
  ⟨h.proper, h.apart.imp fun hrs => Nat.lt_of_succ_lt hrs⟩

instance (rs : List CharRange) : Decidable (Ordered rs) :=
  decidable_of_iff ((∀ r ∈ rs, r.Proper) ∧ rs.Pairwise fun r s => r.hi.toNat < s.lo.toNat)
    ⟨fun h => ⟨h.1, h.2⟩, fun h => ⟨h.proper, h.disjoint⟩⟩

instance (rs : List CharRange) : Decidable (Ascending rs) :=
  decidable_of_iff ((∀ r ∈ rs, r.Proper) ∧ rs.Pairwise Before)
    ⟨fun h => ⟨h.1, h.2⟩, fun h => ⟨h.proper, h.apart⟩⟩

/-- One of the ranges has the character. -/
def Has (rs : List CharRange) (c : Char) : Prop := ∃ r ∈ rs, r.contains c = true

@[simp] theorem has_nil (c : Char) : ¬ Has [] c := by simp [Has]

@[simp] theorem has_cons : Has (r :: rs) c ↔ r.contains c = true ∨ Has rs c := by simp [Has]

@[simp] theorem has_append {ss : List CharRange} :
    Has (rs ++ ss) c ↔ Has rs c ∨ Has ss c := by simp [Has, or_and_right, exists_or]

/-! ### Merging -/

/-- Ranges in the order of their lower ends are brought into ascending order. -/
theorem mergeFrom_spec (r : CharRange) (rest : List CharRange) (hproper : ∀ q ∈ r :: rest, q.Proper)
    (hsorted : (r :: rest).Pairwise fun q s => q.lo.toNat ≤ s.lo.toNat) :
    Ascending (mergeFrom r rest) ∧ (∀ q ∈ mergeFrom r rest, r.lo.toNat ≤ q.lo.toNat) ∧
      ∀ c, Has (mergeFrom r rest) c ↔ Has (r :: rest) c := by
  -- The range in front has swallowed what it met so far, and what follows starts no earlier.
  induction rest generalizing r with
  | nil => exact ⟨⟨hproper, List.pairwise_singleton ..⟩, by simp [mergeFrom], fun c => Iff.rfl⟩
  | cons s rest ih =>
    obtain ⟨hr, hrest⟩ := List.forall_mem_cons.mp hproper
    obtain ⟨hle, hsorted⟩ := List.pairwise_cons.mp hsorted
    have hlo := hle s (List.mem_cons_self ..)
    rw [mergeFrom]
    split
    · rename_i hmeets
      have hextend : (r.extend s).Proper := by
        rw [Proper, CharRange.extend_hi]
        exact Nat.le_trans hr (Nat.le_max_left ..)
      obtain ⟨hasc, hge, hhas⟩ := ih (r.extend s)
        (List.forall_mem_cons.mpr ⟨hextend, fun q hq => hrest q (List.mem_cons_of_mem s hq)⟩)
        (List.pairwise_cons.mpr ⟨fun q hq => hle q (List.mem_cons_of_mem s hq),
          (List.pairwise_cons.mp hsorted).2⟩)
      refine ⟨hasc, hge, fun c => ?_⟩
      rw [hhas, has_cons, CharRange.contains_extend hlo hmeets, has_cons, has_cons, or_assoc]
    · rename_i hmeets
      have hbefore : r.Before s := by
        by_contra h
        exact hmeets (CharRange.meets_iff.mpr h)
      obtain ⟨hasc, hge, hhas⟩ := ih s hrest hsorted
      refine ⟨⟨List.forall_mem_cons.mpr ⟨hr, hasc.proper⟩, List.pairwise_cons.mpr ⟨?_, hasc.apart⟩⟩,
        List.forall_mem_cons.mpr ⟨Nat.le_refl _, fun q hq => Nat.le_trans hlo (hge q hq)⟩, fun c => ?_⟩
      · exact fun q hq => Nat.lt_of_lt_of_le hbefore (hge q hq)
      · rw [has_cons, hhas, ← has_cons]

theorem mergeFrom_of_ascending {rest : List CharRange} (h : (r :: rest).Pairwise Before) :
    mergeFrom r rest = r :: rest := by
  induction rest generalizing r with
  | nil => rfl
  | cons s rest ih =>
    obtain ⟨hr, hrest⟩ := List.pairwise_cons.mp h
    have hmeets : ¬ r.meets s = true := fun h => CharRange.meets_iff.mp h (hr s (List.mem_cons_self ..))
    rw [mergeFrom, if_neg hmeets, ih hrest]

/-- What `ofRanges` merges: the ranges with their ends in order, sorted. -/
def sorted (rs : List CharRange) : List CharRange :=
  (rs.map fun r => CharRange.between r.lo r.hi).mergeSort fun r s => r.lo ≤ s.lo

theorem ofRanges_ranges (rs : List CharRange) : (ofRanges rs).ranges.toList = merge (sorted rs) := rfl

theorem sorted_proper (rs : List CharRange) : ∀ r ∈ sorted rs, r.Proper := by
  intro r hr
  obtain ⟨q, _, rfl⟩ := List.mem_map.mp (List.mem_mergeSort.mp hr)
  exact CharRange.between_proper q.lo q.hi

theorem sorted_pairwise (rs : List CharRange) :
    (sorted rs).Pairwise fun q s => q.lo.toNat ≤ s.lo.toNat := by
  refine (List.pairwise_mergeSort ?_ ?_ _).imp fun {q s} h => Scalar.le_iff.mp (of_decide_eq_true h)
  · intro a b c hab hbc
    simp only [decide_eq_true_eq, Scalar.le_iff] at *
    omega
  · intro a b
    simp only [Bool.or_eq_true, decide_eq_true_eq, Scalar.le_iff]
    omega

theorem merge_spec (rs : List CharRange) :
    Ascending (merge (sorted rs)) ∧ ∀ c, Has (merge (sorted rs)) c ↔ Has (sorted rs) c := by
  have hproper := sorted_proper rs
  have hpairwise := sorted_pairwise rs
  cases hrs : sorted rs with
  | nil => exact ⟨⟨by simp [merge], .nil⟩, fun c => Iff.rfl⟩
  | cons r rest =>
    rw [hrs] at hproper hpairwise
    obtain ⟨hasc, _, hhas⟩ := mergeFrom_spec r rest hproper hpairwise
    exact ⟨hasc, hhas⟩

theorem ofRanges_ascending (rs : List CharRange) : Ascending (ofRanges rs).ranges.toList := (merge_spec rs).1

theorem has_ofRanges (rs : List CharRange) (c : Char) :
    Has (ofRanges rs).ranges.toList c ↔ ∃ r ∈ rs, (CharRange.between r.lo r.hi).contains c = true := by
  rw [ofRanges_ranges, (merge_spec rs).2]
  simp only [Has, sorted, List.mem_mergeSort, List.mem_map]
  constructor
  · rintro ⟨_, ⟨r, hr, rfl⟩, hc⟩
    exact ⟨r, hr, hc⟩
  · rintro ⟨r, hr, hc⟩
    exact ⟨_, ⟨r, hr, rfl⟩, hc⟩

/-- A character of one of the ranges is in their class. -/
theorem has_ofRanges_of_has (h : Has rs c) : Has (ofRanges rs).ranges.toList c := by
  obtain ⟨r, hr, hc⟩ := h
  have hproper : r.Proper := by
    have := CharRange.contains_iff.mp hc
    exact Nat.le_trans this.1 this.2
  exact (has_ofRanges rs c).mpr ⟨r, hr, by rwa [CharRange.between_of_proper hproper]⟩

theorem Ascending.sorted_eq (h : Ascending rs) : sorted rs = rs := by
  have hmap : (rs.map fun r => CharRange.between r.lo r.hi) = rs :=
    (List.map_congr_left fun r hr => CharRange.between_of_proper (h.proper r hr)).trans (List.map_id rs)
  rw [sorted, hmap]
  refine List.mergeSort_of_pairwise (h.apart.imp_of_mem fun {r s} hr _ hrs => decide_eq_true ?_)
  have := h.proper r hr
  rw [Scalar.le_iff]
  unfold Before Proper at *
  omega

/-- Ranges in ascending order are left alone. -/
theorem ofRanges_of_ascending {rs : List CharRange} (h : Ascending rs) : ofRanges rs = ⟨rs.toArray⟩ := by
  show (⟨(merge (sorted rs)).toArray⟩ : CharClass) = _
  rw [h.sorted_eq]
  cases rs with
  | nil => rfl
  | cons r rest => rw [merge, mergeFrom_of_ascending h.apart]

/-! ### Bisection -/

/-- What is found is there. -/
theorem has_of_bisect {rounds lo hi : Nat}
    (h : bisect ranges c rounds lo hi = true) : Has ranges.toList c := by
  induction rounds generalizing lo hi with
  | zero => cases h
  | succ rounds ih =>
    rw [bisect] at h
    split at h
    · dsimp only at h
      split at h
      · cases h
      · rename_i r hr
        split at h
        · exact ih h
        · rename_i hhi
          split at h
          · exact ih h
          · rename_i hlo
            refine ⟨r, Array.mem_toList_iff.mpr (Array.mem_of_getElem? hr), ?_⟩
            exact CharRange.contains_iff.mpr ⟨Scalar.not_lt_iff.mp hlo, Scalar.not_lt_iff.mp hhi⟩
    · cases h

theorem Ordered.lt_of_lt (h : Ordered ranges.toList) {i j : Nat}
    {s : CharRange} (hr : ranges[i]? = some r) (hs : ranges[j]? = some s) (hij : i < j) :
    r.hi.toNat < s.lo.toNat := by
  rw [← Array.getElem?_toList] at hr hs
  obtain ⟨hi, rfl⟩ := List.getElem?_eq_some_iff.mp hr
  obtain ⟨hj, rfl⟩ := List.getElem?_eq_some_iff.mp hs
  exact List.pairwise_iff_getElem.mp h.disjoint i j hi hj hij

/-- What is there is found, if it is between the ends of the search. -/
theorem bisect_of_contains (h : Ordered ranges.toList) {i : Nat}
    (hr : ranges[i]? = some r) (hc : r.contains c = true) {rounds lo hi : Nat}
    (hlo : lo ≤ i) (hhi : i < hi) (hsize : hi ≤ ranges.size) (hrounds : hi ≤ lo + rounds) :
    bisect ranges c rounds lo hi = true := by
  obtain ⟨hle, hge⟩ := CharRange.contains_iff.mp hc
  induction rounds generalizing lo hi with
  | zero => omega
  | succ rounds ih =>
    have hmid : (lo + hi) / 2 < ranges.size := by omega
    rw [bisect, if_pos (by omega)]
    dsimp only
    rw [Array.getElem?_eq_getElem hmid]
    have hs : ranges[(lo + hi) / 2]? = some ranges[(lo + hi) / 2] := Array.getElem?_eq_getElem hmid
    generalize ranges[(lo + hi) / 2] = s at hs ⊢
    dsimp only
    -- The range in the middle is before, after or at the one that has the character.
    rcases Nat.lt_trichotomy ((lo + hi) / 2) i with hlt | heq | hgt
    · have hbefore := h.lt_of_lt hs hr hlt
      rw [if_pos (Scalar.lt_iff.mpr (Nat.lt_of_lt_of_le hbefore hle))]
      exact ih (by omega) hhi hsize (by omega)
    · rw [heq, hr] at hs
      cases hs
      rw [if_neg (Scalar.not_lt_iff.mpr hge), if_neg (Scalar.not_lt_iff.mpr hle)]
    · have hafter := h.lt_of_lt hr hs hgt
      have hproper : s.Proper := h.proper s (Array.mem_toList_iff.mpr (Array.mem_of_getElem? hs))
      unfold Proper at hproper
      rw [if_neg (Scalar.not_lt_iff.mpr (by omega)), if_pos (Scalar.lt_iff.mpr (by omega))]
      exact ih hlo (by omega) (by omega) (by omega)

theorem has_of_contains {k : CharClass} {c : Char} (h : k.contains c = true) : Has k.ranges.toList c :=
  has_of_bisect h

/-- **On ordered ranges bisection decides membership.** -/
theorem contains_iff {k : CharClass} (h : Ordered k.ranges.toList) :
    k.contains c = true ↔ Has k.ranges.toList c := by
  refine ⟨has_of_contains, fun ⟨r, hr, hc⟩ => ?_⟩
  obtain ⟨i, hi, hget⟩ := List.getElem_of_mem hr
  have hr : k.ranges[i]? = some r := by
    rw [← Array.getElem?_toList, List.getElem?_eq_getElem hi, hget]
  exact bisect_of_contains h hr hc (Nat.zero_le i) (by simpa using hi) (Nat.le_refl _) (by omega)

theorem contains_ofRanges (h : Has rs c) : (ofRanges rs).contains c = true :=
  (contains_iff (ofRanges_ascending rs).ordered).mpr (has_ofRanges_of_has h)

theorem complement_single (c : Char) :
    (ofRanges [.single c]).complement = ⟨(gapBefore (.single c) ++ gapAfter (.single c)).toArray⟩ := by
  have hone : Ascending [CharRange.single c] :=
    ⟨by simp [Proper, CharRange.single], List.pairwise_singleton ..⟩
  rw [ofRanges_of_ascending hone]
  rfl

/-- All characters but one. -/
theorem has_complement_single {d : Char} (h : d ≠ c) :
    Has (ofRanges [.single c]).complement.ranges.toList d := by
  rw [complement_single, List.toList_toArray, has_append]
  rcases Nat.lt_or_gt_of_ne (mt Char.toNat_inj.mp h) with hlt | hgt
  · obtain ⟨b, hb, hle⟩ := Scalar.prev?_of_lt hlt
    refine .inl ⟨⟨Char.ofNat 0, b⟩, ?_, CharRange.contains_iff.mpr ⟨Nat.zero_le _, hle⟩⟩
    rw [gapBefore, CharRange.single, hb]
    exact List.mem_singleton_self _
  · obtain ⟨a, ha, hge⟩ := Scalar.next?_of_lt hgt
    refine .inr ⟨⟨a, Scalar.top⟩, ?_, CharRange.contains_iff.mpr ⟨hge, Scalar.toNat_le_top d⟩⟩
    rw [gapAfter, CharRange.single, ha]
    exact List.mem_singleton_self _

/-- All characters but one are told by the one that is missing. -/
theorem missing?_complement_single (c : Char) :
    (ofRanges [.single c]).complement.singleton? = none ∧ (ofRanges [.single c]).complement.missing? = some c := by
  rw [complement_single]
  cases hprev : Scalar.prev? c with
  | none =>
    obtain rfl := Scalar.eq_of_prev?_none hprev
    decide
  | some b =>
    cases hnext : Scalar.next? c with
    | none =>
      obtain rfl := Scalar.eq_top_of_next?_none hnext
      decide
    | some a =>
      simp [singleton?, missing?, gapBefore, gapAfter, CharRange.single, hprev, hnext,
        Scalar.prev?_of_next? hnext, Scalar.next?_of_prev? hprev]

end CharClass

end PatternCompiler
