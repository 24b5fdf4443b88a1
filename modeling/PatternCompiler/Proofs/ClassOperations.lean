import PatternCompiler.Proofs.ClassRanges

/-! What the operations on classes mean.

A difference has the characters of the one class that are not in the other (`has_difference`).
A complement has those that are not in the class; but if a range of the class ends at U+D7FF
and the next one starts at U+E000, the stretch between them, in which there is no character,
is named by its two neighbours, and these are in the complement too (`has_complement`).

Whether that happens can be told from the ranges as they are written, in any order and
overlapping: both characters are in some range and none goes over the surrogates
(`split_ofRanges`). So the characters of a level follow from its ranges (`Level.has_resolve`). -/
namespace PatternCompiler

/-- The range goes over the surrogates. -/
def CharRange.Straddles (r : CharRange) : Prop := r.lo.toNat ≤ 0xD7FF ∧ 0xE000 ≤ r.hi.toNat

namespace CharClass

open CharRange (Proper Before Straddles)

variable {k l : CharClass} {r s : CharRange} {rs rest : List CharRange} {c : Char}

/-- One of the two characters next to the surrogates. -/
def Beside (c : Char) : Prop := c = '\uD7FF' ∨ c = '\uE000'

/-- The ranges have both characters next to the surrogates, but none goes over the surrogates. -/
structure Split (rs : List CharRange) : Prop where
  below : Has rs '\uD7FF'
  above : Has rs '\uE000'
  apart : ∀ r ∈ rs, ¬ r.Straddles

theorem beside_iff : Beside c ↔ c.toNat = 0xD7FF ∨ c.toNat = 0xE000 := by
  unfold Beside
  rw [← Char.toNat_inj, ← Char.toNat_inj]
  exact Iff.rfl

theorem has_below : Has rs '\uD7FF' ↔ ∃ q ∈ rs, q.lo.toNat ≤ 0xD7FF ∧ 0xD7FF ≤ q.hi.toNat := by
  simp only [Has, CharRange.contains_iff]
  exact Iff.rfl

theorem has_above : Has rs '\uE000' ↔ ∃ q ∈ rs, q.lo.toNat ≤ 0xE000 ∧ 0xE000 ≤ q.hi.toNat := by
  simp only [Has, CharRange.contains_iff]
  exact Iff.rfl

/-! ### Complements -/

theorem has_gapBefore : Has (gapBefore r) c ↔ c.toNat < r.lo.toNat := by
  unfold gapBefore
  cases hprev : Scalar.prev? r.lo with
  | none =>
    have hzero := Scalar.toNat_zero
    rw [Scalar.eq_of_prev?_none hprev]
    simp [hzero]
  | some b =>
    have hlt := Scalar.next?_le_iff (d := c) (Scalar.next?_of_prev? hprev)
    have hzero := Scalar.toNat_zero
    simp only [has_cons, has_nil, or_false, CharRange.contains_iff]
    omega

theorem has_gapAfter : Has (gapAfter r) c ↔ r.hi.toNat < c.toNat := by
  unfold gapAfter
  have hc := Scalar.toNat_le_top c
  cases hnext : Scalar.next? r.hi with
  | none =>
    rw [Scalar.eq_top_of_next?_none hnext]
    simp only [has_nil, false_iff]
    omega
  | some a =>
    have hlt := Scalar.next?_le_iff (d := c) hnext
    simp only [has_cons, has_nil, or_false, CharRange.contains_iff]
    omega

/-- The characters between two ranges, and the two around the surrogates where these are all that is
between them. -/
theorem has_gapBetween (h : r.Before s) : Has (gapBetween r s) c ↔
    r.hi.toNat < c.toNat ∧ c.toNat < s.lo.toNat ∨
      r.hi.toNat = 0xD7FF ∧ s.lo.toNat = 0xE000 ∧ Beside c := by
  have hlt : r.hi.toNat < s.lo.toNat := Nat.lt_of_succ_lt h
  obtain ⟨a, ha, _⟩ := Scalar.next?_of_lt hlt
  obtain ⟨b, hb, _⟩ := Scalar.prev?_of_lt hlt
  have hnext := Scalar.next?_toNat ha
  have hprev := Scalar.next?_toNat (Scalar.next?_of_prev? hb)
  have hav := Scalar.toNat_valid a
  have hbv := Scalar.toNat_valid b
  have hcv := Scalar.toNat_valid c
  rw [gapBetween, ha, hb, beside_iff]
  simp only [has_cons, has_nil, or_false, CharRange.contains_iff]
  unfold Before at h
  by_cases hswap : b < a
  · rw [CharRange.between, if_pos hswap]
    rw [Scalar.lt_iff] at hswap
    dsimp only
    omega
  · rw [CharRange.between, if_neg hswap]
    rw [Scalar.not_lt_iff] at hswap
    dsimp only
    omega

theorem not_split_singleton : ¬ Split [r] := by
  intro h
  obtain ⟨q, hq, hbelow⟩ := has_below.mp h.below
  obtain ⟨q', hq', habove⟩ := has_above.mp h.above
  rw [List.mem_singleton.mp hq] at hbelow
  rw [List.mem_singleton.mp hq'] at habove
  exact h.apart r (List.mem_singleton_self r) ⟨hbelow.1, habove.2⟩

/-- Only neighbouring ranges leave no character between them. -/
theorem split_cons_cons (h : Ascending (r :: s :: rest)) :
    Split (r :: s :: rest) ↔ r.hi.toNat = 0xD7FF ∧ s.lo.toNat = 0xE000 ∨ Split (s :: rest) := by
  obtain ⟨hbefore, hapart⟩ := List.pairwise_cons.mp h.apart
  have hrs := hbefore s (List.mem_cons_self ..)
  have hr := h.proper r (List.mem_cons_self ..)
  have hs := h.proper s (by simp)
  have hfrom : ∀ q ∈ s :: rest, s.lo.toNat ≤ q.lo.toNat := by
    refine List.forall_mem_cons.mpr ⟨Nat.le_refl _, fun q hq => ?_⟩
    have := (List.pairwise_cons.mp hapart).1 q hq
    unfold Proper Before at *
    omega
  have hvalid := Scalar.toNat_valid r.hi
  have hvalid' := Scalar.toNat_valid s.lo
  unfold Proper Before at *
  constructor
  · intro hsplit
    have hstraddle := hsplit.apart r (List.mem_cons_self ..)
    unfold Straddles at hstraddle
    obtain ⟨q, hq, hbelow⟩ := has_below.mp hsplit.below
    obtain ⟨q', hq', habove⟩ := has_above.mp hsplit.above
    rcases List.mem_cons.mp hq with rfl | hq
    · -- The first range has the one character, so it ends there, and the second one has the other.
      rcases List.mem_cons.mp hq' with rfl | hq'
      · omega
      · have := hfrom q' hq'
        omega
    · have hlo := hfrom q hq
      rcases List.mem_cons.mp hq' with rfl | hq'
      · omega
      · exact .inr ⟨has_below.mpr ⟨q, hq, hbelow⟩, has_above.mpr ⟨q', hq', habove⟩,
          fun p hp => hsplit.apart p (List.mem_cons_of_mem _ hp)⟩
  · rintro (⟨hhi, hlo⟩ | hsplit)
    · refine ⟨has_below.mpr ⟨r, by simp, by omega⟩, has_above.mpr ⟨s, by simp, by omega⟩,
        List.forall_mem_cons.mpr ⟨?_, fun q hq => ?_⟩⟩
      · unfold Straddles
        omega
      · have := hfrom q hq
        unfold Straddles
        omega
    · obtain ⟨q, hq, hbelow⟩ := has_below.mp hsplit.below
      have hlo := hfrom q hq
      refine ⟨has_cons.mpr (.inr hsplit.below), has_cons.mpr (.inr hsplit.above),
        List.forall_mem_cons.mpr ⟨?_, hsplit.apart⟩⟩
      unfold Straddles
      omega

theorem Ordered.hi_lt_of_has (h : Ordered (r :: rest)) (hc : Has rest c) : r.hi.toNat < c.toNat := by
  obtain ⟨q, hq, hc⟩ := hc
  exact Nat.lt_of_lt_of_le ((List.pairwise_cons.mp h.disjoint).1 q hq) (CharRange.contains_iff.mp hc).1

theorem has_gapsFrom (h : Ascending (r :: rest)) : Has (gapsFrom r rest) c ↔
    r.hi.toNat < c.toNat ∧ ¬ Has rest c ∨ Split (r :: rest) ∧ Beside c := by
  induction rest generalizing r with
  | nil => simp [gapsFrom, has_gapAfter, not_split_singleton]
  | cons s rest ih =>
    obtain ⟨hbefore, hapart⟩ := List.pairwise_cons.mp h.apart
    have htail : Ascending (s :: rest) := ⟨fun q hq => h.proper q (List.mem_cons_of_mem r hq), hapart⟩
    have hrs := hbefore s (List.mem_cons_self ..)
    rw [gapsFrom, has_append, has_gapBetween hrs, ih htail, split_cons_cons h, has_cons, CharRange.contains_iff]
    have hs := htail.proper s (List.mem_cons_self ..)
    unfold Proper Before at *
    by_cases hrest : Has rest c
    · have := htail.ordered.hi_lt_of_has hrest
      have hpast : ¬ c.toNat < s.lo.toNat := by omega
      simp only [hrest, hpast, not_true_eq_false, and_false, false_or, or_true, or_and_right, and_assoc]
    · simp only [hrest, not_false_eq_true, and_true, or_false, not_and, Nat.not_le]
      have hcases : r.hi.toNat < c.toNat ∧ c.toNat < s.lo.toNat ∨ s.hi.toNat < c.toNat ↔
          r.hi.toNat < c.toNat ∧ (s.lo.toNat ≤ c.toNat → s.hi.toNat < c.toNat) := by omega
      rw [← hcases, or_and_right, and_assoc, or_or_or_comm]

/-- **A complement** has what the class has not, and the characters next to the surrogates if it
splits there. -/
theorem has_complement (h : Ascending k.ranges.toList) : Has k.complement.ranges.toList c ↔
    ¬ Has k.ranges.toList c ∨ Split k.ranges.toList ∧ Beside c := by
  unfold complement
  split
  · rename_i hnil
    have hc := Scalar.toNat_le_top c
    have hzero := Scalar.toNat_zero
    rw [hnil]
    simp [any, CharRange.contains_iff, hzero, hc]
  · rename_i r rest hranges
    rw [hranges] at h ⊢
    rw [List.toList_toArray, has_append, has_gapBefore, has_gapsFrom h, has_cons, CharRange.contains_iff]
    have hr := h.proper r (List.mem_cons_self ..)
    unfold Proper at hr
    by_cases hrest : Has rest c
    · have := h.ordered.hi_lt_of_has hrest
      have hfrom : ¬ c.toNat < r.lo.toNat := by omega
      simp only [hrest, hfrom, not_true_eq_false, and_false, false_or, or_true]
    · simp only [hrest, not_false_eq_true, and_true, or_false, not_and, Nat.not_le]
      have hcases : c.toNat < r.lo.toNat ∨ r.hi.toNat < c.toNat ↔
          (r.lo.toNat ≤ c.toNat → r.hi.toNat < c.toNat) := by omega
      rw [← hcases, or_assoc]

/-! ### Ranges as they are written -/

/-- Two ranges that meet go over the surrogates if one of them does: the code points after U+D7FF
are no ends of ranges. -/
theorem straddles_extend (hlo : r.lo.toNat ≤ s.lo.toNat) (hmeets : r.meets s = true) :
    (r.extend s).Straddles ↔ r.Straddles ∨ s.Straddles := by
  have hnear := CharRange.meets_iff.mp hmeets
  have hstart : (r.extend s).lo = r.lo := rfl
  have hr := Scalar.toNat_valid r.hi
  have hs := Scalar.toNat_valid s.lo
  unfold Before at hnear
  unfold Straddles
  rw [CharRange.extend_hi, hstart]
  omega

theorem straddles_mergeFrom (hsorted : (r :: rest).Pairwise fun q s => q.lo.toNat ≤ s.lo.toNat) :
    (∃ q ∈ mergeFrom r rest, q.Straddles) ↔ ∃ q ∈ r :: rest, q.Straddles := by
  induction rest generalizing r with
  | nil => exact Iff.rfl
  | cons s rest ih =>
    obtain ⟨hle, hsorted⟩ := List.pairwise_cons.mp hsorted
    rw [mergeFrom]
    split
    · rename_i hmeets
      have hsorted' : (r.extend s :: rest).Pairwise fun q s => q.lo.toNat ≤ s.lo.toNat :=
        List.pairwise_cons.mpr ⟨fun q hq => hle q (List.mem_cons_of_mem s hq), (List.pairwise_cons.mp hsorted).2⟩
      rw [ih hsorted']
      simp only [List.mem_cons, exists_eq_or_imp, straddles_extend (hle s (List.mem_cons_self ..)) hmeets, or_assoc]
    · simp only [List.mem_cons, exists_eq_or_imp] at ih ⊢
      rw [ih hsorted]

theorem straddles_merge (rs : List CharRange) :
    (∃ q ∈ merge (sorted rs), q.Straddles) ↔ ∃ q ∈ sorted rs, q.Straddles := by
  have hpairwise := sorted_pairwise rs
  cases hrs : sorted rs with
  | nil => exact Iff.rfl
  | cons r rest =>
    rw [hrs] at hpairwise
    exact straddles_mergeFrom hpairwise

theorem mem_sorted (hrs : ∀ r ∈ rs, r.Proper) : r ∈ sorted rs ↔ r ∈ rs := by
  have hmap : rs.map (fun r => CharRange.between r.lo r.hi) = rs :=
    (List.map_congr_left fun r hr => CharRange.between_of_proper (hrs r hr)).trans (List.map_id' rs)
  rw [sorted, List.mem_mergeSort, hmap]

theorem has_ofRanges_iff (hrs : ∀ r ∈ rs, r.Proper) : Has (ofRanges rs).ranges.toList c ↔ Has rs c := by
  rw [ofRanges_ranges, (merge_spec rs).2]
  simp only [Has, mem_sorted hrs]

/-- A class splits at the surrogates just if its ranges do, whatever their order. -/
theorem split_ofRanges (hrs : ∀ r ∈ rs, r.Proper) : Split (ofRanges rs).ranges.toList ↔ Split rs := by
  have hstraddles := straddles_merge rs
  simp only [mem_sorted hrs] at hstraddles
  constructor
  · rintro ⟨hbelow, habove, hapart⟩
    refine ⟨(has_ofRanges_iff hrs).mp hbelow, (has_ofRanges_iff hrs).mp habove, fun r hr hover => ?_⟩
    obtain ⟨q, hq, hover⟩ := hstraddles.mpr ⟨r, hr, hover⟩
    exact hapart q hq hover
  · rintro ⟨hbelow, habove, hapart⟩
    refine ⟨(has_ofRanges_iff hrs).mpr hbelow, (has_ofRanges_iff hrs).mpr habove, fun q hq hover => ?_⟩
    obtain ⟨r, hr, hover⟩ := hstraddles.mp ⟨q, hq, hover⟩
    exact hapart r hr hover

/-! ### Differences -/

theorem has_headBefore : Has (headBefore r s) c ↔ r.lo.toNat ≤ c.toNat ∧ c.toNat < s.lo.toNat := by
  unfold headBefore
  cases hprev : Scalar.prev? s.lo with
  | none =>
    have hzero := Scalar.toNat_zero
    rw [Scalar.eq_of_prev?_none hprev]
    simp [hzero]
  | some b =>
    have hlt := Scalar.next?_le_iff (d := c) (Scalar.next?_of_prev? hprev)
    dsimp only
    split
    · simp only [has_cons, has_nil, or_false, CharRange.contains_iff]
      omega
    · rename_i hle
      rw [Scalar.not_lt_iff] at hle
      simp only [has_nil, false_iff]
      omega

/-- What is left on both sides of a range that is cut out, of those in the way. -/
theorem has_headBefore_append {tail : List CharRange} (hrest : Ordered (s :: rest))
    (hlo : r.lo.toNat ≤ s.hi.toNat) (hhi : s.lo.toNat ≤ r.hi.toNat)
    (htail : Has tail c ↔ (s.hi.toNat < c.toNat ∧ c.toNat ≤ r.hi.toNat) ∧ ¬ Has rest c) :
    Has (headBefore r s ++ tail) c ↔ r.contains c = true ∧ ¬ Has (s :: rest) c := by
  have hs := hrest.proper s (List.mem_cons_self ..)
  unfold Proper at hs
  rw [has_append, has_headBefore, htail, has_cons, CharRange.contains_iff, CharRange.contains_iff]
  by_cases hlater : Has rest c
  · have := hrest.hi_lt_of_has hlater
    simp only [hlater, not_true_eq_false, and_false, or_false, or_true, iff_false]
    omega
  · simp only [hlater, not_false_eq_true, and_true, or_false]
    omega

/-- What is left of a range are its characters that are in none of those cut out. -/
theorem has_cut {ss : List CharRange} (hss : Ordered ss) :
    Has (cut r ss) c ↔ r.contains c = true ∧ ¬ Has ss c := by
  induction ss generalizing r with
  | nil => simp [cut]
  | cons s rest ih =>
    have hs := hss.proper s (List.mem_cons_self ..)
    unfold Proper at hs
    rw [cut]
    split
    · rename_i hbelow
      rw [Scalar.lt_iff] at hbelow
      rw [ih hss.tail, has_cons, CharRange.contains_iff, CharRange.contains_iff]
      have hout : r.lo.toNat ≤ c.toNat → ¬ (s.lo.toNat ≤ c.toNat ∧ c.toNat ≤ s.hi.toNat) := by omega
      tauto
    split
    · rename_i habove
      rw [Scalar.lt_iff] at habove
      have hout : c.toNat ≤ r.hi.toNat → ¬ Has (s :: rest) c := fun hle hin => by
        have := hss.le_of_has hin
        omega
      rw [has_cons, CharRange.contains_iff]
      simp only [has_nil, or_false]
      tauto
    rename_i hafter hbefore
    rw [Scalar.not_lt_iff] at hafter hbefore
    refine has_headBefore_append hss hafter hbefore ?_
    cases hnext : Scalar.next? s.hi with
    | none =>
      have := Scalar.toNat_le_top c
      rw [← Scalar.eq_top_of_next?_none hnext] at this
      simp only [has_nil, false_iff]
      omega
    | some a =>
      have hlt := Scalar.next?_le_iff (d := c) hnext
      dsimp only
      split
      · rw [ih hss.tail, CharRange.contains_iff, hlt]
      · rename_i hle
        rw [Scalar.not_lt_iff] at hle
        simp only [has_nil, false_iff]
        omega

/-- **A difference** has the characters of the one class that are not in the other. -/
theorem has_difference (hl : Ordered l.ranges.toList) : Has (k.difference l).ranges.toList c ↔
    Has k.ranges.toList c ∧ ¬ Has l.ranges.toList c := by
  have hpieces : Has (k.difference l).ranges.toList c ↔
      ∃ r ∈ k.ranges.toList, Has (cut r l.ranges.toList) c := by
    rw [difference, List.toList_toArray]
    simp only [Has, List.mem_flatMap]
    constructor
    · rintro ⟨q, ⟨r, hr, hq⟩, hc⟩
      exact ⟨r, hr, q, hq, hc⟩
    · rintro ⟨r, hr, q, hq, hc⟩
      exact ⟨q, ⟨r, hr, hq⟩, hc⟩
  rw [hpieces]
  simp only [has_cut hl, ← and_assoc, exists_and_right]
  exact Iff.rfl

/-! ### Levels -/

/-- What a level without categories has, by its ranges. -/
theorem Level.has_resolve {l : Level} (hcategories : l.categories = []) (hproper : ∀ r ∈ l.ranges, r.Proper) :
    Has l.resolve.ranges.toList c ↔
      if l.negated then ¬ Has l.ranges c ∨ Split l.ranges ∧ Beside c else Has l.ranges c := by
  rw [Level.resolve, hcategories, List.append_nil]
  split
  · rw [has_complement (ofRanges_ascending _), has_ofRanges_iff hproper, split_ofRanges hproper]
  · exact has_ofRanges_iff hproper

theorem has_resolveChain_cons {l m : Level} {inner : List Level} :
    Has (resolveChain (l :: m :: inner)).ranges.toList c ↔
      Has l.resolve.ranges.toList c ∧ ¬ Has (resolveChain (m :: inner)).ranges.toList c :=
  has_difference (resolveChain_nearlyAscending (m :: inner)).ordered

end CharClass

end PatternCompiler
