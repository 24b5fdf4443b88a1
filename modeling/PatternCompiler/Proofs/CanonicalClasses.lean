import PatternCompiler.Proofs.ClassOperations

/-! One class for each set of characters.

`covered` are the characters between the ends of some range, whichever end comes first.
`ofRanges_canonical` says that the class of any ranges has just these, in ranges that stand in
order and do not overlap, and that ranges with the same characters give the same class.

Both the room between the ranges and the one form have an exception at the surrogates. If the
ranges have U+D7FF and U+E000 but none goes from one to the other (`Splits`), the class keeps two
ranges with no character between them, and it is not the class of ranges that have the same
characters and go over the surrogates (`ofRanges_split`). -/
namespace PatternCompiler

/-! ### Ends in either order -/

theorem CharRange.contains_between {a b c : Char} :
    (CharRange.between a b).contains c = true ↔ c ∈ Set.uIcc a b := by
  rw [CharRange.contains_iff, CharRange.between, Set.mem_uIcc]
  simp only [Scalar.le_iff, Scalar.lt_iff]
  split <;> dsimp only <;> omega

/-- There is a character between `r` and the later range `s`. -/
def CharRange.Parted (r s : CharRange) : Prop := ∃ c, r.hi < c ∧ c < s.lo

namespace CharClass

open CharRange (Proper Before Parted Straddles)

variable {r s : CharRange} {rs ss : List CharRange} {c : Char}

/-- The characters between the ends of one of the ranges. -/
def covered (rs : List CharRange) : Set Char := {c | ∃ r ∈ rs, c ∈ Set.uIcc r.lo r.hi}

instance (a b c : Char) : Decidable (c ∈ Set.uIcc a b) := decidable_of_iff _ Set.mem_uIcc.symm

instance (rs : List CharRange) (c : Char) : Decidable (c ∈ covered rs) :=
  inferInstanceAs (Decidable (∃ r ∈ rs, c ∈ Set.uIcc r.lo r.hi))

/-- The characters next to the surrogates are both covered, but no range goes from one to the other. -/
structure Splits (rs : List CharRange) : Prop where
  below : '\uD7FF' ∈ covered rs
  above : '\uE000' ∈ covered rs
  apart : ∀ r ∈ rs, ¬ ('\uD7FF' ∈ Set.uIcc r.lo r.hi ∧ '\uE000' ∈ Set.uIcc r.lo r.hi)

instance (rs : List CharRange) : Decidable (Splits rs) :=
  decidable_of_iff ('\uD7FF' ∈ covered rs ∧ '\uE000' ∈ covered rs ∧
      ∀ r ∈ rs, ¬ ('\uD7FF' ∈ Set.uIcc r.lo r.hi ∧ '\uE000' ∈ Set.uIcc r.lo r.hi))
    ⟨fun h => ⟨h.1, h.2.1, h.2.2⟩, fun h => ⟨h.below, h.above, h.apart⟩⟩

/-- The ranges with their ends in order. -/
def oriented (rs : List CharRange) : List CharRange := rs.map fun r => CharRange.between r.lo r.hi

theorem oriented_proper : ∀ r ∈ oriented rs, r.Proper := by
  intro r hr
  obtain ⟨q, _, rfl⟩ := List.mem_map.mp hr
  exact CharRange.between_proper q.lo q.hi

theorem oriented_of_proper (h : ∀ r ∈ rs, r.Proper) : oriented rs = rs :=
  (List.map_congr_left fun r hr => CharRange.between_of_proper (h r hr)).trans (List.map_id' rs)

theorem ofRanges_oriented (rs : List CharRange) : ofRanges (oriented rs) = ofRanges rs := by
  show (⟨(merge ((oriented (oriented rs)).mergeSort _)).toArray⟩ : CharClass) = _
  rw [oriented_of_proper oriented_proper]
  rfl

theorem has_oriented : Has (oriented rs) c ↔ c ∈ covered rs := by
  simp [Has, oriented, covered, CharRange.contains_between]

theorem has_ofRanges_covered : Has (ofRanges rs).ranges.toList c ↔ c ∈ covered rs := by
  rw [← ofRanges_oriented, has_ofRanges_iff oriented_proper, has_oriented]

/-- A range goes over the surrogates if it has the characters on both sides. -/
theorem straddles_iff :
    r.Straddles ↔ r.contains '\uD7FF' = true ∧ r.contains '\uE000' = true := by
  have hbelow : ('\uD7FF' : Char).toNat = 0xD7FF := rfl
  have habove : ('\uE000' : Char).toNat = 0xE000 := rfl
  rw [CharRange.contains_iff, CharRange.contains_iff, hbelow, habove]
  unfold Straddles
  omega

theorem split_oriented : Split (oriented rs) ↔ Splits rs := by
  have hapart : (∀ q ∈ oriented rs, ¬ q.Straddles) ↔
      ∀ r ∈ rs, ¬ ('\uD7FF' ∈ Set.uIcc r.lo r.hi ∧ '\uE000' ∈ Set.uIcc r.lo r.hi) := by
    simp only [oriented, List.forall_mem_map, straddles_iff, CharRange.contains_between]
  constructor
  · rintro ⟨hbelow, habove, h⟩
    exact ⟨has_oriented.mp hbelow, has_oriented.mp habove, hapart.mp h⟩
  · rintro ⟨hbelow, habove, h⟩
    exact ⟨has_oriented.mpr hbelow, has_oriented.mpr habove, hapart.mpr h⟩

theorem split_ofRanges_iff : Split (ofRanges rs).ranges.toList ↔ Splits rs := by
  rw [← ofRanges_oriented, split_ofRanges oriented_proper, split_oriented]

/-! ### Sets of characters -/

theorem covered_append (rs ss : List CharRange) : covered (rs ++ ss) = covered rs ∪ covered ss := by
  ext c
  simp [covered, or_and_right, exists_or]

theorem covered_singleton (r : CharRange) : covered [r] = Set.uIcc r.lo r.hi := by
  ext c
  simp [covered]

theorem mem_covered_flatMap {α : Type} {xs : List α} {f : α → List CharRange} :
    c ∈ covered (xs.flatMap f) ↔ ∃ x ∈ xs, c ∈ covered (f x) := by
  simp only [covered, List.mem_flatMap, Set.mem_ofPred_eq]
  constructor
  · rintro ⟨r, ⟨x, hx, hr⟩, hc⟩
    exact ⟨x, hx, r, hr, hc⟩
  · rintro ⟨x, hx, r, hr, hc⟩
    exact ⟨r, ⟨x, hx, hr⟩, hc⟩

theorem has_iff_covered (h : ∀ r ∈ rs, r.Proper) : Has rs c ↔ c ∈ covered rs := by
  rw [← has_oriented, oriented_of_proper h]

theorem covered_ofRanges (rs : List CharRange) : covered (ofRanges rs).ranges.toList = covered rs := by
  ext c
  rw [← has_iff_covered (ofRanges_ascending rs).proper, has_ofRanges_covered]

theorem splits_iff_split (h : ∀ r ∈ rs, r.Proper) : Splits rs ↔ Split rs := by
  rw [← split_oriented, oriented_of_proper h]

theorem splits_ofRanges : Splits (ofRanges rs).ranges.toList ↔ Splits rs := by
  rw [splits_iff_split (ofRanges_ascending rs).proper, split_ofRanges_iff]

/-- The characters that a complement does not leave out, although they are in the ranges. -/
def stray (rs : List CharRange) : Set Char := {c | Splits rs ∧ Beside c}

theorem mem_stray : c ∈ stray rs ↔ Splits rs ∧ Beside c := Iff.rfl

theorem stray_of_not_splits (h : ¬ Splits rs) : stray rs = ∅ :=
  Set.eq_empty_of_forall_notMem fun _ hc => h hc.1

theorem covered_complement {k : CharClass} (h : Ascending k.ranges.toList) :
    covered k.complement.ranges.toList = (covered k.ranges.toList)ᶜ ∪ stray k.ranges.toList := by
  ext c
  rw [← has_iff_covered (complement_nearlyAscending h).proper, has_complement h, has_iff_covered h.proper,
    ← splits_iff_split h.proper]
  exact Iff.rfl

/-! ### The room between the ranges -/

/-- The code points between two ranges are characters, but for the surrogates. -/
theorem parted_iff (h : r.Before s) : r.Parted s ↔ ¬ (r.hi.toNat = 0xD7FF ∧ s.lo.toNat = 0xE000) := by
  unfold Before at h
  constructor
  · rintro ⟨c, hr, hs⟩ ⟨hhi, hlo⟩
    have hc := Scalar.toNat_valid c
    rw [Scalar.lt_iff] at hr hs
    omega
  · intro hgap
    have hnext : Scalar.next? r.hi ≠ some s.lo := fun hnext => by
      have := Scalar.next?_toNat hnext
      omega
    obtain ⟨c, _, hr, hs⟩ := exists_between (Nat.lt_of_succ_lt h) hnext
    exact ⟨c, Scalar.lt_iff.mpr hr, Scalar.lt_iff.mpr hs⟩

theorem Ascending.tail (h : Ascending (r :: rs)) : Ascending rs :=
  ⟨fun q hq => h.proper q (List.mem_cons_of_mem r hq), (List.pairwise_cons.mp h.apart).2⟩

/-- Neighbouring ranges leave a character between them, except at the surrogates. -/
theorem Ascending.isChain (h : Ascending rs) :
    rs.IsChain fun r s => r.Parted s ∨ r.hi = '\uD7FF' ∧ s.lo = '\uE000' := by
  refine (h.apart.imp fun {r s} hbefore => ?_).isChain
  rw [parted_iff hbefore, ← Char.toNat_inj, ← Char.toNat_inj]
  exact Decidable.not_or_of_imp id

/-- They all do unless the ranges are split there. -/
theorem Ascending.isChain_parted_iff (h : Ascending rs) : rs.IsChain Parted ↔ ¬ Split rs := by
  induction rs with
  | nil => exact iff_of_true .nil fun hsplit => has_nil _ hsplit.below
  | cons r rs ih =>
    cases rs with
    | nil => exact iff_of_true (.singleton r) not_split_singleton
    | cons s rs =>
      have hbefore := (List.pairwise_cons.mp h.apart).1 s (List.mem_cons_self ..)
      rw [List.isChain_cons_cons, split_cons_cons h, not_or, parted_iff hbefore, ih h.tail]

/-! ### One form -/

theorem Ordered.has_tail_iff (h : Ordered (r :: rs)) :
    Has rs c ↔ Has (r :: rs) c ∧ r.hi.toNat < c.toNat := by
  rw [has_cons, CharRange.contains_iff]
  constructor
  · intro hc
    exact ⟨.inr hc, h.hi_lt_of_has hc⟩
  · rintro ⟨hin | hc, hlt⟩
    · omega
    · exact hc

/-- Whether ranges are split can be told from the first one and the others. -/
theorem Ascending.split_tail_iff (h : Ascending (r :: rs)) :
    Split rs ↔ Split (r :: rs) ∧ r.hi.toNat < 0xD7FF := by
  have hr := h.proper r (List.mem_cons_self ..)
  unfold Proper at hr
  constructor
  · intro hsplit
    have hlt : r.hi.toNat < 0xD7FF := h.ordered.hi_lt_of_has hsplit.below
    refine ⟨⟨has_cons.mpr (.inr hsplit.below), has_cons.mpr (.inr hsplit.above),
      List.forall_mem_cons.mpr ⟨?_, hsplit.apart⟩⟩, hlt⟩
    unfold Straddles
    omega
  · rintro ⟨hsplit, hlt⟩
    exact ⟨h.ordered.has_tail_iff.mpr ⟨hsplit.below, hlt⟩,
      h.ordered.has_tail_iff.mpr ⟨hsplit.above, Nat.lt_trans hlt (by decide)⟩,
      fun q hq => hsplit.apart q (List.mem_cons_of_mem r hq)⟩

/-- A range that starts with the first one and stays within the ranges ends no later than the first
one does, unless it goes over the surrogates where the ranges are split. -/
theorem Ascending.hi_le_hi (h : Ascending (r :: rs)) (hlo : s.lo = r.lo)
    (hin : ∀ c, s.contains c = true → Has (r :: rs) c) (hgap : s.Straddles → ¬ Split (r :: rs)) :
    s.hi.toNat ≤ r.hi.toNat := by
  by_contra hlt
  obtain ⟨a, ha, hle⟩ := Scalar.next?_of_lt (Nat.lt_of_not_le hlt)
  have hr : r.lo.toNat ≤ r.hi.toNat := h.proper r (List.mem_cons_self ..)
  have hafter := Scalar.lt_of_next? ha
  -- The character after the first range is in the other one, so it begins the second range.
  have hsecond : Has rs a := by
    refine h.ordered.has_tail_iff.mpr ⟨hin a (CharRange.contains_iff.mpr ⟨?_, hle⟩), hafter⟩
    rw [hlo]
    omega
  cases rs with
  | nil => exact has_nil a hsecond
  | cons t rest =>
    have hbefore : r.hi.toNat + 1 < t.lo.toNat := (List.pairwise_cons.mp h.apart).1 t (List.mem_cons_self ..)
    have hta := h.tail.ordered.le_of_has hsecond
    have hnext := Scalar.next?_toNat ha
    have hvalid := Scalar.toNat_valid t.lo
    refine hgap ⟨?_, by omega⟩ ((split_cons_cons h).mpr (.inl ⟨by omega, by omega⟩))
    rw [hlo]
    omega

/-- **Ranges in ascending order are told by their characters**, and by whether they are split at
the surrogates. -/
theorem Ascending.ext (hrs : Ascending rs) (hss : Ascending ss) (hsplit : Split rs ↔ Split ss)
    (h : ∀ c, Has rs c ↔ Has ss c) : rs = ss := by
  induction rs generalizing ss with
  | nil =>
    cases ss with
    | nil => rfl
    | cons s ss => exact absurd ((h s.lo).mpr (has_lo hss.ordered)) (has_nil _)
  | cons r rs ih =>
    cases ss with
    | nil => exact absurd ((h r.lo).mp (has_lo hrs.ordered)) (has_nil _)
    | cons s ss =>
      have hlo : r.lo = s.lo := Char.toNat_inj.mp (Nat.le_antisymm
        (hrs.ordered.le_of_has ((h s.lo).mpr (has_lo hss.ordered)))
        (hss.ordered.le_of_has ((h r.lo).mp (has_lo hrs.ordered))))
      have hhi : r.hi = s.hi := by
        refine Char.toNat_inj.mp (Nat.le_antisymm ?_ ?_)
        · refine hss.hi_le_hi hlo (fun c hc => (h c).mp (has_cons.mpr (.inl hc))) fun hover hsplit' => ?_
          exact (hsplit.mpr hsplit').apart r (List.mem_cons_self ..) hover
        · refine hrs.hi_le_hi hlo.symm (fun c hc => (h c).mpr (has_cons.mpr (.inl hc))) fun hover hsplit' => ?_
          exact (hsplit.mp hsplit').apart s (List.mem_cons_self ..) hover
      have htail : rs = ss := by
        refine ih hrs.tail hss.tail ?_ fun c => ?_
        · rw [hrs.split_tail_iff, hss.split_tail_iff, hsplit, hhi]
        · rw [hrs.ordered.has_tail_iff, hss.ordered.has_tail_iff, h, hhi]
      cases r
      cases s
      rw [htail]
      exact congrArg (· :: ss) (congrArg₂ CharRange.mk hlo hhi)

/-- Ranges with the same characters give the same class, if both or none of them are split. -/
theorem ofRanges_eq_iff (h : covered rs = covered ss) :
    ofRanges rs = ofRanges ss ↔ (Splits rs ↔ Splits ss) := by
  constructor
  · intro heq
    rw [← split_ofRanges_iff, heq, split_ofRanges_iff]
  · intro hsplits
    have hranges : (ofRanges rs).ranges.toList = (ofRanges ss).ranges.toList := by
      refine (ofRanges_ascending rs).ext (ofRanges_ascending ss) ?_ fun c => ?_
      · rw [split_ofRanges_iff, split_ofRanges_iff, hsplits]
      · rw [has_ofRanges_covered, has_ofRanges_covered, h]
    exact congrArg CharClass.mk (Array.toList_inj.mp hranges)

/-- **A class is canonical.** Its ranges stand in order, do not overlap, and have a character between
any two neighbours unless the given ranges are split at the surrogates; it has the characters that the
given ranges cover; and it is the only class of these characters, but for that split. -/
theorem ofRanges_canonical (rs : List CharRange) :
    Ordered (ofRanges rs).ranges.toList ∧
    (ofRanges rs).ranges.toList.IsChain (fun r s => r.Parted s ∨ r.hi = '\uD7FF' ∧ s.lo = '\uE000') ∧
    ((ofRanges rs).ranges.toList.IsChain Parted ↔ ¬ Splits rs) ∧
    (∀ c, (ofRanges rs).contains c = true ↔ c ∈ covered rs) ∧
    ∀ ss, covered rs = covered ss → (ofRanges rs = ofRanges ss ↔ (Splits rs ↔ Splits ss)) := by
  have hascending := ofRanges_ascending rs
  refine ⟨hascending.ordered, hascending.isChain, ?_, fun c => ?_, fun ss => ofRanges_eq_iff⟩
  · rw [hascending.isChain_parted_iff, split_ofRanges_iff]
  · rw [contains_iff hascending.ordered, has_ofRanges_covered]

/-- The four characters around the surrogates, in two ranges and in one. -/
def aroundSurrogates : List CharRange × List CharRange :=
  ([⟨'\uD7FE', '\uD7FF'⟩, ⟨'\uE000', '\uE001'⟩], [⟨'\uD7FE', '\uE001'⟩])

/-- Two ranges with no character between them stay apart, and are not the class of the same
characters in one range. -/
theorem ofRanges_split :
    covered aroundSurrogates.1 = covered aroundSurrogates.2 ∧
    ofRanges aroundSurrogates.1 ≠ ofRanges aroundSurrogates.2 ∧
    ¬ (ofRanges aroundSurrogates.1).ranges.toList.IsChain Parted := by
  have hcovered : covered aroundSurrogates.1 = covered aroundSurrogates.2 := by
    ext c
    have hc := Scalar.toNat_valid c
    simp only [covered, aroundSurrogates, Set.mem_ofPred_eq, List.mem_cons, List.not_mem_nil, or_false,
      exists_eq_or_imp, exists_eq_left, Set.mem_uIcc, Scalar.le_iff, Char.reduceToNat]
    omega
  have hsplits : Splits aroundSurrogates.1 := by decide
  have hwhole : ¬ Splits aroundSurrogates.2 := by decide
  refine ⟨hcovered, fun heq => ?_, fun hchain => ?_⟩
  · exact hwhole (((ofRanges_eq_iff hcovered).mp heq).mp hsplits)
  · rw [(ofRanges_ascending _).isChain_parted_iff, split_ofRanges_iff] at hchain
    exact hchain hsplits

end CharClass

end PatternCompiler
