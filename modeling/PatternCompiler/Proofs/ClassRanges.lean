import PatternCompiler.CharClass.Level
import PatternCompiler.Proofs.Classes

/-! Classes of one character, and of all but one.

`singleton?` and `missing?` look at the ranges. What they find is right for any ranges
(`contains_of_singleton?`, `contains_of_missing?`). The other way round it depends on
the ranges. Those of a class in brackets do not overlap (`resolveChain_nearlyAscending`),
so `singleton?` finds every single member; but `missing?` takes two ranges for the ones
around the missing character, and that is right only if there is a character between
any two neighbouring ranges (`Spaced`). There may be none where the surrogates are, and
only there. `singletons_exact` says what both find in ranges that do not overlap. -/
namespace PatternCompiler.CharClass

open CharRange (Proper Before)

variable {k : CharClass} {c d : Char} {r s : CharRange} {rs : List CharRange}

/-! ### What the two tests find -/

/-- The only member is one, and the only one. -/
theorem contains_of_singleton? (h : k.singleton? = some d) : k.contains c = true ↔ c = d := by
  unfold singleton? at h
  split at h
  · rename_i r hranges
    split at h
    · rename_i hends
      cases h
      have hordered : Ordered k.ranges.toList := by
        rw [hranges]
        exact ⟨by simp [Proper, hends], List.pairwise_singleton ..⟩
      rw [contains_iff hordered, hranges, has_cons, CharRange.contains_iff, ← hends, ← Char.toNat_inj]
      simp only [has_nil, or_false]
      omega
    · cases h
  · cases h

/-- Two ranges from the first to the last character, with one character between them. -/
theorem contains_of_gap (hranges : k.ranges.toList = [r, s]) (hlo : r.lo.toNat = 0)
    (hhi : s.hi = Scalar.top) (hnext : Scalar.next? r.hi = some d) (hprev : Scalar.prev? s.lo = some d) :
    k.contains c = true ↔ c ≠ d := by
  have hbelow := Scalar.next?_le_iff (d := c) hnext
  have habove := Scalar.next?_le_iff (d := c) (Scalar.next?_of_prev? hprev)
  have hafter := Scalar.lt_of_next? hnext
  have hbefore := Scalar.lt_of_next? (Scalar.next?_of_prev? hprev)
  have hordered : Ordered k.ranges.toList := by
    rw [hranges]
    refine ⟨?_, List.pairwise_pair.mpr (by omega)⟩
    simp only [List.mem_cons, List.not_mem_nil, or_false, forall_eq_or_imp, forall_eq, Proper, hhi]
    exact ⟨by omega, Scalar.toNat_le_top _⟩
  rw [contains_iff hordered, hranges]
  simp only [has_cons, has_nil, or_false, CharRange.contains_iff, ne_eq, ← Char.toNat_inj, hhi]
  have := Scalar.toNat_le_top c
  omega

/-- The only character that is missing is not a member, and all others are. -/
theorem contains_of_missing? (h : k.missing? = some d) : k.contains c = true ↔ c ≠ d := by
  unfold missing? at h
  split at h
  · rename_i r hranges
    have hc := Scalar.toNat_le_top c
    have hordered (hproper : r.Proper) : Ordered k.ranges.toList := by
      rw [hranges]
      exact ⟨by simpa using hproper, List.pairwise_singleton ..⟩
    split at h
    · rename_i hlo
      split at h
      · rename_i hnext
        cases h
        have hbelow := Scalar.next?_le_iff (d := c) hnext
        rw [contains_iff (hordered (by unfold Proper; omega)), hranges]
        simp only [has_cons, has_nil, or_false, CharRange.contains_iff, ne_eq, ← Char.toNat_inj]
        omega
      · cases h
    split at h
    · rename_i hhi
      split at h
      · rename_i hprev
        rw [h, Option.map_some, Option.some_inj] at hprev
        have habove := Scalar.next?_le_iff (d := c) (Scalar.next?_of_prev? h)
        rw [contains_iff (hordered (by unfold Proper; rw [hhi.1]; exact Scalar.toNat_le_top _)), hranges]
        simp only [has_cons, has_nil, or_false, CharRange.contains_iff, ne_eq, ← Char.toNat_inj, hhi.1]
        omega
      · cases h
    · cases h
  · rename_i r s hranges
    split at h
    · rename_i hends
      split at h
      · rename_i hgap
        exact contains_of_gap hranges hends.1 hends.2 h (hgap ▸ h)
      · cases h
    · cases h
  · cases h

/-! ### What they do not miss -/

/-- There is a character between any two neighbouring ranges. -/
def Spaced (rs : List CharRange) : Prop := rs.IsChain fun r s => Scalar.next? r.hi ≠ some s.lo

instance (rs : List CharRange) : Decidable (Spaced rs) :=
  inferInstanceAs (Decidable (rs.IsChain _))

theorem Ordered.tail (h : Ordered (r :: rs)) : Ordered rs :=
  ⟨fun q hq => h.proper q (List.mem_cons_of_mem r hq), (List.pairwise_cons.mp h.disjoint).2⟩

theorem Ordered.le_of_has (h : Ordered (r :: rs)) (hc : Has (r :: rs) c) : r.lo.toNat ≤ c.toNat := by
  rcases has_cons.mp hc with hc | ⟨q, hq, hc⟩
  · exact (CharRange.contains_iff.mp hc).1
  · have hr := h.proper r (List.mem_cons_self ..)
    have hlt := (List.pairwise_cons.mp h.disjoint).1 q hq
    have hle := (CharRange.contains_iff.mp hc).1
    unfold Proper at hr
    omega

/-- A character between the first range and the second one is in none. -/
theorem Ordered.not_has_of_between (h : Ordered (r :: s :: rs))
    (hr : r.hi.toNat < c.toNat) (hs : c.toNat < s.lo.toNat) : ¬ Has (r :: s :: rs) c := by
  rintro hc
  rcases has_cons.mp hc with hc | hc
  · have := (CharRange.contains_iff.mp hc).2
    omega
  · have := h.tail.le_of_has hc
    omega

theorem has_lo {r : CharRange} {rs : List CharRange} (h : Ordered (r :: rs)) : Has (r :: rs) r.lo :=
  has_cons.mpr (.inl (CharRange.contains_iff.mpr ⟨Nat.le_refl _, h.proper r (List.mem_cons_self ..)⟩))

theorem has_hi {r : CharRange} {rs : List CharRange} (h : Ordered (r :: rs)) : Has (r :: rs) r.hi :=
  has_cons.mpr (.inl (CharRange.contains_iff.mpr ⟨h.proper r (List.mem_cons_self ..), Nat.le_refl _⟩))

/-- A class of one character is one range of one character. -/
theorem singleton?_of_contains (h : Ordered k.ranges.toList) (hc : ∀ d, k.contains d = true ↔ d = c) :
    k.singleton? = some c := by
  simp only [contains_iff h] at hc
  unfold singleton?
  match hranges : k.ranges.toList with
  | [] =>
    rw [hranges] at hc
    exact absurd ((hc c).mpr rfl) (has_nil c)
  | [r] =>
    rw [hranges] at h hc
    have hlo := (hc r.lo).mp (has_lo h)
    have hhi := (hc r.hi).mp (has_hi h)
    simp [hlo, hhi]
  | r :: s :: rest =>
    rw [hranges] at h hc
    have hlo := (hc r.lo).mp (has_lo h)
    have hnext := (hc s.lo).mp (has_cons.mpr (.inr (has_lo h.tail)))
    have hlt := (List.pairwise_cons.mp h.disjoint).1 s (List.mem_cons_self ..)
    have hproper := h.proper r (List.mem_cons_self ..)
    rw [Proper, hlo] at hproper
    rw [hnext] at hlt
    omega

/-- The gap after a range, if there is a character in it. -/
theorem exists_between (hlt : r.hi.toNat < s.lo.toNat) (hgap : Scalar.next? r.hi ≠ some s.lo) :
    ∃ a, Scalar.next? r.hi = some a ∧ r.hi.toNat < a.toNat ∧ a.toNat < s.lo.toNat := by
  obtain ⟨a, ha, hle⟩ := Scalar.next?_of_lt hlt
  have hne : a.toNat ≠ s.lo.toNat := fun heq => hgap (by rw [ha, Char.toNat_inj.mp heq])
  exact ⟨a, ha, Scalar.lt_of_next? ha, by omega⟩

theorem missing?_of_one (hranges : k.ranges.toList = [r])
    (hc : ∀ d, r.contains d = true ↔ d ≠ c) : k.missing? = some c := by
  have hzero := Scalar.toNat_zero
  have htop := Scalar.toNat_top
  simp only [CharRange.contains_iff] at hc
  have hmissing (d : Char) (hd : d.toNat < r.lo.toNat ∨ r.hi.toNat < d.toNat) : d = c := by
    by_contra hne
    have := (hc d).mpr hne
    omega
  rw [missing?, hranges]
  by_cases hlo : r.lo.toNat = 0
  · have hhi : r.hi ≠ Scalar.top := by
      intro hhi
      have := Scalar.toNat_le_top c
      exact (hc c).mp ⟨by omega, by rw [hhi]; exact this⟩ rfl
    have hlast : r.hi.toNat < Scalar.top.toNat :=
      Nat.lt_of_le_of_ne (Scalar.toNat_le_top _) (mt Char.toNat_inj.mp hhi)
    obtain ⟨a, ha, _⟩ := Scalar.next?_of_lt hlast
    have hnext := hmissing a (.inr (Scalar.lt_of_next? ha))
    have hend := hmissing Scalar.top (.inr hlast)
    dsimp only
    rw [if_pos ⟨hlo, hhi⟩, if_pos (by rw [ha, hnext, hend]), hend]
  · have hfirst := hmissing (Char.ofNat 0) (.inl (by omega))
    have hhi : r.hi = Scalar.top := by
      by_contra hhi
      have hlast : r.hi.toNat < Scalar.top.toNat :=
        Nat.lt_of_le_of_ne (Scalar.toNat_le_top _) (mt Char.toNat_inj.mp hhi)
      have hend := hmissing Scalar.top (.inr hlast)
      rw [hend, ← hfirst, hzero] at htop
      cases htop
    obtain ⟨b, hb, _⟩ := Scalar.prev?_of_lt (show (Char.ofNat 0).toNat < r.lo.toNat by omega)
    have hprev := hmissing b (.inl (Scalar.lt_of_next? (Scalar.next?_of_prev? hb)))
    dsimp only
    rw [if_neg (fun h => hlo h.1), if_pos ⟨hhi, hlo⟩, hb, hprev, ← hfirst]
    exact if_pos (congrArg some hzero)

theorem missing?_of_two (hranges : k.ranges.toList = [r, s]) (h : Ordered [r, s])
    (hgap : Scalar.next? r.hi ≠ some s.lo) (hc : ∀ d, Has [r, s] d ↔ d ≠ c) : k.missing? = some c := by
  have hmissing (d : Char) (hd : ¬ Has [r, s] d) : d = c := by
    by_contra hne
    exact hd ((hc d).mpr hne)
  have hlt := (List.pairwise_cons.mp h.disjoint).1 s (List.mem_singleton_self s)
  obtain ⟨a, ha, hra, has⟩ := exists_between hlt hgap
  have hac := hmissing a (h.not_has_of_between hra has)
  obtain ⟨b, hb, hab⟩ := Scalar.prev?_of_lt has
  have hbs := Scalar.lt_of_next? (Scalar.next?_of_prev? hb)
  have hbc := hmissing b (h.not_has_of_between (by omega) hbs)
  have hlo : r.lo.toNat = 0 := by
    by_contra hlo
    have hzero := Scalar.toNat_zero
    have hfirst := hmissing (Char.ofNat 0) fun hhas => hlo (by have := h.le_of_has hhas; omega)
    rw [hac, ← hfirst, hzero] at hra
    omega
  have hhi : s.hi = Scalar.top := by
    by_contra hhi
    have hlast : s.hi.toNat < Scalar.top.toNat :=
      Nat.lt_of_le_of_ne (Scalar.toNat_le_top _) (mt Char.toNat_inj.mp hhi)
    have hs := h.proper s (by simp)
    have hend := hmissing Scalar.top (by
      simp only [has_cons, has_nil, or_false, CharRange.contains_iff]
      unfold Proper at hs
      omega)
    rw [hac, ← hend] at has
    unfold Proper at hs
    omega
  rw [missing?, hranges]
  dsimp only
  rw [if_pos ⟨hlo, hhi⟩, ha, hb, hac, hbc, if_pos rfl]

/-- All but one character are two ranges around that one, or one if it is the first or the last. -/
theorem missing?_of_contains (h : Ordered k.ranges.toList) (hspaced : Spaced k.ranges.toList)
    (hc : ∀ d, k.contains d = true ↔ d ≠ c) : k.missing? = some c := by
  simp only [contains_iff h] at hc
  match hranges : k.ranges.toList with
  | [] =>
    rw [hranges] at hc
    have hne : ∃ d : Char, d ≠ c := if hc : c = 'a' then ⟨'b', by rw [hc]; decide⟩ else ⟨'a', Ne.symm hc⟩
    obtain ⟨d, hd⟩ := hne
    exact absurd ((hc d).mpr hd) (has_nil d)
  | [r] =>
    rw [hranges] at hc
    exact missing?_of_one hranges fun d => by simpa using hc d
  | [r, s] =>
    rw [hranges] at h hspaced hc
    exact missing?_of_two hranges h (List.isChain_cons_cons.mp hspaced).1 hc
  | r :: s :: t :: rest =>
    rw [hranges] at h hspaced hc
    obtain ⟨hrs, hspaced⟩ := List.isChain_cons_cons.mp hspaced
    obtain ⟨hst, _⟩ := List.isChain_cons_cons.mp hspaced
    have hlt := (List.pairwise_cons.mp h.disjoint).1 s (List.mem_cons_self ..)
    have hlt' := (List.pairwise_cons.mp h.tail.disjoint).1 t (List.mem_cons_self ..)
    obtain ⟨a, _, hra, has⟩ := exists_between hlt hrs
    obtain ⟨b, _, hsb, hbt⟩ := exists_between hlt' hst
    have hs := h.proper s (by simp)
    unfold Proper at hs
    -- Two gaps would miss two characters.
    have hac : a = c := by
      by_contra hne
      exact h.not_has_of_between hra has ((hc a).mpr hne)
    have hbc : b = c := by
      by_contra hne
      rcases has_cons.mp ((hc b).mpr hne) with hb | hb
      · have := (CharRange.contains_iff.mp hb).2
        omega
      · exact h.tail.not_has_of_between hsb hbt hb
    rw [hac] at has
    rw [hbc] at hsb
    omega

/-- Two ranges that touch are not the ones around a missing character. -/
theorem spaced_of_missing? (h : k.missing? = some c) : Spaced k.ranges.toList := by
  unfold missing? at h
  split at h
  · rename_i r hranges
    rw [hranges]
    exact .singleton r
  · rename_i r s hranges
    split at h
    · split at h
      · rename_i hgap
        rw [hranges]
        refine .cons_cons (fun htouch => ?_) (.singleton s)
        have hbefore := Scalar.lt_of_next? (Scalar.next?_of_prev? (hgap.symm.trans htouch))
        exact Nat.lt_irrefl _ hbefore
      · cases h
    · cases h
  · cases h

/-- **A single member and a single missing character are found exactly** in ranges that stand in order
and do not overlap, the missing one if there is a character between any two neighbours. Where two of them
touch no missing character is found, whether there is one or not. -/
theorem singletons_exact (h : Ordered k.ranges.toList) :
    (∀ c, k.singleton? = some c ↔ ∀ d, k.contains d = true ↔ d = c) ∧
    (Spaced k.ranges.toList → ∀ c, k.missing? = some c ↔ ∀ d, k.contains d = true ↔ d ≠ c) ∧
    (¬ Spaced k.ranges.toList → k.missing? = none) := by
  refine ⟨fun c => ⟨fun hone d => contains_of_singleton? hone, singleton?_of_contains h⟩, fun hspaced c =>
    ⟨fun hmissing d => contains_of_missing? hmissing, missing?_of_contains h hspaced⟩, fun htouch => ?_⟩
  exact Option.eq_none_iff_forall_ne_some.mpr fun c hmissing => htouch (spaced_of_missing? hmissing)

/-- All characters but the first one, the last one, or one next to the surrogates. -/
def edgeGaps : List (CharClass × Char) :=
  [(⟨#[⟨'\x01', Scalar.top⟩]⟩, '\x00'),
    (⟨#[⟨'\x00', Char.ofNat 0x10FFFE⟩]⟩, Scalar.top),
    (⟨#[⟨'\x00', '\uD7FE'⟩, ⟨'\uE000', Scalar.top⟩]⟩, '\uD7FF'),
    (⟨#[⟨'\x00', '\uD7FF'⟩, ⟨'\uE001', Scalar.top⟩]⟩, '\uE000')]

theorem singletons_exact_edges :
    edgeGaps.Forall fun p => p.1.missing? = some p.2 ∧ ∀ d, p.1.contains d = true ↔ d ≠ p.2 := by
  have hfound : ∀ p ∈ edgeGaps,
      Ordered p.1.ranges.toList ∧ Spaced p.1.ranges.toList ∧ p.1.missing? = some p.2 := by decide
  refine List.forall_iff_forall_mem.mpr fun p hp => ?_
  obtain ⟨hordered, hspaced, hmissing⟩ := hfound p hp
  exact ⟨hmissing, ((singletons_exact hordered).2.1 hspaced p.2).mp hmissing⟩

/-! ### The ranges of a class in brackets -/

/-- One range ends before another one starts. The next code point is no start unless a gap was named
by its ends across the surrogates. -/
def Apart (r s : CharRange) : Prop :=
  r.hi.toNat < s.lo.toNat ∧
    (s.lo.toNat = r.hi.toNat + 1 → s.lo.toNat = 0xD7FF ∨ r.hi.toNat = 0xE000)

structure NearlyAscending (rs : List CharRange) : Prop where
  proper : ∀ r ∈ rs, r.Proper
  apart : rs.Pairwise Apart

theorem Ascending.nearlyAscending (h : Ascending rs) : NearlyAscending rs := by
  refine ⟨h.proper, h.apart.imp fun hbefore => ?_⟩
  unfold Before at hbefore
  unfold Apart
  omega

theorem NearlyAscending.ordered (h : NearlyAscending rs) : Ordered rs :=
  ⟨h.proper, h.apart.imp And.left⟩

/-- Where no range has an end at the surrogates there is a character between any two. -/
theorem NearlyAscending.spaced (h : NearlyAscending rs)
    (hends : ∀ r ∈ rs, r.lo ≠ '\uD7FF' ∧ r.hi ≠ '\uD7FF' ∧ r.hi ≠ '\uE000') : Spaced rs := by
  refine (List.Pairwise.imp_of_mem (fun {r s} hr hs happart hnext => ?_) h.apart).isChain
  obtain ⟨_, hhi, hhi'⟩ := hends r hr
  obtain ⟨hlo, _⟩ := hends s hs
  simp only [ne_eq, ← Char.toNat_inj] at hlo hhi hhi'
  have htouch := Scalar.next?_toNat hnext
  rcases htouch with htouch | ⟨htouch, _⟩
  · exact (happart.2 htouch).elim hlo hhi'
  · exact hhi htouch

/-- What is left out between two ranges reaches no further than to them, and touches them only where
the surrogates are. -/
theorem gapBetween_spec (h : r.Before s) :
    ∃ g, gapBetween r s = [g] ∧ g.Proper ∧
      r.hi.toNat ≤ g.lo.toNat ∧ (g.lo.toNat = r.hi.toNat → r.hi.toNat = 0xD7FF) ∧
      g.hi.toNat ≤ s.lo.toNat ∧ (g.hi.toNat = s.lo.toNat → s.lo.toNat = 0xE000) := by
  have hlt : r.hi.toNat < s.lo.toNat := Nat.lt_of_succ_lt h
  obtain ⟨a, ha, _⟩ := Scalar.next?_of_lt hlt
  obtain ⟨b, hb, _⟩ := Scalar.prev?_of_lt hlt
  have hnext := Scalar.next?_toNat ha
  have hprev := Scalar.next?_toNat (Scalar.next?_of_prev? hb)
  have hs := Scalar.toNat_valid s.lo
  have hr := Scalar.toNat_valid r.hi
  refine ⟨CharRange.between a b, by rw [gapBetween, ha, hb], CharRange.between_proper a b, ?_⟩
  unfold Before at h
  by_cases hswap : b < a
  · rw [CharRange.between, if_pos hswap]
    rw [Scalar.lt_iff] at hswap
    dsimp only
    omega
  · rw [CharRange.between, if_neg hswap]
    dsimp only
    omega

theorem gapsFrom_nearlyAscending {rest : List CharRange} (h : Ascending (r :: rest)) :
    NearlyAscending (gapsFrom r rest) ∧ ∀ g ∈ gapsFrom r rest,
      r.hi.toNat ≤ g.lo.toNat ∧ (g.lo.toNat = r.hi.toNat → r.hi.toNat = 0xD7FF) := by
  induction rest generalizing r with
  | nil =>
    rw [gapsFrom, gapAfter]
    cases hnext : Scalar.next? r.hi with
    | none => exact ⟨⟨List.forall_mem_nil _, .nil⟩, List.forall_mem_nil _⟩
    | some a =>
      have hlt := Scalar.lt_of_next? hnext
      refine ⟨⟨?_, List.pairwise_singleton ..⟩, ?_⟩
      · simpa [Proper] using Scalar.toNat_le_top a
      · simp only [List.mem_singleton, forall_eq]
        omega
  | cons s rest ih =>
    obtain ⟨hbefore, hapart⟩ := List.pairwise_cons.mp h.apart
    obtain ⟨g, hgap, hg, hlo, hlo', hhi, hhi'⟩ := gapBetween_spec (hbefore s (List.mem_cons_self ..))
    obtain ⟨hrest, hfrom⟩ := ih ⟨fun q hq => h.proper q (List.mem_cons_of_mem r hq), hapart⟩
    have hs := h.proper s (by simp)
    have hrs := hbefore s (List.mem_cons_self ..)
    unfold Proper at hs
    unfold Before at hrs
    rw [gapsFrom, hgap, List.singleton_append]
    refine ⟨⟨List.forall_mem_cons.mpr ⟨hg, hrest.proper⟩, List.pairwise_cons.mpr ⟨fun q hq => ?_, hrest.apart⟩⟩,
      List.forall_mem_cons.mpr ⟨⟨hlo, hlo'⟩, fun q hq => ?_⟩⟩
    · have := hfrom q hq
      unfold Apart
      omega
    · have := hfrom q hq
      omega

theorem any_nearlyAscending : NearlyAscending any.ranges.toList :=
  ⟨by simp [any, Proper], List.pairwise_singleton ..⟩

theorem complement_nearlyAscending (h : Ascending k.ranges.toList) :
    NearlyAscending k.complement.ranges.toList := by
  unfold complement
  split
  · exact any_nearlyAscending
  · rename_i r rest hranges
    rw [hranges] at h
    obtain ⟨hgaps, hfrom⟩ := gapsFrom_nearlyAscending h
    have hr := h.proper r (List.mem_cons_self ..)
    unfold Proper at hr
    rw [List.toList_toArray, gapBefore]
    cases hprev : Scalar.prev? r.lo with
    | none => exact hgaps
    | some b =>
      have hlt := Scalar.lt_of_next? (Scalar.next?_of_prev? hprev)
      have hzero := Scalar.toNat_zero
      rw [List.singleton_append]
      refine ⟨List.forall_mem_cons.mpr ⟨by unfold Proper; dsimp only; omega, hgaps.proper⟩,
        List.pairwise_cons.mpr ⟨fun g hg => ?_, hgaps.apart⟩⟩
      have := hfrom g hg
      unfold Apart
      dsimp only
      omega

theorem headBefore_spec : headBefore r s = [] ∨ ∃ q, headBefore r s = [q] ∧ q.Proper ∧
    q.lo = r.lo ∧ q.hi.toNat < s.lo.toNat := by
  unfold headBefore
  cases hprev : Scalar.prev? s.lo with
  | none => exact .inl rfl
  | some b =>
    dsimp only
    split
    · rename_i hlt
      obtain ⟨b', hb', hle⟩ := Scalar.prev?_of_lt (Scalar.lt_iff.mp hlt)
      cases hprev.symm.trans hb'
      exact .inr ⟨_, rfl, hle, rfl, Scalar.lt_of_next? (Scalar.next?_of_prev? hprev)⟩
    · exact .inl rfl

/-- What is left before a range that is cut out, and some ranges after it. -/
theorem headBefore_append {tail : List CharRange} (hs : s.Proper)
    (hafter : r.lo.toNat ≤ s.hi.toNat) (hbefore : s.lo.toNat ≤ r.hi.toNat) (htail : NearlyAscending tail)
    (hwithin : ∀ q ∈ tail, s.hi.toNat < q.lo.toNat ∧ q.hi.toNat ≤ r.hi.toNat) :
    NearlyAscending (headBefore r s ++ tail) ∧
      ∀ q ∈ headBefore r s ++ tail, r.lo.toNat ≤ q.lo.toNat ∧ q.hi.toNat ≤ r.hi.toNat := by
  unfold Proper at hs
  have hfrom : ∀ q ∈ tail, r.lo.toNat ≤ q.lo.toNat ∧ q.hi.toNat ≤ r.hi.toNat := by
    intro q hq
    have := hwithin q hq
    omega
  rcases headBefore_spec (r := r) (s := s) with hhead | ⟨p, hhead, hp, hlo, hhi⟩
  · rw [hhead]
    exact ⟨htail, hfrom⟩
  · rw [hhead, List.singleton_append]
    refine ⟨⟨List.forall_mem_cons.mpr ⟨hp, htail.proper⟩, List.pairwise_cons.mpr ⟨fun q hq => ?_, htail.apart⟩⟩,
      List.forall_mem_cons.mpr ⟨by rw [hlo]; omega, hfrom⟩⟩
    have := hwithin q hq
    unfold Apart
    omega

/-- What is left of a range lies within it. -/
theorem cut_nearlyAscending {ss : List CharRange} (hr : r.Proper) (hss : ∀ s ∈ ss, s.Proper) :
    NearlyAscending (cut r ss) ∧ ∀ q ∈ cut r ss, r.lo.toNat ≤ q.lo.toNat ∧ q.hi.toNat ≤ r.hi.toNat := by
  induction ss generalizing r with
  | nil => exact ⟨⟨by simpa [cut] using hr, List.pairwise_singleton ..⟩, by simp [cut]⟩
  | cons s rest ih =>
    obtain ⟨hs, hrest⟩ := List.forall_mem_cons.mp hss
    rw [cut]
    split
    · exact ih hr hrest
    split
    · exact ⟨⟨by simpa using hr, List.pairwise_singleton ..⟩, by simp⟩
    rename_i hafter hbefore
    have happend {tail : List CharRange} :=
      @headBefore_append r s tail hs (Scalar.not_lt_iff.mp hafter) (Scalar.not_lt_iff.mp hbefore)
    cases hnext : Scalar.next? s.hi with
    | none => exact happend ⟨nofun, .nil⟩ nofun
    | some a =>
      dsimp only
      split
      · rename_i hlt
        have ha := Scalar.lt_of_next? hnext
        obtain ⟨hpieces, hwithin⟩ := ih (r := ⟨a, r.hi⟩) ((Scalar.next?_le_iff hnext).mpr hlt) hrest
        refine happend hpieces fun q hq => ?_
        have := hwithin q hq
        dsimp only at this
        omega
      · exact happend ⟨nofun, .nil⟩ nofun

theorem difference_nearlyAscending {l : CharClass} (hk : NearlyAscending k.ranges.toList)
    (hl : NearlyAscending l.ranges.toList) : NearlyAscending (k.difference l).ranges.toList := by
  have hcut (r : CharRange) (hr : r ∈ k.ranges.toList) := cut_nearlyAscending (hk.proper r hr) hl.proper
  rw [difference, List.toList_toArray]
  refine ⟨fun q hq => ?_, List.pairwise_flatMap.mpr ⟨fun r hr => (hcut r hr).1.apart, ?_⟩⟩
  · obtain ⟨r, hr, hq⟩ := List.mem_flatMap.mp hq
    exact (hcut r hr).1.proper q hq
  · refine hk.apart.imp_of_mem fun {r s} hr hs hapart p hp q hq => ?_
    have hbelow := ((hcut r hr).2 p hp).2
    have habove := ((hcut s hs).2 q hq).1
    unfold Apart at hapart ⊢
    omega

theorem resolve_nearlyAscending (l : Level) : NearlyAscending l.resolve.ranges.toList := by
  unfold Level.resolve
  have h := ofRanges_ascending (l.ranges ++ l.categories)
  dsimp only
  split
  · exact complement_nearlyAscending h
  · exact h.nearlyAscending

/-- **The ranges of a class in brackets do not overlap**, and touch only at the surrogates. -/
theorem resolveChain_nearlyAscending (ls : List Level) :
    NearlyAscending (resolveChain ls).ranges.toList := by
  match ls with
  | [] => exact ⟨nofun, .nil⟩
  | [l] => exact resolve_nearlyAscending l
  | l :: m :: inner =>
    exact difference_nearlyAscending (resolve_nearlyAscending l) (resolveChain_nearlyAscending (m :: inner))

end PatternCompiler.CharClass
