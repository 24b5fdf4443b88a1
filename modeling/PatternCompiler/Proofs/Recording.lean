import PatternCompiler.Proofs.Iterating
import PatternCompiler.Proofs.Rollback

/-! Every capture is an interval of the text.

Captures, transfers and undos leave a trail, and the calls alone decide which
(`RunnerStep.trailOf`). If the positions are in the text, every call succeeds, a slot reads as
the last capture that the trail leaves it (`Runner.Trails.current`), and a transfer captures
what two intervals have in common or what is between them (`Runner.between_isBetween`).
`Matcher.matchOf_recorded` adds the end of an attempt: all captures that are left can be cut
out of the text, so there is a match, and each group has its own in order. -/
namespace PatternCompiler

open CaptureEvent (stack ofSlot)

/-! ### Intervals -/

/-- From `z.1` to `z.2` is what the intervals `x` and `y` have in common if they overlap, and else the
gap between them. -/
structure IsBetween (x y z : Nat × Nat) : Prop where
  overlap : x.1 < y.2 → y.1 < x.2 → z = (max x.1 y.1, min x.2 y.2)
  gapAfter : y.2 ≤ x.1 → z = (y.2, x.1)
  gapBefore : x.2 ≤ y.1 → z = (x.2, y.1)

/-- What the ends are is decided by how the intervals lie, and they come in order. -/
theorem Runner.between_isBetween {x y : Nat × Nat} (hx : x.1 ≤ x.2) (hy : y.1 ≤ y.2) :
    (between x y).1 ≤ (between x y).2 ∧ IsBetween x y (between x y) := by
  unfold between
  split
  · rename_i hafter
    refine ⟨hafter, fun _ _ => by omega, fun _ => rfl, fun hbefore => ?_⟩
    -- Both are the same empty interval.
    exact Prod.ext (by dsimp only; omega) (by dsimp only; omega)
  · split
    · rename_i hbefore
      exact ⟨hbefore, fun _ _ => by omega, fun _ => by omega, fun _ => rfl⟩
    · exact ⟨by dsimp only; omega, fun _ _ => rfl, fun _ => by omega, fun _ => by omega⟩

/-! ### Runs of calls -/

namespace RunnerStep

/-- What happened along all calls of a run and was not undone. -/
def trailOf (steps : List RunnerStep) : List (Nat × CaptureEvent) := steps.foldl record []

/-- Start and length of the captures that a slot has left after a run, the oldest first. -/
def leftIn (steps : List RunnerStep) (slot : Nat) : List (Nat × Nat) :=
  (stack (ofSlot (trailOf steps) slot)).reverse

end RunnerStep

namespace Runner

variable {r r₀ t : Runner} {n limit depth slot u a b : Nat} {steps : List RunnerStep} {c : Nat × Nat}
  {trail : List (Nat × CaptureEvent)} {text : String}

namespace Trails

/-- An undo finds an entry to drop. -/
theorem count_pos (h : r.Trails n limit trail) {rest : List Nat} (hcrawl : r.crawl = slot :: rest) :
    0 < r.captures.count slot := by
  cases trail with
  | nil => cases hcrawl.symm.trans h.crawl
  | cons e trail =>
    cases hcrawl.symm.trans h.crawl
    rw [h.tells.count_eq (h.slots e (List.mem_cons_self ..)), CaptureEvent.ofSlot_cons, Function.update_self]
    exact Nat.succ_pos _

/-- What is left is in the text. -/
theorem within_of_mem (h : r.Trails n limit trail) (hc : c ∈ stack (ofSlot trail slot)) : c.1 + c.2 ≤ limit := by
  obtain ⟨e, he, hadd⟩ := List.mem_map.mp (CaptureEvent.add_mem_of_mem_stack hc)
  exact h.within e.1 c (hadd ▸ (List.mem_filter.mp he).1)

theorem ofSlot_eq_nil (h : r.Trails n limit trail) (hslot : ¬ slot < n) : ofSlot trail slot = [] := by
  rw [ofSlot, List.map_eq_nil_iff, List.filter_eq_nil_iff]
  intro e he heq
  exact hslot (of_decide_eq_true heq ▸ h.slots e he)

/-- A slot reads as the last capture that it has left. -/
theorem current (h : r.Trails n limit trail) (slot : Nat) :
    r.captures.current slot = .ok (stack (ofSlot trail slot)).head? := by
  by_cases hslot : slot < n
  · cases hstack : stack (ofSlot trail slot) with
    | nil =>
      rw [Captures.current, if_neg fun hmatched => (h.tells.isMatched_iff hslot).mp hmatched hstack]
      rfl
    | cons top rest =>
      have hmatched := (h.tells.isMatched_iff hslot).mpr (by rw [hstack]; exact List.cons_ne_nil _ _)
      obtain ⟨hindex, hlength⟩ := h.tells.index_length hslot hstack
      rw [Captures.current, if_pos hmatched, hindex, hlength]
      rfl
  · rw [Captures.current, if_neg fun hmatched => hslot (h.tells.slot_lt_of_isMatched hmatched),
      h.ofSlot_eq_nil hslot]
    rfl

/-- After a capture the slot reads as what is between its ends, which may come in either order. -/
theorem capture_current (h : r.Trails n limit trail) (hlimit : 2 * limit < Word.modulus) (hslot : slot < n)
    (ha : a ≤ limit) (hb : b ≤ limit) :
    ∃ r' c, r.capture slot a b = .ok r' ∧ r'.captures.current slot = .ok (some c) ∧
      c.1 = min a b ∧ c.1 + c.2 = max a b := by
  obtain ⟨r', hcapture, htrails⟩ := h.capture hlimit hslot ha hb
  refine ⟨r', interval a b, hcapture, ?_, rfl, by simp only [interval]; omega⟩
  rw [htrails.current, CaptureEvent.ofSlot_cons, Function.update_self]
  rfl

/-- After a transfer the slot reads as what is between. -/
theorem transfer_current (h : r.Trails n limit trail) (hlimit : 2 * limit < Word.modulus) (hslot : slot < n)
    (ha : a ≤ limit) (hb : b ≤ limit) (hc : r.captures.current u = .ok (some c)) :
    ∃ r' d, r.transfer (some slot) u a b = .ok r' ∧ r'.captures.current slot = .ok (some d) ∧
      IsBetween (min a b, max a b) (c.1, c.1 + c.2) (d.1, d.1 + d.2) := by
  have hmatched : r.isMatched u = true := by
    by_contra hnot
    have hnone : r.captures.current u = .ok none := if_neg hnot
    cases hc.symm.trans hnone
  obtain ⟨top, rest, first, last, r', hstack, hbetween, htransfer, htrails⟩ :=
    h.transfer hlimit (fun _ hs => Option.some.inj hs ▸ hslot : ∀ s ∈ some slot, s < n) hmatched ha hb
  obtain rfl : top = c := by
    rw [h.current, hstack] at hc
    exact Option.some.inj (Except.ok.inj hc)
  obtain ⟨hle, hspec⟩ := between_isBetween (x := (min a b, max a b)) (y := (top.1, top.1 + top.2))
    (by dsimp only; omega) (by dsimp only; omega)
  rw [hbetween] at hle hspec
  refine ⟨r', (first, last - first), htransfer, ?_, ?_⟩
  · rw [htrails.current, Option.toList_some, List.map_singleton, List.singleton_append, CaptureEvent.ofSlot_cons,
      Function.update_self]
    rfl
  · rwa [Nat.add_sub_cancel' hle]

end Trails

/-! ### The groups of a match -/

/-- Every slot is made a group of, with its own number, name and captures. -/
theorem groupsFrom_mapIdx {spans : Nat → List (Nat × Nat)} {numbers : List Nat} (names : List String)
    (hspans : ∀ k, slot ≤ k → k < slot + numbers.length → r.captures.surviving k = .ok (spans k))
    (hwithin : ∀ k, ∀ c ∈ spans k, c.1 + c.2 ≤ r.text.size) :
    r.groupsFrom slot numbers names = .ok (numbers.mapIdx fun k number =>
      ⟨number, names.getD k "", (spans (slot + k)).map r.captured⟩) := by
  induction numbers generalizing slot names with
  | nil => rfl
  | cons number numbers ih =>
    have hfirst := group_ok (hspans slot (Nat.le_refl _) (by simp)) (hwithin slot) number (names.headD "")
    have hspans' : ∀ k, slot + 1 ≤ k → k < slot + 1 + numbers.length → r.captures.surviving k = .ok (spans k) :=
      fun k hk hlt => hspans k (by omega) (by rw [List.length_cons]; omega)
    have hrest := ih names.tail hspans'
    rw [groupsFrom, hfirst, hrest, List.mapIdx_cons]
    simp only [bind, Except.bind, Nat.add_assoc, Nat.add_comm 1]
    cases names <;> rfl

/-- What a capture holds, by the characters of the text. -/
theorem Over.captured_eq (h : r.Over text n) :
    r.captured = fun c => ⟨c.1, (text.toList.drop c.1).take c.2⟩ := by
  funext c
  rw [captured, h.chars]
  simp [List.take_drop]

/-- Only the captures change along a run. -/
theorem Trails.over (h : t.Trails n limit trail) (h₀ : r₀.Trails n limit []) (hover : r₀.Over text n)
    (hsteps : Stays 0 r₀ steps) (hall : r₀.performAll steps = .ok t) : t.Over text n := by
  have hdepth : r₀.crawlDepth = 0 := congrArg List.length h₀.crawl
  have hbottom : Above r₀ r₀ [] := ⟨rfl, .refl _, h₀.tells.whole, rfl⟩
  obtain ⟨more, habove⟩ := hbottom.performAll (hdepth ▸ hsteps) hall
  have hrest : t = { r₀ with crawl := t.crawl, captures := t.captures } := habove.rest
  refine ⟨?_, ?_, ?_, h.tells.size⟩ <;> rw [hrest]
  · exact hover.chars
  · exact hover.beg
  · exact hover.finish

end Runner

namespace Matcher

open RunnerStep (leftIn)

variable {m : Matcher} {text : String} {r : Runner} {steps : List RunnerStep}

/-- **Captures are intervals of the text.** An attempt makes captures, transfers and undos as they
may be made, with positions in the text. They all succeed, and what an undo drops is there. Every slot
reads as an interval of the text; one more capture is of what is between its ends, and one more
transfer is of what is common to the two intervals or between them. The match that is made of the
state has all groups, each with the parts of the text that its slot has left, the oldest first. -/
theorem matchOf_recorded (hstored : 4 * text.length ≤ Runner.maxStorage) (hover : r.Over text m.groupNumbers.length)
    (hsteps : Runner.Stays 0 r.reset steps) (hwithin : ∀ s ∈ steps, s.Within text.length) :
    ∃ t, r.reset.performAll steps = .ok t ∧
      (∀ slot rest, t.crawl = slot :: rest → 0 < t.captures.count slot) ∧
      (∀ slot, t.captures.current slot = .ok (leftIn steps slot).getLast? ∧
        ∀ c ∈ leftIn steps slot, c.1 + c.2 ≤ text.length) ∧
      (∀ slot a b, slot < m.groupNumbers.length → a ≤ text.length → b ≤ text.length →
        ∃ t' c, t.capture slot a b = .ok t' ∧ t'.captures.current slot = .ok (some c) ∧
          c.1 = min a b ∧ c.1 + c.2 = max a b) ∧
      (∀ slot u a b c, slot < m.groupNumbers.length → a ≤ text.length → b ≤ text.length →
        t.captures.current u = .ok (some c) →
        ∃ t' d, t.transfer (some slot) u a b = .ok t' ∧ t'.captures.current slot = .ok (some d) ∧
          IsBetween (min a b, max a b) (c.1, c.1 + c.2) (d.1, d.1 + d.2)) ∧
      m.matchOf t = .ok ⟨m.groupNumbers.mapIdx fun slot number => ⟨number, m.groupNames.getD slot "",
        (leftIn steps slot).map fun c => ⟨c.1, (text.toList.drop c.1).take c.2⟩⟩, t.pos⟩ := by
  have hlimit : 2 * text.length < Word.modulus := by
    simp only [Runner.maxStorage, Word.modulus] at *
    omega
  have hover₀ : r.reset.Over text m.groupNumbers.length :=
    ⟨hover.chars, hover.beg, hover.finish, by simp [Runner.reset, Captures.reset, Captures.ofSlots, hover.slots]⟩
  have h₀ : r.reset.Trails m.groupNumbers.length text.length [] :=
    .empty rfl (by rw [Runner.reset, Captures.reset, hover.slots])
  obtain ⟨t, hall, htrails⟩ := h₀.performAll_record hlimit hsteps hwithin
  have hovert := htrails.over h₀ hover₀ hsteps hall
  have hleft : ∀ slot, ∀ c ∈ leftIn steps slot, c.1 + c.2 ≤ text.length :=
    fun slot c hc => htrails.within_of_mem (List.mem_reverse.mp hc)
  refine ⟨t, hall, fun slot rest => htrails.count_pos, fun slot => ⟨?_, hleft slot⟩,
    fun slot a b => htrails.capture_current hlimit, fun slot u a b c => htrails.transfer_current hlimit, ?_⟩
  · rw [leftIn, List.getLast?_reverse]
    exact htrails.current slot
  · rw [matchOf, Runner.groupsFrom_mapIdx m.groupNames
      (fun k _ hk => htrails.tells.surviving (by omega : k < m.groupNumbers.length))
      (fun k c hc => by rw [hovert.size]; exact hleft k c hc), hovert.captured_eq]
    simp only [Nat.zero_add]
    rfl

/-- A matcher with a slot to take captures back from and one to transfer them to. -/
def paired : Matcher := Script.matcher ⟨none, []⟩ [0, 1, 4] ["0", "open", "inner"] false

/-- Two captures in slot 1 are taken back by transfers, given from the end to the start: one overlaps
the capture and one is apart from it. A third transfer is undone. -/
def pairedCalls : List RunnerStep :=
  [.capture 0 0 6, .capture 1 1 0, .capture 1 5 2, .transfer (some 2) 1 4 0, .transfer (some 2) 1 6 3,
    .capture 1 6 6, .transfer (some 2) 1 0 1, .uncapture, .uncapture]

theorem matchOf_recorded_paired :
    ∃ t, (paired.runner "abcdef").reset.performAll pairedCalls = .ok t ∧
      paired.matchOf t = .ok ⟨[⟨0, "0", [⟨0, "abcdef".toList⟩]⟩, ⟨1, "open", [⟨6, []⟩]⟩,
        ⟨4, "inner", [⟨2, ['c', 'd']⟩, ⟨1, ['b', 'c']⟩]⟩], 0⟩ := by
  have hsteps : Runner.Stays 0 (paired.runner "abcdef").reset pairedCalls :=
    .cons (by decide +kernel : 0 < 3) rfl (Nat.zero_le _) <|
    .cons (by decide +kernel : 1 < 3) rfl (Nat.zero_le _) <|
    .cons (by decide +kernel : 1 < 3) rfl (Nat.zero_le _) <|
    .cons ⟨by decide +kernel, by decide +kernel⟩ rfl (Nat.zero_le _) <|
    .cons ⟨by decide +kernel, by decide +kernel⟩ rfl (Nat.zero_le _) <|
    .cons (by decide +kernel : 1 < 3) rfl (Nat.zero_le _) <|
    .cons ⟨by decide +kernel, by decide +kernel⟩ rfl (Nat.zero_le _) <|
    .cons (List.cons_ne_nil _ _) rfl (Nat.zero_le _) <|
    .cons (List.cons_ne_nil _ _) rfl (Nat.zero_le _) trivial
  obtain ⟨t, hall, -, -, -, -, hmatch⟩ := matchOf_recorded (m := paired) (by decide) (.ofText "abcdef" 3) hsteps
    (by simp [pairedCalls, RunnerStep.Within]; decide)
  refine ⟨t, hall, hmatch.trans ?_⟩
  cases hall
  rfl

end Matcher

end PatternCompiler
