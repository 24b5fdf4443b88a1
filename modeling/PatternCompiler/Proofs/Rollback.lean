import PatternCompiler.Proofs.Balancing
import PatternCompiler.Proofs.Groups
import PatternCompiler.Proofs.Instructions
import PatternCompiler.Search.Script

/-! Captures are undone exactly.

A call adds entries to slots and puts their slots on the crawl. Nothing that it adds touches
the entries that are there already, so once it is undone the slots have the same entries
again (`Captures.Adds.recalls`), though words of dropped ones may be left behind them. Along
a run, the entries below a depth can be recalled by undoing what is above it
(`Runner.Above.performAll`).

Whether the same entries read the same is another matter: an entry may refer to words beyond
all entries if its position does not fit a word. All that happened to the captures and was
not undone is a trail: which slot, and whether a capture was added or taken back. If all
positions fit, a state `Trails` one (`Runner.Reachable.trails`), which decides what is read
(`Captures.Tells.reads_eq`), and every call that may be made succeeds.
`Runner.uncaptureTo_restores` puts both together, and `Runner.uncaptureTo_wrapped` is a state
with a position that does not fit. -/
namespace PatternCompiler

/-! ### Entries -/

namespace CaptureHistory

/-- What is added is dropped again. -/
theorem entries_remove_add {h : CaptureHistory} (hsize : h.entries.length = 2 * h.count) (index length : Int) :
    (h.add index length).remove.entries = h.entries := by
  rw [entries_remove, entries_add hsize]
  exact List.take_left' hsize

theorem add_of_balance? {h h' : CaptureHistory} (hbalance : h.balance? = some h') :
    ∃ index length, h' = h.add index length := by
  obtain ⟨k, -, hbalance⟩ := Option.bind_eq_some_iff.mp hbalance
  dsimp only at hbalance
  split at hbalance
  · exact ⟨_, _, (Option.some.inj hbalance).symm⟩
  · obtain ⟨index, -, hbalance⟩ := Option.bind_eq_some_iff.mp hbalance
    split at hbalance
    · exact ⟨_, _, (Option.some.inj hbalance).symm⟩
    · obtain ⟨length, -, hbalance⟩ := Option.bind_eq_some_iff.mp hbalance
      exact ⟨_, _, (Option.some.inj hbalance).symm⟩

end CaptureHistory

namespace Captures

variable {c c' c'' : Captures} {slot : Nat}

/-- Each entry has its two words. -/
def Whole (c : Captures) : Prop :=
  ∀ (slot : Nat) (h : CaptureHistory), c.histories[slot]? = some h → h.entries.length = 2 * h.count

/-- The other captures have one more entry in the slot, whatever its words. -/
structure Adds (c : Captures) (slot : Nat) (c' : Captures) : Prop where
  size : c'.histories.size = c.histories.size
  here : ∃ h index length, c.histories[slot]? = some h ∧ c'.histories[slot]? = some (h.add index length)
  elsewhere : ∀ k ≠ slot, c'.histories[k]? = c.histories[k]?
  balanced : c'.balanced = false → c.balanced = false

/-- The other captures have the same entries. They may remember that something was taken back. -/
structure Recalls (c c' : Captures) : Prop where
  size : c'.histories.size = c.histories.size
  history : ∀ {slot : Nat} {h : CaptureHistory}, c.histories[slot]? = some h →
    ∃ h', c'.histories[slot]? = some h' ∧ h'.count = h.count ∧ h'.entries = h.entries
  balanced : c'.balanced = false → c.balanced = false

theorem Recalls.refl (c : Captures) : c.Recalls c := ⟨rfl, fun hget => ⟨_, hget, rfl, rfl⟩, fun hb => hb⟩

theorem Recalls.trans (h : c.Recalls c') (h' : c'.Recalls c'') : c.Recalls c'' := by
  refine ⟨h'.size.trans h.size, fun hget => ?_, fun hb => h.balanced (h'.balanced hb)⟩
  obtain ⟨d, hd, hcount, hentries⟩ := h.history hget
  obtain ⟨d', hd', hcount', hentries'⟩ := h'.history hd
  exact ⟨d', hd', hcount'.trans hcount, hentries'.trans hentries⟩

theorem getElem?_remove (c : Captures) (slot k : Nat) :
    (c.remove slot).histories[k]? =
      if slot = k then c.histories[k]?.map CaptureHistory.remove else c.histories[k]? :=
  Array.getElem?_modify

/-- Captures with the same entries have the same entries after an undo. -/
theorem Recalls.remove (h : c.Recalls c') (slot : Nat) : (c.remove slot).Recalls (c'.remove slot) := by
  refine ⟨?_, fun {k d} hget => ?_, h.balanced⟩
  · rw [Captures.remove, Captures.remove, Array.size_modify, Array.size_modify, h.size]
  · rw [getElem?_remove] at hget ⊢
    by_cases hk : slot = k
    · rw [if_pos hk] at hget ⊢
      obtain ⟨e, he, rfl⟩ := Option.map_eq_some_iff.mp hget
      obtain ⟨e', he', hcount, hentries⟩ := h.history he
      refine ⟨e'.remove, by rw [he', Option.map_some], congrArg (· - 1) hcount, ?_⟩
      rw [CaptureHistory.entries_remove, CaptureHistory.entries_remove, hcount, hentries]
    · rw [if_neg hk] at hget ⊢
      exact h.history hget

theorem Recalls.foldl_remove (h : c.Recalls c') (slots : List Nat) :
    (slots.foldl Captures.remove c).Recalls (slots.foldl Captures.remove c') := by
  induction slots generalizing c c' with
  | nil => exact h
  | cons slot slots ih => exact ih (h.remove slot)

theorem Whole.remove (h : c.Whole) (slot : Nat) : (c.remove slot).Whole := by
  intro k d hget
  rw [getElem?_remove] at hget
  split at hget
  · obtain ⟨e, he, rfl⟩ := Option.map_eq_some_iff.mp hget
    rw [CaptureHistory.entries_remove, List.length_take, h k e he, CaptureHistory.remove]
    dsimp only
    omega
  · exact h k d hget

namespace Adds

theorem of_modify {d : CaptureHistory} {f : CaptureHistory → CaptureHistory} {index length : Int} {balanced : Bool}
    (hget : c.histories[slot]? = some d) (hf : f d = d.add index length)
    (hbalanced : balanced = false → c.balanced = false) : c.Adds slot ⟨c.histories.modify slot f, balanced⟩ := by
  refine ⟨Array.size_modify, ⟨d, index, length, hget, ?_⟩, fun k hk => ?_, hbalanced⟩
  · rw [Array.getElem?_modify, if_pos rfl, hget, Option.map_some, hf]
  · rw [Array.getElem?_modify, if_neg (Ne.symm hk)]

theorem of_add {index length : Nat} (h : c.add slot index length = .ok c') : c.Adds slot c' := by
  rw [Captures.add] at h
  split at h
  · rename_i hslot
    cases h
    exact of_modify (Array.getElem?_eq_getElem hslot) rfl fun hb => hb
  · cases h

theorem of_balance (h : c.balance slot = .ok c') : c.Adds slot c' := by
  obtain ⟨d', hread, h⟩ := exists_ok_of_bind h
  obtain ⟨d, hget, hbalance⟩ : ∃ d, c.histories[slot]? = some d ∧ d.balance? = some d' := by
    rw [read] at hread
    split at hread
    · rename_i hbind
      cases hread
      exact Option.bind_eq_some_iff.mp hbind
    · cases hread
  obtain ⟨index, length, hadd⟩ := CaptureHistory.add_of_balance? hbalance
  cases h
  exact of_modify hget hadd fun hb => by cases hb

theorem whole (h : c.Adds slot c') (hc : c.Whole) : c'.Whole := by
  intro k d hget
  obtain ⟨e, index, length, he, he'⟩ := h.here
  by_cases hk : k = slot
  · subst hk
    cases hget.symm.trans he'
    rw [CaptureHistory.entries_add (hc k e he), List.length_append, hc k e he]
    rfl
  · rw [h.elsewhere k hk] at hget
    exact hc k d hget

/-- Undone, the entry leaves those that were there. -/
theorem recalls (h : c.Adds slot c') (hc : c.Whole) : c.Recalls (c'.remove slot) := by
  refine ⟨?_, fun {k d} hget => ?_, h.balanced⟩
  · rw [Captures.remove, Array.size_modify, h.size]
  · rw [getElem?_remove]
    obtain ⟨e, index, length, he, he'⟩ := h.here
    by_cases hk : k = slot
    · subst hk
      cases hget.symm.trans he
      refine ⟨(d.add index length).remove, by rw [if_pos rfl, he']; rfl, rfl, ?_⟩
      exact CaptureHistory.entries_remove_add (hc k d he) index length
    · exact ⟨d, by rw [if_neg (Ne.symm hk), h.elsewhere k hk, hget], rfl, rfl⟩

end Adds

end Captures

/-! ### What is read from a slot -/

namespace CaptureHistory

/-- If nothing is left, the words of the last entry stand for none. -/
theorem Tells.deref_none {h : CaptureHistory} {es : List CaptureEvent} (ht : h.Tells es)
    (hstack : CaptureEvent.stack es = []) : h.deref? h.last = none ∧ h.deref? (h.last + 1) = none := by
  have hbefore : ∀ k : Int, k < 0 → h.word? k = none := fun k hk => if_pos hk
  cases es with
  | nil =>
    have hlast : h.last = -2 := by rw [last, ht.count]; rfl
    simp [deref?, hlast, hbefore]
  | cons e es =>
    cases e with
    | add c => cases hstack
    | balance =>
      -- Both words refer to places before the first.
      obtain ⟨hindex, hlength⟩ := ht.words_at (List.suffix_refl _)
      have hplace := CaptureEvent.place_nil hstack
      rw [← ht.last_eq, CaptureEvent.entry, hplace] at hindex hlength
      simp [deref?, hindex, hlength, hbefore]

end CaptureHistory

namespace Captures

open CaptureEvent (stack)

variable {n slot : Nat} {log : Nat → List CaptureEvent} {c c' : Captures}

theorem Tells.index_length_none (hc : c.Tells n log) (hslot : slot < n) (hstack : stack (log slot) = []) :
    c.index slot = .error (.noCapture slot) ∧ c.length slot = .error (.noCapture slot) := by
  obtain ⟨h, hget, ht⟩ := hc.tells slot hslot
  obtain ⟨hindex, hlength⟩ := ht.deref_none hstack
  constructor
  · rw [index, read, hget, Option.bind_some, CaptureHistory.index?, hindex]
    rfl
  · rw [length, read, hget, Option.bind_some, CaptureHistory.length?, hlength]
    rfl

/-- The events of the slots decide all that can be read. -/
theorem Tells.reads_eq (hc : c.Tells n log) (hc' : c'.Tells n log) (slot : Nat) :
    c.isMatched slot = c'.isMatched slot ∧ c.index slot = c'.index slot ∧ c.length slot = c'.length slot ∧
      c.surviving slot = c'.surviving slot := by
  by_cases hslot : slot < n
  · have hmatched : c.isMatched slot = c'.isMatched slot :=
      Bool.eq_iff_iff.mpr ((hc.isMatched_iff hslot).trans (hc'.isMatched_iff hslot).symm)
    have hsurviving : c.surviving slot = c'.surviving slot :=
      (hc.surviving hslot).trans (hc'.surviving hslot).symm
    cases hstack : stack (log slot) with
    | nil =>
      obtain ⟨hindex, hlength⟩ := hc.index_length_none hslot hstack
      obtain ⟨hindex', hlength'⟩ := hc'.index_length_none hslot hstack
      exact ⟨hmatched, hindex.trans hindex'.symm, hlength.trans hlength'.symm, hsurviving⟩
    | cons top rest =>
      obtain ⟨hindex, hlength⟩ := hc.index_length hslot hstack
      obtain ⟨hindex', hlength'⟩ := hc'.index_length hslot hstack
      exact ⟨hmatched, hindex.trans hindex'.symm, hlength.trans hlength'.symm, hsurviving⟩
  · simp only [isMatched, index, length, Captures.surviving, read, Array.getD_eq_getD_getElem?,
      hc.histories_none hslot, hc'.histories_none hslot, Option.bind_none, and_self]

/-- What has a start has something left. -/
theorem Tells.isMatched_of_index (hc : c.Tells n log) {i : Nat} (h : c.index slot = .ok i) :
    c.isMatched slot = true := by
  by_cases hslot : slot < n
  · refine (hc.isMatched_iff hslot).mpr fun hstack => ?_
    cases h.symm.trans (hc.index_length_none hslot hstack).1
  · rw [index, read, hc.histories_none hslot] at h
    cases h

/-- The same entries tell the same. -/
theorem Tells.of_recalls (hc : c.Tells n log) (h : c.Recalls c') : c'.Tells n log := by
  refine ⟨h.size.trans hc.size, fun slot hslot => ?_, fun hb => hc.unbalanced (h.balanced hb)⟩
  obtain ⟨d, hget, ht⟩ := hc.tells slot hslot
  obtain ⟨d', hget', hcount, hentries⟩ := h.history hget
  exact ⟨d', hget', hcount.trans ht.count, hentries.trans ht.entries, ht.proper⟩

theorem Tells.whole (hc : c.Tells n log) : c.Whole := by
  intro slot h hget
  have hslot : slot < n := hc.size ▸ (Array.getElem?_eq_some_iff.mp hget).1
  obtain ⟨h', hget', ht⟩ := hc.tells slot hslot
  cases hget.symm.trans hget'
  exact ht.entries_length

end Captures

/-! ### The trail -/

namespace CaptureEvent

/-- What happened to one slot, of all that happened. -/
def ofSlot (trail : List (Nat × CaptureEvent)) (slot : Nat) : List CaptureEvent :=
  (trail.filter (·.1 = slot)).map (·.2)

theorem ofSlot_cons (e : Nat × CaptureEvent) (trail : List (Nat × CaptureEvent)) :
    ofSlot (e :: trail) = Function.update (ofSlot trail) e.1 (e.2 :: ofSlot trail e.1) := by
  funext slot
  by_cases h : slot = e.1
  · subst h
    simp [ofSlot]
  · simp [ofSlot, Function.update_of_ne h, Ne.symm h]

/-- Without the last event of its slot, the trail is the one before. -/
theorem update_ofSlot_cons (e : Nat × CaptureEvent) (trail : List (Nat × CaptureEvent)) :
    Function.update (ofSlot (e :: trail)) e.1 (ofSlot (e :: trail) e.1).tail = ofSlot trail := by
  rw [ofSlot_cons, Function.update_self, List.tail_cons, Function.update_idem, Function.update_eq_self]

end CaptureEvent

namespace Runner

open CaptureEvent (stack ofSlot)

/-- The crawl and the captures are what the trail tells, and no capture ends beyond `limit`. -/
structure Trails (r : Runner) (n limit : Nat) (trail : List (Nat × CaptureEvent)) : Prop where
  crawl : r.crawl = trail.map (·.1)
  tells : r.captures.Tells n (ofSlot trail)
  slots : ∀ e ∈ trail, e.1 < n
  within : ∀ slot c, (slot, .add c) ∈ trail → c.1 + c.2 ≤ limit

variable {r r' : Runner} {n limit slot u a b : Nat} {into : Option Nat} {trail : List (Nat × CaptureEvent)}

/-- What a transfer does: it takes a capture back and may make another one. -/
theorem exists_of_transfer (h : r.transfer into u a b = .ok r') :
    ∃ index d, r.captures.index u = .ok index ∧ r.captures.balance u = .ok d ∧
      ((into = none ∧ r' = { r with crawl := u :: r.crawl, captures := d }) ∨
        ∃ slot first length d', into = some slot ∧ d.add slot first length = .ok d' ∧
          r' = { r with crawl := slot :: u :: r.crawl, captures := d' }) := by
  obtain ⟨index, hindex, h⟩ := exists_ok_of_bind h
  obtain ⟨length, -, h⟩ := exists_ok_of_bind h
  obtain ⟨finish, -, h⟩ := exists_ok_of_bind h
  obtain ⟨d, hbalance, h⟩ := exists_ok_of_bind h
  refine ⟨index, d, hindex, hbalance, ?_⟩
  cases into with
  | none => exact .inl ⟨rfl, (Except.ok.inj h).symm⟩
  | some slot =>
    obtain ⟨d', hadd, h⟩ := exists_ok_of_bind h
    exact .inr ⟨slot, _, _, d', rfl, hadd, (Except.ok.inj h).symm⟩

/-- What is between two intervals is an interval within the same limit. -/
theorem between_within {x y : Nat × Nat} (hx : x.1 ≤ x.2) (hx' : x.2 ≤ limit) (hy : y.1 ≤ y.2)
    (hy' : y.2 ≤ limit) : (between x y).1 + ((between x y).2 - (between x y).1) ≤ limit := by
  unfold between
  split
  · omega
  · split <;> omega

namespace Trails

/-- No captures, nothing to undo. -/
theorem empty (hcrawl : r.crawl = []) (hcaptures : r.captures = .ofSlots n) : r.Trails n limit [] :=
  ⟨hcrawl, hcaptures ▸ .ofSlots n, fun _ h => (List.not_mem_nil h).elim, fun _ _ h => (List.not_mem_nil h).elim⟩

theorem of_eq (h : r.Trails n limit trail) (hcrawl : r'.crawl = r.crawl) (hcaptures : r'.captures = r.captures) :
    r'.Trails n limit trail :=
  ⟨hcrawl.trans h.crawl, hcaptures ▸ h.tells, h.slots, h.within⟩

/-- What a slot reads as is a capture that ends within the limit. -/
theorem top (h : r.Trails n limit trail) (hmatched : r.isMatched u = true) :
    ∃ top rest, stack (ofSlot trail u) = top :: rest ∧ u < n ∧ top.1 + top.2 ≤ limit := by
  have hu := h.tells.slot_lt_of_isMatched hmatched
  obtain ⟨top, rest, hstack⟩ := List.exists_cons_of_ne_nil ((h.tells.isMatched_iff hu).mp hmatched)
  have hadded := CaptureEvent.add_mem_of_mem_stack (hstack ▸ List.mem_cons_self .. : top ∈ stack (ofSlot trail u))
  obtain ⟨e, he, hadd⟩ := List.mem_map.mp hadded
  exact ⟨top, rest, hstack, hu, h.within e.1 top (hadd ▸ (List.mem_filter.mp he).1)⟩

/-! ### Single calls -/

theorem push (h : r.Trails n limit trail) {e : CaptureEvent} {d : Captures} (hslot : slot < n)
    (hwithin : ∀ c, e = .add c → c.1 + c.2 ≤ limit)
    (htells : d.Tells n (Function.update (ofSlot trail) slot (e :: ofSlot trail slot))) :
    { r with crawl := slot :: r.crawl, captures := d }.Trails n limit ((slot, e) :: trail) := by
  refine ⟨by rw [h.crawl]; rfl, ?_, List.forall_mem_cons.mpr ⟨hslot, h.slots⟩, fun s c hc => ?_⟩
  · rwa [CaptureEvent.ofSlot_cons]
  · rcases List.mem_cons.mp hc with hc | hc
    · exact hwithin c (Prod.ext_iff.mp hc).2.symm
    · exact h.within s c hc

/-- One more capture. -/
theorem add (h : r.Trails n limit trail) (hlimit : 2 * limit < Word.modulus) (hslot : slot < n) {c : Nat × Nat}
    (hc : c.1 + c.2 ≤ limit) :
    ∃ d, r.captures.add slot c.1 c.2 = .ok d ∧
      { r with crawl := slot :: r.crawl, captures := d }.Trails n limit ((slot, .add c) :: trail) := by
  obtain ⟨d, hadd, htells⟩ :=
    h.tells.add hslot (by omega : 2 * c.1 < Word.modulus) (by omega : 2 * c.2 < Word.modulus)
  refine ⟨d, hadd, h.push hslot (fun c' hc' => ?_) htells⟩
  cases hc'
  exact hc

theorem capture (h : r.Trails n limit trail) (hlimit : 2 * limit < Word.modulus) (hslot : slot < n)
    (ha : a ≤ limit) (hb : b ≤ limit) :
    ∃ r', r.capture slot a b = .ok r' ∧ r'.Trails n limit ((slot, .add (interval a b)) :: trail) := by
  have hend : (interval a b).1 + (interval a b).2 ≤ limit := by
    simp only [interval]
    omega
  obtain ⟨d, hadd, htrails⟩ := h.add hlimit hslot hend
  refine ⟨_, ?_, htrails⟩
  unfold interval at hadd
  rw [Runner.capture, hadd]
  rfl

/-- A transfer takes the capture on top back and may make one of what is between. -/
theorem transfer (h : r.Trails n limit trail) (hlimit : 2 * limit < Word.modulus) (hinto : ∀ slot ∈ into, slot < n)
    (hmatched : r.isMatched u = true) (ha : a ≤ limit) (hb : b ≤ limit) :
    ∃ top rest first last r', stack (ofSlot trail u) = top :: rest ∧
      between (min a b, max a b) (top.1, top.1 + top.2) = (first, last) ∧
      r.transfer into u a b = .ok r' ∧ r'.Trails n limit
        (into.toList.map (fun slot => (slot, .add (first, last - first))) ++ (u, .balance) :: trail) := by
  obtain ⟨top, rest, hstack, hu, hend⟩ := h.top hmatched
  obtain ⟨hindex, hlength⟩ := h.tells.index_length hu hstack
  obtain ⟨d, hbalance, htells⟩ := h.tells.balance hmatched
  have htrails := h.push hu (fun c hc => by cases hc) htells
  obtain ⟨first, last, hbetween⟩ : ∃ first last,
      between (min a b, max a b) (top.1, top.1 + top.2) = (first, last) := ⟨_, _, rfl⟩
  refine ⟨top, rest, first, last, ?_⟩
  cases into with
  | none =>
    refine ⟨_, hstack, hbetween, ?_, htrails⟩
    simp [Runner.transfer, hindex, hlength, Word.after_of_lt (by omega : top.1 + top.2 < Word.modulus), hbalance,
      bind, Except.bind]
  | some slot =>
    have hwithin : first + (last - first) ≤ limit := by
      have := between_within (x := (min a b, max a b)) (y := (top.1, top.1 + top.2)) (by dsimp only; omega)
        (by dsimp only; omega) (by dsimp only; omega) hend
      rwa [hbetween] at this
    obtain ⟨d', hadd, htrails'⟩ := htrails.add hlimit (hinto slot rfl) (c := (first, last - first)) hwithin
    refine ⟨_, hstack, hbetween, ?_, htrails'⟩
    simp [Runner.transfer, hindex, hlength, Word.after_of_lt (by omega : top.1 + top.2 < Word.modulus), hbetween,
      hbalance, hadd, bind, Except.bind]

/-- A transfer that succeeds has something to take back, and where to put it. -/
theorem matched_of_transfer (h : r.Trails n limit trail) (htransfer : r.transfer into u a b = .ok r') :
    r.isMatched u = true ∧ ∀ slot ∈ into, slot < n := by
  obtain ⟨index, d, hindex, hbalance, hcases⟩ := exists_of_transfer htransfer
  have hmatched := h.tells.isMatched_of_index hindex
  obtain ⟨d', hbalance', htells⟩ := h.tells.balance hmatched
  cases hbalance.symm.trans hbalance'
  refine ⟨hmatched, fun slot hslot => ?_⟩
  obtain ⟨rfl, -⟩ | ⟨slot', first, length, d'', rfl, hadd, -⟩ := hcases
  · cases hslot
  · cases hslot
    exact htells.slot_lt_of_add hadd

theorem uncapture {e : Nat × CaptureEvent} (h : r.Trails n limit (e :: trail)) :
    ∃ r', r.uncapture = .ok r' ∧ r'.Trails n limit trail := by
  have hcrawl : r.crawl = e.1 :: trail.map (·.1) := h.crawl
  have hcount : 0 < r.captures.count e.1 := by
    rw [h.tells.count_eq (h.slots e (List.mem_cons_self ..)), CaptureEvent.ofSlot_cons, Function.update_self]
    exact Nat.succ_pos _
  have htells := h.tells.remove hcount
  rw [CaptureEvent.update_ofSlot_cons] at htells
  refine ⟨{ r with crawl := trail.map (·.1), captures := r.captures.remove e.1 }, ?_, rfl, htells, ?_, ?_⟩
  · rw [Runner.uncapture, hcrawl]
  · exact fun e' he' => h.slots e' (List.mem_cons_of_mem _ he')
  · exact fun s c hc => h.within s c (List.mem_cons_of_mem _ hc)

end Trails

end Runner

/-! ### Calls -/

namespace RunnerStep

/-- A call that changes the captures and may be made: the slots exist, and what is taken back or
undone is there. -/
def Allowed (r : Runner) : RunnerStep → Prop
  | .capture slot _ _ => slot < r.captures.histories.size
  | .transfer into u _ _ => (∀ slot ∈ into, slot < r.captures.histories.size) ∧ r.isMatched u = true
  | .uncapture => r.crawl ≠ []
  | _ => False

/-- What a call captures is within a limit. -/
def Within (limit : Nat) : RunnerStep → Prop
  | .capture _ a b => a ≤ limit ∧ b ≤ limit
  | .transfer _ _ a b => a ≤ limit ∧ b ≤ limit
  | _ => True

open CaptureEvent (stack ofSlot)

/-- The trail after one more call. A transfer looks at the capture that it takes back. -/
def record (trail : List (Nat × CaptureEvent)) : RunnerStep → List (Nat × CaptureEvent)
  | .capture slot a b => (slot, .add (interval a b)) :: trail
  | .transfer into u a b =>
    let top := (stack (ofSlot trail u)).headD (0, 0)
    let inner := Runner.between (min a b, max a b) (top.1, top.1 + top.2)
    into.toList.map (fun slot => (slot, .add (inner.1, inner.2 - inner.1))) ++ (u, .balance) :: trail
  | .uncapture => trail.tail
  | _ => trail

end RunnerStep

namespace Runner

variable {r r' t t' : Runner} {n limit depth slot : Nat} {s : RunnerStep} {steps : List RunnerStep}
  {reply : StepReply} {trail : List (Nat × CaptureEvent)} {more : List Nat}

/-- The states of a search with `n` slots in which captures are made of positions up to `limit`.
Besides the captures, anything may change at any time. -/
inductive Reachable (n limit : Nat) : Runner → Prop where
  | start (text : String) : Reachable n limit (.ofText text n)
  | capture {r r' : Runner} (h : Reachable n limit r) (slot a b : Nat) (ha : a ≤ limit) (hb : b ≤ limit)
      (hcapture : r.capture slot a b = .ok r') : Reachable n limit r'
  | transfer {r r' : Runner} (h : Reachable n limit r) (into : Option Nat) (u a b : Nat) (ha : a ≤ limit)
      (hb : b ≤ limit) (htransfer : r.transfer into u a b = .ok r') : Reachable n limit r'
  | uncapture {r r' : Runner} (h : Reachable n limit r) (huncapture : r.uncapture = .ok r') : Reachable n limit r'
  | reset {r : Runner} (h : Reachable n limit r) : Reachable n limit r.reset
  | other {r : Runner} (h : Reachable n limit r) (r' : Runner) (hcrawl : r'.crawl = r.crawl)
      (hcaptures : r'.captures = r.captures) : Reachable n limit r'

/-- All calls are allowed when they are made, and none leaves the crawl below the depth. -/
def Stays (depth : Nat) : Runner → List RunnerStep → Prop
  | _, [] => True
  | r, s :: rest => s.Allowed r ∧
    ∀ reply r', r.perform s = .ok (reply, r') → depth ≤ r'.crawlDepth ∧ Stays depth r' rest

theorem Stays.cons (hs : s.Allowed r) (hperform : r.perform s = .ok (reply, r')) (hdepth : depth ≤ r'.crawlDepth)
    (hsteps : Stays depth r' steps) : Stays depth r (s :: steps) := by
  refine ⟨hs, fun reply' r'' h => ?_⟩
  cases hperform.symm.trans h
  exact ⟨hdepth, hsteps⟩

/-- With positions that fit, what may be called succeeds, and leaves its trail. -/
theorem Trails.perform_record (h : r.Trails n limit trail) (hlimit : 2 * limit < Word.modulus) (hs : s.Allowed r)
    (hwithin : s.Within limit) :
    ∃ reply r', r.perform s = .ok (reply, r') ∧ r'.Trails n limit (s.record trail) := by
  have hsize := h.tells.size
  cases s with
  | capture slot a b =>
    obtain ⟨r', hcapture, htrails⟩ := h.capture hlimit (hsize ▸ hs : slot < n) hwithin.1 hwithin.2
    refine ⟨.nothing, r', ?_, htrails⟩
    rw [Runner.perform, hcapture]
    rfl
  | transfer into u a b =>
    obtain ⟨hinto, hmatched⟩ := hs
    obtain ⟨top, rest, first, last, r', hstack, hbetween, htransfer, htrails⟩ :=
      h.transfer hlimit (hsize ▸ hinto) hmatched hwithin.1 hwithin.2
    refine ⟨.nothing, r', ?_, ?_⟩
    · rw [Runner.perform, htransfer]
      rfl
    · rw [RunnerStep.record, hstack, List.headD_cons]
      simp only [hbetween]
      exact htrails
  | uncapture =>
    obtain ⟨e, trail, rfl⟩ : ∃ e trail', trail = e :: trail' :=
      List.exists_cons_of_ne_nil fun hnil => hs (by rw [h.crawl, hnil]; rfl)
    obtain ⟨r', huncapture, htrails⟩ := h.uncapture
    refine ⟨.nothing, r', ?_, htrails⟩
    rw [Runner.perform, huncapture]
    rfl
  | _ => exact hs.elim

/-- The calls of a run take the trail along. -/
theorem Trails.performAll_record (h : r.Trails n limit trail) (hlimit : 2 * limit < Word.modulus)
    (hsteps : Stays depth r steps) (hwithin : ∀ s ∈ steps, s.Within limit) :
    ∃ t, r.performAll steps = .ok t ∧ t.Trails n limit (steps.foldl RunnerStep.record trail) := by
  induction steps generalizing r trail with
  | nil => exact ⟨r, rfl, h⟩
  | cons s steps ih =>
    obtain ⟨hs, hrest⟩ := hsteps
    obtain ⟨hfirst, hwithin⟩ := List.forall_mem_cons.mp hwithin
    obtain ⟨reply, r₁, hperform, htrails⟩ := h.perform_record hlimit hs hfirst
    obtain ⟨t, hall, htrails'⟩ := ih htrails (hrest reply r₁ hperform).2 hwithin
    refine ⟨t, ?_, htrails'⟩
    rw [Runner.performAll, hperform]
    exact hall

theorem Trails.performAll (h : r.Trails n limit trail) (hlimit : 2 * limit < Word.modulus)
    (hsteps : Stays depth r steps) (hwithin : ∀ s ∈ steps, s.Within limit) : ∃ t, r.performAll steps = .ok t := by
  obtain ⟨t, hall, _⟩ := h.performAll_record hlimit hsteps hwithin
  exact ⟨t, hall⟩

/-- Every state has a trail. -/
theorem Reachable.trails (h : Reachable n limit r) (hlimit : 2 * limit < Word.modulus) :
    ∃ trail, r.Trails n limit trail := by
  induction h with
  | start text => exact ⟨[], .empty rfl rfl⟩
  | capture _ slot a b ha hb hcapture ih =>
    obtain ⟨trail, htrails⟩ := ih
    have hslot : slot < n := by
      obtain ⟨d, hadd, -⟩ := exists_ok_of_bind hcapture
      exact htrails.tells.slot_lt_of_add hadd
    obtain ⟨r'', hcapture', htrails'⟩ := htrails.capture hlimit hslot ha hb
    cases hcapture.symm.trans hcapture'
    exact ⟨_, htrails'⟩
  | transfer _ into u a b ha hb htransfer ih =>
    obtain ⟨trail, htrails⟩ := ih
    obtain ⟨hmatched, hinto⟩ := htrails.matched_of_transfer htransfer
    obtain ⟨_, _, _, _, r'', _, _, htransfer', htrails'⟩ := htrails.transfer hlimit hinto hmatched ha hb
    cases htransfer.symm.trans htransfer'
    exact ⟨_, htrails'⟩
  | uncapture _ huncapture ih =>
    obtain ⟨trail, htrails⟩ := ih
    cases trail with
    | nil =>
      rw [Runner.uncapture, htrails.crawl] at huncapture
      cases huncapture
    | cons e trail =>
      obtain ⟨r'', huncapture', htrails'⟩ := htrails.uncapture
      cases huncapture.symm.trans huncapture'
      exact ⟨trail, htrails'⟩
  | reset _ ih =>
    obtain ⟨trail, htrails⟩ := ih
    refine ⟨[], .empty rfl ?_⟩
    rw [← htrails.tells.size]
    rfl
  | other _ r' hcrawl hcaptures ih =>
    obtain ⟨trail, htrails⟩ := ih
    exact ⟨trail, htrails.of_eq hcrawl hcaptures⟩

/-! ### Undoing a run -/

/-- All but the captures and their crawl is the same. -/
def KeepsRest (r r' : Runner) : Prop := r' = { r with crawl := r'.crawl, captures := r'.captures }

theorem KeepsRest.intro (r : Runner) (crawl : List Nat) (captures : Captures) :
    r.KeepsRest { r with crawl := crawl, captures := captures } := rfl

theorem KeepsRest.trans {r'' : Runner} (h : r.KeepsRest r') (h' : r'.KeepsRest r'') : r.KeepsRest r'' := by
  unfold KeepsRest at *
  rw [h', h]

/-- The slots `more` have entries above those of `r`, which can be recalled. -/
structure Above (r t : Runner) (more : List Nat) : Prop where
  crawl : t.crawl = more ++ r.crawl
  recalls : r.captures.Recalls (more.foldl Captures.remove t.captures)
  whole : t.captures.Whole
  rest : r.KeepsRest t

namespace Above

theorem push (h : Above r t more) {d : Captures} (hadds : t.captures.Adds slot d) :
    Above r { t with crawl := slot :: t.crawl, captures := d } (slot :: more) where
  crawl := by rw [h.crawl, List.cons_append]
  recalls := h.recalls.trans ((hadds.recalls h.whole).foldl_remove more)
  whole := hadds.whole h.whole
  rest := h.rest.trans (.intro ..)

theorem pop (h : Above r t (slot :: more)) :
    Above r { t with crawl := more ++ r.crawl, captures := t.captures.remove slot } more where
  crawl := rfl
  recalls := h.recalls
  whole := h.whole.remove slot
  rest := h.rest.trans (.intro ..)

/-- A call only adds entries, or undoes one of those above. -/
theorem perform (h : Above r t more) (hs : s.Allowed t) (hperform : t.perform s = .ok (reply, t'))
    (hdepth : r.crawlDepth ≤ t'.crawlDepth) : ∃ more', Above r t' more' := by
  cases s with
  | capture slot a b =>
    obtain ⟨t₁, hcapture, hperform⟩ := exists_ok_of_bind hperform
    obtain ⟨d, hadd, hcapture⟩ := exists_ok_of_bind hcapture
    cases hcapture
    cases hperform
    exact ⟨_, h.push (.of_add hadd)⟩
  | transfer into u a b =>
    obtain ⟨t₁, htransfer, hperform⟩ := exists_ok_of_bind hperform
    obtain ⟨index, d, -, hbalance, hcases⟩ := exists_of_transfer htransfer
    cases hperform
    have habove := h.push (.of_balance hbalance)
    obtain ⟨-, rfl⟩ | ⟨slot, first, length, d', -, hadd, rfl⟩ := hcases
    · exact ⟨_, habove⟩
    · exact ⟨_, habove.push (.of_add hadd)⟩
  | uncapture =>
    obtain ⟨t₁, huncapture, hperform⟩ := exists_ok_of_bind hperform
    cases hperform
    cases more with
    | nil =>
      -- Nothing is above, so the crawl would fall below the depth.
      obtain ⟨slot, rest, hcrawl⟩ := List.exists_cons_of_ne_nil hs
      rw [Runner.uncapture, hcrawl] at huncapture
      cases huncapture
      have hlength : r.crawl.length = rest.length + 1 := by
        rw [← h.crawl.trans (List.nil_append _), hcrawl, List.length_cons]
      have hfall : r.crawl.length ≤ rest.length := hdepth
      omega
    | cons slot more =>
      rw [Runner.uncapture, h.crawl] at huncapture
      cases huncapture
      exact ⟨more, h.pop⟩
  | _ => exact hs.elim

theorem performAll (h : Above r t more) (hsteps : Stays r.crawlDepth t steps) (hall : t.performAll steps = .ok t') :
    ∃ more', Above r t' more' := by
  induction steps generalizing t more with
  | nil =>
    cases hall
    exact ⟨more, h⟩
  | cons s steps ih =>
    obtain ⟨hs, hrest⟩ := hsteps
    obtain ⟨p, hperform, hall⟩ := exists_ok_of_bind hall
    obtain ⟨hdepth, hrest⟩ := hrest p.1 p.2 hperform
    obtain ⟨more₁, habove⟩ := h.perform hs hperform hdepth
    exact ih habove hrest hall

end Above

/-- **Captures roll back exactly.** Whatever captures, transfers and undos are made above the crawl of
a state, undoing down to it gives each slot what it read as and what it keeps in the end; and neither
the text and its bounds nor the other stacks are touched. The captures of the state itself are of
positions that fit a word, as all of a text do; calls with such positions do not fault. -/
theorem uncaptureTo_restores (hlimit : 2 * limit < Word.modulus) (hr : Reachable n limit r)
    (hsteps : Stays r.crawlDepth r steps) :
    (∀ t, r.performAll steps = .ok t → ∃ u, t.uncaptureTo r.crawlDepth = .ok u ∧ u.crawl = r.crawl ∧
      (∀ slot, u.isMatched slot = r.isMatched slot ∧ u.captures.index slot = r.captures.index slot ∧
        u.captures.length slot = r.captures.length slot ∧
        u.captures.surviving slot = r.captures.surviving slot) ∧
      r.KeepsRest t ∧ r.KeepsRest u) ∧
    ((∀ s ∈ steps, s.Within limit) → ∃ t, r.performAll steps = .ok t) := by
  obtain ⟨trail, htrails⟩ := hr.trails hlimit
  refine ⟨fun t hall => ?_, htrails.performAll hlimit hsteps⟩
  have hbottom : Above r r [] := ⟨rfl, .refl _, htrails.tells.whole, rfl⟩
  obtain ⟨more, habove⟩ := hbottom.performAll hsteps hall
  refine ⟨_, uncaptureTo_append more habove.crawl, rfl, ?_, habove.rest, habove.rest.trans (.intro ..)⟩
  exact (htrails.tells.of_recalls habove.recalls).reads_eq htrails.tells

/-- A slot with two captures. -/
def doubled : Runner :=
  { ofText "abcdef" 2 with
    crawl := [1, 1], captures := { histories := #[{}, { words := #[0, 3, 4, 2], count := 2 }] } }

/-- The last capture is moved within its slot, another slot captures and is undone, and all that the
slot has left is taken back. -/
def moves : List RunnerStep :=
  [.transfer (some 1) 1 5 1, .capture 0 1 4, .uncapture, .transfer none 1 0 0, .transfer none 1 2 2]

theorem uncaptureTo_restores_doubled :
    Reachable 2 6 doubled ∧ Stays 2 doubled moves ∧
      ∃ t u, doubled.performAll moves = .ok t ∧ t.isMatched 1 = false ∧ t.captures.balanced = true ∧
        t.uncaptureTo 2 = .ok u ∧ u.captures.index 1 = .ok 4 ∧ u.captures.length 1 = .ok 2 ∧
        u.captures.surviving 1 = .ok [(0, 3), (4, 2)] := by
  have hr : Reachable 2 6 doubled :=
    ((Reachable.start "abcdef").capture 1 0 3 (by decide) (by decide) rfl).capture 1 6 4 (by decide)
      (by decide) rfl
  have hsteps : Stays 2 doubled moves :=
    .cons ⟨by decide, by decide +kernel⟩ rfl (by decide +kernel) <|
    .cons (by decide : 0 < 2) rfl (by decide +kernel) <|
    .cons (List.cons_ne_nil _ _) rfl (by decide +kernel) <|
    .cons ⟨by decide, by decide +kernel⟩ rfl (by decide +kernel) <|
    .cons ⟨by decide, by decide +kernel⟩ rfl (by decide +kernel) trivial
  obtain ⟨hrestores, hruns⟩ := uncaptureTo_restores (by decide) hr hsteps
  obtain ⟨t, hall⟩ := hruns (by simp [moves, RunnerStep.Within])
  obtain ⟨u, hundo, -, hreads, -, -⟩ := hrestores t hall
  obtain ⟨-, hindex, hlength, hsurviving⟩ := hreads 1
  refine ⟨hr, hsteps, t, u, hall, ?_, ?_, hundo, hindex, hlength, hsurviving⟩
  · cases hall
    rfl
  · cases hall
    rfl

/-- A slot whose last entry refers to the second word of an entry that was dropped: its start is the
position 2^64 - 8, which is the word -8. -/
def wrapped : Runner :=
  { ofText "abcdef" 2 with
    crawl := [1, 1], captures := { histories := #[{}, { words := #[0, 1, -8, 0, 0, 2], count := 2 }] } }

/-- One more capture, undone, replaces the dropped entry, and the slot reads as another start. -/
theorem uncaptureTo_wrapped :
    Reachable 2 (Word.modulus - 1) wrapped ∧ Stays 2 wrapped [.capture 1 0 3] ∧ wrapped.crawlDepth = 2 ∧
      wrapped.captures.index 1 = .ok 2 ∧
      ∃ t u, wrapped.performAll [.capture 1 0 3] = .ok t ∧ t.uncaptureTo 2 = .ok u ∧
        u.captures.index 1 = .ok 3 := by
  have hr : Reachable 2 (Word.modulus - 1) wrapped :=
    ((((Reachable.start "abcdef").capture 1 0 1 (by decide) (by decide) rfl).capture 1 18446744073709551608
      18446744073709551608 (by decide) (by decide) rfl).capture 1 0 2 (by decide) (by decide) rfl).uncapture rfl
  exact ⟨hr, .cons (by decide : 1 < 2) rfl (by decide +kernel) trivial, rfl, by decide +kernel, _, _, rfl, rfl,
    by decide +kernel⟩

end Runner

end PatternCompiler
