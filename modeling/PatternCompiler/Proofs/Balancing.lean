import PatternCompiler.Proofs.Histories

/-! Capture histories with balancing groups, as stacks of captures.

The history of a slot is read against the events that made it: captures that were added
and captures that were taken back, without those that a step back has dropped. The
events alone say what the slot holds, as a stack (`CaptureEvent.stack`).

`CaptureEvent.written` is what the events are written as. An event that takes a capture
back is written as a reference to the place of what is on top of the stack then, and
`CaptureEvent.frames` keeps for each capture on the stack the events up to it, which is
its place. A history `Tells` events when it holds their words; this survives each
operation (`Tells.add`, `Tells.balance`, `Tells.remove`), whatever words of dropped
entries are left behind it. `Captures.follows_stack` says what is then read from it. -/
namespace PatternCompiler

/-- Something that happened to a slot. -/
inductive CaptureEvent where
  | add (c : Nat × Nat)
  /-- The last capture is taken back. -/
  | balance
deriving DecidableEq

namespace CaptureEvent

/-! ### What events leave

Lists of events begin with the latest one. -/

/-- The captures that are left, the latest first. -/
def stack : List CaptureEvent → List (Nat × Nat)
  | [] => []
  | .add c :: es => c :: stack es
  | .balance :: es => (stack es).tail

/-- For each capture that is left, the events up to it. -/
def frames : List CaptureEvent → List (List CaptureEvent)
  | [] => []
  | .add c :: es => (.add c :: es) :: frames es
  | .balance :: es => (frames es).tail

/-- The place of what is on top, among the words; two places before the first if nothing is. -/
def place (es : List CaptureEvent) : Int :=
  match frames es with
  | [] => -2
  | f :: _ => 2 * f.length - 2

/-- What an event is written as after the events `es`. -/
def entry (es : List CaptureEvent) : CaptureEvent → Int × Int
  | .add c => (c.1, c.2)
  | .balance => (-3 - place (.balance :: es), -4 - place (.balance :: es))

/-- What events are written as, the oldest first. -/
def written : List CaptureEvent → List Int
  | [] => []
  | e :: es => written es ++ [(entry es e).1, (entry es e).2]

/-- Captures fit words, and only what is there is taken back. -/
def Proper : List CaptureEvent → Prop
  | [] => True
  | .add c :: es => (2 * c.1 < Word.modulus ∧ 2 * c.2 < Word.modulus) ∧ Proper es
  | .balance :: es => stack es ≠ [] ∧ Proper es

theorem written_length (es : List CaptureEvent) : (written es).length = 2 * es.length := by
  induction es with
  | nil => rfl
  | cons e es ih =>
    simp only [written, List.length_append, ih, List.length_cons, List.length_nil]
    omega

/-- Words are only added at the end. -/
theorem written_of_suffix {es fs : List CaptureEvent} (h : fs <:+ es) : written fs <+: written es := by
  induction es with
  | nil =>
    obtain rfl := List.suffix_nil.mp h
    exact List.prefix_refl _
  | cons e es ih =>
    rcases List.suffix_cons_iff.mp h with rfl | h
    · exact List.prefix_refl _
    · exact (ih h).trans (List.prefix_append _ _)

/-- Below the capture on top is what was there before it. -/
theorem frames_cons {es f : List CaptureEvent} {rest : List (List CaptureEvent)}
    (h : frames es = f :: rest) :
    ∃ c fs, f = .add c :: fs ∧ f <:+ es ∧ rest = frames fs ∧ stack es = c :: stack fs := by
  -- The events before the capture that was taken back are fewer, so the claim holds of them.
  induction hn : es.length using Nat.strongRecOn generalizing es f rest with
  | ind n ih =>
    match es with
    | .add c :: es =>
      obtain ⟨rfl, rfl⟩ := List.cons.inj h
      exact ⟨c, es, rfl, List.suffix_refl _, rfl, rfl⟩
    | .balance :: es =>
      obtain ⟨g, hg⟩ : ∃ g, frames es = g :: f :: rest := by
        cases hes : frames es with
        | nil => simp [frames, hes] at h
        | cons g gs => exact ⟨g, by rw [← h, frames, hes]; rfl⟩
      have hlt : es.length < n := by rw [← hn]; exact Nat.lt_succ_self _
      obtain ⟨c, gs, rfl, hsuffix, hframes, hstack⟩ := ih _ hlt hg rfl
      have hlt' : gs.length < n := by
        have := hsuffix.length_le
        rw [List.length_cons] at this
        omega
      obtain ⟨d, fs, rfl, hsuffix', hrest, hstack'⟩ := ih _ hlt' hframes.symm rfl
      refine ⟨d, fs, rfl, ?_, hrest, ?_⟩
      · exact ((hsuffix'.trans (List.suffix_cons _ gs)).trans hsuffix).trans (List.suffix_cons _ es)
      · rw [stack, hstack, List.tail_cons, hstack']

theorem frames_length (es : List CaptureEvent) : (frames es).length = (stack es).length := by
  induction es with
  | nil => rfl
  | cons e es ih => cases e <;> simp [frames, stack, ih]

theorem place_add (c : Nat × Nat) (es : List CaptureEvent) : place (.add c :: es) = 2 * es.length := by
  simp only [place, frames, List.length_cons]
  omega

theorem place_nil {es : List CaptureEvent} (h : stack es = []) : place es = -2 := by
  have hframes : frames es = [] := List.eq_nil_of_length_eq_zero (by rw [frames_length, h]; rfl)
  rw [place, hframes]

/-- The place of the capture on top is that of the event that added it, and once it is taken
back the events before that one tell what is on top. -/
theorem place_cons {es : List CaptureEvent} (h : stack es ≠ []) :
    ∃ c fs, .add c :: fs <:+ es ∧ stack es = c :: stack fs ∧ place es = 2 * fs.length ∧
      place (.balance :: es) = place fs := by
  obtain ⟨f, rest, hframes⟩ : ∃ f rest, frames es = f :: rest := by
    refine List.exists_cons_of_ne_nil fun hnil => h ?_
    exact List.eq_nil_of_length_eq_zero (by rw [← frames_length, hnil]; rfl)
  obtain ⟨c, fs, rfl, hsuffix, hrest, hstack⟩ := frames_cons hframes
  refine ⟨c, fs, hsuffix, hstack, ?_, ?_⟩
  · rw [place, hframes]
    simp only [List.length_cons]
    omega
  · rw [place, place, frames, hframes, List.tail_cons, hrest]

theorem place_ge (es : List CaptureEvent) : -2 ≤ place es := by
  by_cases h : stack es = []
  · exact Int.le_of_eq (place_nil h).symm
  · obtain ⟨c, fs, _, _, hplace, _⟩ := place_cons h
    omega

theorem place_eq_iff (es : List CaptureEvent) : place es = -2 ↔ stack es = [] := by
  refine ⟨fun hplace => ?_, place_nil⟩
  by_cases h : stack es = []
  · exact h
  · obtain ⟨c, fs, _, _, htop, _⟩ := place_cons h
    omega

theorem Proper.of_suffix {es fs : List CaptureEvent} (h : Proper es) (hsuffix : fs <:+ es) : Proper fs := by
  induction es with
  | nil => rwa [List.suffix_nil.mp hsuffix]
  | cons e es ih =>
    rcases List.suffix_cons_iff.mp hsuffix with rfl | hrest
    · exact h
    · cases e <;> exact ih h.2 hrest

theorem Proper.stack_small {es : List CaptureEvent} (h : Proper es) :
    ∀ c ∈ stack es, 2 * c.1 < Word.modulus ∧ 2 * c.2 < Word.modulus := by
  induction es with
  | nil => nofun
  | cons e es ih =>
    cases e with
    | add c => exact List.forall_mem_cons.mpr ⟨h.1, ih h.2⟩
    | balance => exact fun c hc => ih h.2 c (List.mem_of_mem_tail hc)

/-- What is left was added. -/
theorem add_mem_of_mem_stack {c : Nat × Nat} {es : List CaptureEvent} (h : c ∈ stack es) : .add c ∈ es := by
  induction es with
  | nil => cases h
  | cons e es ih =>
    cases e with
    | add d =>
      rcases List.mem_cons.mp h with rfl | h
      · exact List.mem_cons_self ..
      · exact List.mem_cons_of_mem _ (ih h)
    | balance => exact List.mem_cons_of_mem _ (ih (List.mem_of_mem_tail h))

end CaptureEvent

namespace CaptureHistory

open CaptureEvent (stack place entry written Proper)

/-- A history holds what the given events are written as. -/
structure Tells (h : CaptureHistory) (es : List CaptureEvent) : Prop where
  count : h.count = es.length
  entries : h.entries = written es
  proper : Proper es

namespace Tells

variable {h : CaptureHistory} {es fs : List CaptureEvent} {e : CaptureEvent}

/-! ### Writing -/

theorem empty : Tells {} [] := ⟨rfl, rfl, trivial⟩

theorem entries_length (ht : h.Tells es) : h.entries.length = 2 * h.count := by
  rw [ht.entries, CaptureEvent.written_length, ht.count]

theorem append (ht : h.Tells es) (hproper : Proper (e :: es)) :
    (h.add (entry es e).1 (entry es e).2).Tells (e :: es) := by
  refine ⟨by rw [CaptureHistory.add, ht.count]; rfl, ?_, hproper⟩
  rw [entries_add ht.entries_length, ht.entries, written]

theorem remove (ht : h.Tells (e :: es)) : h.remove.Tells es := by
  refine ⟨by rw [CaptureHistory.remove, ht.count]; rfl, ?_, ht.proper.of_suffix (List.suffix_cons e es)⟩
  rw [entries_remove, ht.entries, ht.count, List.length_cons, Nat.add_sub_cancel, written,
    ← CaptureEvent.written_length, List.take_left]

/-! ### Reading -/

/-- The words of each event stand where they were written. -/
theorem words_at (ht : h.Tells es) (hsuffix : e :: fs <:+ es) :
    h.word? (2 * fs.length) = some (entry fs e).1 ∧ h.word? (2 * fs.length + 1) = some (entry fs e).2 := by
  obtain ⟨later, hlater⟩ := CaptureEvent.written_of_suffix hsuffix
  have hlength := hsuffix.length_le
  rw [List.length_cons] at hlength
  have hget : ∀ k, k < 2 → h.word? (2 * fs.length + k : Nat) = [(entry fs e).1, (entry fs e).2][k]? := by
    intro k hk
    rw [word?_natCast (by rw [ht.count]; omega), ht.entries, ← hlater, written, List.append_assoc,
      ← CaptureEvent.written_length, List.getElem?_append_right (by omega), Nat.add_sub_cancel_left,
      List.getElem?_append_left hk]
  exact ⟨hget 0 (by omega), hget 1 (by omega)⟩

theorem last_eq (ht : h.Tells (e :: es)) : h.last = 2 * es.length := by
  rw [last, ht.count, List.length_cons]
  omega

theorem isMatched_iff (ht : h.Tells es) : h.isMatched = true ↔ stack es ≠ [] := by
  cases es with
  | nil => simp [isMatched, ht.count, stack]
  | cons e es =>
    have hword := (ht.words_at (List.suffix_refl _)).2
    rw [← ht.last_eq] at hword
    have hmatched : h.isMatched = true ↔ (entry es e).2 ≠ -2 := by
      simp [isMatched, ht.count, hword]
    rw [hmatched]
    cases e with
    | add c => simp [entry, stack]
    | balance =>
      have hplace := CaptureEvent.place_eq_iff (.balance :: es)
      rw [ne_eq, ne_eq, ← hplace]
      simp only [entry]
      omega

/-- A history reads as the capture on top. -/
theorem current (ht : h.Tells es) (hne : es ≠ []) : h.current? = some (place es) := by
  obtain ⟨e, es, rfl⟩ := List.exists_cons_of_ne_nil hne
  have hword := (ht.words_at (List.suffix_refl _)).1
  rw [← ht.last_eq] at hword
  have hcurrent : h.current? = some (if (entry es e).1 < 0 then -3 - (entry es e).1 else h.last) := by
    rw [current?, hword]
    rfl
  rw [hcurrent]
  cases e with
  | add c =>
    have hpos : ¬ ((c.1 : Int) < 0) := by omega
    rw [entry, if_neg hpos, ht.last_eq, CaptureEvent.place_add]
  | balance =>
    have hge := CaptureEvent.place_ge (.balance :: es)
    rw [entry, if_pos (by omega)]
    congr 1
    omega

/-- The new entry refers to what comes below the top, in whichever way it is found. -/
theorem balance?_eq (ht : h.Tells es) (hne : stack es ≠ []) :
    h.balance? = some (h.add (entry es .balance).1 (entry es .balance).2) := by
  obtain ⟨c, fs, hsuffix, _, htop, hbelow⟩ := CaptureEvent.place_cons hne
  have hcurrent : h.current? = some (2 * (fs.length : Int)) := by
    rw [← htop]
    exact ht.current (List.ne_nil_of_mem (hsuffix.mem (List.mem_cons_self ..)))
  rw [balance?, hcurrent]
  simp only [entry, hbelow, bind, Option.bind]
  cases fs with
  | nil => rfl
  | cons e gs =>
    have hgs : e :: gs <:+ es := (List.suffix_cons _ _).trans hsuffix
    have hplace : (2 * ((e :: gs).length : Nat) : Int) - 2 = 2 * gs.length := by
      rw [List.length_cons]
      omega
    obtain ⟨hindex, hlength⟩ := ht.words_at hgs
    rw [hplace, if_neg (by omega), hindex, hlength]
    cases e with
    | add d =>
      have hpos : (0 : Int) ≤ d.1 := by omega
      simp only [entry, CaptureEvent.place_add]
      exact if_pos hpos
    | balance =>
      have hge := CaptureEvent.place_ge (.balance :: gs)
      have hneg : ¬ (0 ≤ -3 - place (.balance :: gs)) := by omega
      simp only [entry]
      exact if_neg hneg

theorem balance (ht : h.Tells es) (hne : stack es ≠ []) :
    ∃ h', h.balance? = some h' ∧ h'.Tells (.balance :: es) :=
  ⟨_, ht.balance?_eq hne, ht.append ⟨hne, ht.proper⟩⟩

/-- The words of the last entry stand for start and length of the capture on top. -/
theorem deref (ht : h.Tells es) {c : Nat × Nat} {rest : List (Nat × Nat)} (hstack : stack es = c :: rest) :
    h.deref? h.last = some (c.1 : Int) ∧ h.deref? (h.last + 1) = some (c.2 : Int) := by
  have hderef : ∀ {k v : Int}, h.word? k = some v →
      h.deref? k = if v < 0 then h.word? (-3 - v) else some v := by
    intro k v hk
    rw [deref?, hk]
    rfl
  match es with
  | .add d :: es =>
    obtain ⟨rfl, -⟩ := List.cons.inj hstack
    obtain ⟨hindex, hlength⟩ := ht.words_at (List.suffix_refl _)
    rw [ht.last_eq, hderef hindex, hderef hlength]
    exact ⟨if_neg (by simp only [entry]; omega), if_neg (by simp only [entry]; omega)⟩
  | .balance :: es =>
    obtain ⟨hindex, hlength⟩ := ht.words_at (List.suffix_refl _)
    obtain ⟨d, fs, hsuffix, hd, htop, _⟩ := CaptureEvent.place_cons (by rw [hstack]; exact List.cons_ne_nil _ _)
    obtain ⟨rfl, -⟩ := List.cons.inj (hstack.symm.trans hd)
    obtain ⟨hindex', hlength'⟩ := ht.words_at hsuffix
    rw [ht.last_eq, hderef hindex, hderef hlength]
    simp only [entry, htop]
    rw [if_pos (by omega), if_pos (by omega), ← show (2 * fs.length : Int) = -3 - (-3 - 2 * fs.length) by omega,
      ← show (2 * fs.length + 1 : Int) = -3 - (-4 - 2 * fs.length) by omega]
    exact ⟨hindex', hlength'⟩

/-! ### The end of a match -/

/-- The words of captures that are left, the latest first, after one more capture. -/
theorem reverse_wordsOf (c : Nat × Nat) (cs : List (Nat × Nat)) :
    (wordsOf (c :: cs).reverse).reverse =
      Word.ofPosition c.2 :: Word.ofPosition c.1 :: (wordsOf cs.reverse).reverse := by
  rw [List.reverse_cons, wordsOf_append, List.reverse_append]
  rfl

/-- Each event that takes a capture back cancels both words of the last capture that is left. -/
theorem cancel_written (hproper : Proper es) :
    (written es).foldlM cancel? [] = some (wordsOf (stack es).reverse).reverse := by
  induction es with
  | nil => rfl
  | cons e es ih =>
    cases e with
    | add c =>
      obtain ⟨⟨hindex, hlength⟩, hes⟩ := hproper
      have hpos : ¬ ((c.1 : Int) < 0) ∧ ¬ ((c.2 : Int) < 0) := by omega
      rw [written, List.foldlM_append, ih hes, stack, reverse_wordsOf, Word.ofPosition_of_lt hindex,
        Word.ofPosition_of_lt hlength]
      simp [entry, cancel?, hpos]
    | balance =>
      obtain ⟨hne, hes⟩ := hproper
      obtain ⟨c, cs, hstack⟩ := List.exists_cons_of_ne_nil hne
      have hge := CaptureEvent.place_ge (.balance :: es)
      have hneg : -3 - place (.balance :: es) < 0 ∧ -4 - place (.balance :: es) < 0 := by omega
      rw [written, List.foldlM_append, ih hes, stack, hstack, reverse_wordsOf, List.tail_cons]
      simp [entry, cancel?, hneg]

theorem tidy (ht : h.Tells es) : h.tidy? = some (wordsOf (stack es).reverse) := by
  rw [tidy?, ht.entries, cancel_written ht.proper, Option.map_some, List.reverse_reverse]

/-- If no capture was taken back, nothing has to be cancelled. -/
theorem entries_of_unbalanced (ht : h.Tells es) (hes : CaptureEvent.balance ∉ es) :
    h.entries = wordsOf (stack es).reverse := by
  rw [ht.entries]
  have hproper := ht.proper
  clear ht
  induction es with
  | nil => rfl
  | cons e es ih =>
    cases e with
    | add c =>
      obtain ⟨⟨hindex, hlength⟩, hproper⟩ := hproper
      have hwords : wordsOf [c] = [(c.1 : Int), (c.2 : Int)] := by
        rw [← Word.ofPosition_of_lt hindex, ← Word.ofPosition_of_lt hlength, wordsOf, List.flatMap_singleton]
      rw [written, ih (fun h => hes (List.mem_cons_of_mem _ h)) hproper, stack, List.reverse_cons,
        wordsOf_append, hwords, entry]
    | balance => exact absurd (List.mem_cons_self ..) hes

end Tells

end CaptureHistory

/-! ### All slots -/

namespace Captures

open CaptureEvent (stack)

/-- The captures that operations make of `n` empty slots, and for each slot what happened to it
and was not dropped. A start or a length has a sign, so it is below half the number of words. -/
inductive Follows (n : Nat) : (Nat → List CaptureEvent) → Captures → Prop where
  | start : Follows n (fun _ => []) (.ofSlots n)
  | add {log : Nat → List CaptureEvent} {c c' : Captures} (h : Follows n log c) (slot index length : Nat)
      (hindex : 2 * index < Word.modulus) (hlength : 2 * length < Word.modulus)
      (hadd : c.add slot index length = .ok c') :
      Follows n (Function.update log slot (.add (index, length) :: log slot)) c'
  | balance {log : Nat → List CaptureEvent} {c c' : Captures} (h : Follows n log c) (slot : Nat)
      (hmatched : c.isMatched slot = true) (hbalance : c.balance slot = .ok c') :
      Follows n (Function.update log slot (.balance :: log slot)) c'
  | remove {log : Nat → List CaptureEvent} {c : Captures} (h : Follows n log c) (slot : Nat)
      (hcount : 0 < c.count slot) : Follows n (Function.update log slot (log slot).tail) (c.remove slot)

/-- Every slot tells its events. -/
structure Tells (n : Nat) (log : Nat → List CaptureEvent) (c : Captures) : Prop where
  size : c.histories.size = n
  tells : ∀ slot < n, ∃ h, c.histories[slot]? = some h ∧ h.Tells (log slot)
  unbalanced : c.balanced = false → ∀ slot < n, .balance ∉ log slot

namespace Tells

variable {n slot : Nat} {log : Nat → List CaptureEvent} {c : Captures}

theorem ofSlots (n : Nat) : (Captures.ofSlots n).Tells n fun _ => [] := by
  refine ⟨by simp [Captures.ofSlots], fun slot hslot => ⟨{}, ?_, .empty⟩, by simp⟩
  rw [Captures.ofSlots, Array.getElem?_replicate, if_pos hslot]

/-- One slot is changed. -/
theorem modify (hc : c.Tells n log) {f : CaptureHistory → CaptureHistory} {es : List CaptureEvent}
    {balanced : Bool} (hf : ∀ h, c.histories[slot]? = some h → h.Tells (log slot) → (f h).Tells es)
    (hbalanced : balanced = false → c.balanced = false ∧ .balance ∉ es) :
    Tells n (Function.update log slot es) ⟨c.histories.modify slot f, balanced⟩ := by
  refine ⟨by simp [hc.size], fun k hk => ?_, fun hb k hk => ?_⟩
  · obtain ⟨h, hget, hh⟩ := hc.tells k hk
    by_cases hkn : slot = k
    · subst hkn
      refine ⟨f h, by rw [Array.getElem?_modify, if_pos rfl, hget]; rfl, ?_⟩
      rw [Function.update_self]
      exact hf h hget hh
    · refine ⟨h, by rw [Array.getElem?_modify, if_neg hkn, hget], ?_⟩
      rwa [Function.update_of_ne (Ne.symm hkn)]
  · obtain ⟨hc', hes⟩ := hbalanced hb
    by_cases hkn : k = slot
    · rwa [hkn, Function.update_self]
    · rw [Function.update_of_ne hkn]
      exact hc.unbalanced hc' k hk

theorem histories_none (hc : c.Tells n log) (hslot : ¬ slot < n) : c.histories[slot]? = none :=
  Array.getElem?_eq_none (by rw [hc.size]; omega)

theorem slot_lt (hc : c.Tells n log) (hcount : 0 < c.count slot) : slot < n := by
  by_contra hslot
  rw [count, Array.getD_eq_getD_getElem?, hc.histories_none hslot] at hcount
  exact absurd hcount (by decide)

theorem slot_lt_of_isMatched (hc : c.Tells n log) (h : c.isMatched slot = true) : slot < n :=
  hc.slot_lt (of_decide_eq_true (Bool.and_eq_true_iff.mp h).1)

theorem slot_lt_of_add (hc : c.Tells n log) {index length : Nat} {c' : Captures}
    (h : c.add slot index length = .ok c') : slot < n := by
  by_contra hslot
  rw [Captures.add, if_neg (by rwa [hc.size])] at h
  cases h

theorem isMatched_iff (hc : c.Tells n log) (hslot : slot < n) :
    c.isMatched slot = true ↔ stack (log slot) ≠ [] := by
  obtain ⟨h, hget, ht⟩ := hc.tells slot hslot
  rw [isMatched, Array.getD_eq_getD_getElem?, hget]
  exact ht.isMatched_iff

theorem count_eq (hc : c.Tells n log) (hslot : slot < n) : c.count slot = (log slot).length := by
  obtain ⟨h, hget, ht⟩ := hc.tells slot hslot
  rw [count, Array.getD_eq_getD_getElem?, hget]
  exact ht.count

/-! ### Steps -/

theorem add (hc : c.Tells n log) (hslot : slot < n) {index length : Nat}
    (hindex : 2 * index < Word.modulus) (hlength : 2 * length < Word.modulus) :
    ∃ c', c.add slot index length = .ok c' ∧
      c'.Tells n (Function.update log slot (.add (index, length) :: log slot)) := by
  refine ⟨_, if_pos (hc.size ▸ hslot), hc.modify (fun h _ ht => ?_) fun hb => ⟨hb, ?_⟩⟩
  · rw [Word.ofPosition_of_lt hindex, Word.ofPosition_of_lt hlength]
    exact ht.append (e := .add (index, length)) ⟨⟨hindex, hlength⟩, ht.proper⟩
  · simpa using hc.unbalanced hb slot hslot

theorem balance (hc : c.Tells n log) (hmatched : c.isMatched slot = true) :
    ∃ c', c.balance slot = .ok c' ∧ c'.Tells n (Function.update log slot (.balance :: log slot)) := by
  have hslot := hc.slot_lt_of_isMatched hmatched
  obtain ⟨h, hget, ht⟩ := hc.tells slot hslot
  obtain ⟨h', hh', ht'⟩ := ht.balance ((hc.isMatched_iff hslot).mp hmatched)
  have hread : c.read slot CaptureHistory.balance? = .ok h' := by
    rw [read, hget, Option.bind_some, hh']
  refine ⟨⟨c.histories.modify slot fun _ => h', true⟩, ?_, hc.modify (fun _ _ _ => ht') (by rintro ⟨⟩)⟩
  rw [Captures.balance, hread]
  rfl

theorem remove (hc : c.Tells n log) (hcount : 0 < c.count slot) :
    (c.remove slot).Tells n (Function.update log slot (log slot).tail) := by
  have hslot := hc.slot_lt hcount
  refine hc.modify (fun h _ ht => ?_) fun hb =>
    ⟨hb, fun hmem => hc.unbalanced hb slot hslot (List.mem_of_mem_tail hmem)⟩
  rw [hc.count_eq hslot] at hcount
  obtain ⟨e, es, hes⟩ := List.exists_cons_of_length_pos hcount
  rw [hes] at ht ⊢
  exact ht.remove

/-! ### Results -/

theorem index_length (hc : c.Tells n log) (hslot : slot < n) {top : Nat × Nat} {rest : List (Nat × Nat)}
    (hstack : stack (log slot) = top :: rest) :
    c.index slot = .ok top.1 ∧ c.length slot = .ok top.2 := by
  obtain ⟨h, hget, ht⟩ := hc.tells slot hslot
  obtain ⟨hindex, hlength⟩ := ht.deref hstack
  obtain ⟨hsmall, hsmall'⟩ := ht.proper.stack_small top (hstack ▸ List.mem_cons_self ..)
  have hread : ∀ {f : CaptureHistory → Option Nat} {k : Nat}, f h = some k → c.read slot f = .ok k := by
    intro f k hk
    rw [read, hget, Option.bind_some, hk]
  refine ⟨hread ?_, hread ?_⟩
  · rw [CaptureHistory.index?, hindex, Option.map_some, Word.position_natCast (by omega)]
  · rw [CaptureHistory.length?, hlength, Option.map_some, Word.position_natCast (by omega)]

/-- What is kept of a slot is the words of its stack. -/
theorem kept (hc : c.Tells n log) (hslot : slot < n) :
    ∃ h, c.histories[slot]? = some h ∧
      (if c.balanced then h.tidy? else some h.entries) =
        some (CaptureHistory.wordsOf (stack (log slot)).reverse) := by
  obtain ⟨h, hget, ht⟩ := hc.tells slot hslot
  refine ⟨h, hget, ?_⟩
  cases hb : c.balanced with
  | true => exact ht.tidy
  | false => exact congrArg some (ht.entries_of_unbalanced (hc.unbalanced hb slot hslot))

theorem stack_small (hc : c.Tells n log) (hslot : slot < n) :
    ∀ d ∈ (stack (log slot)).reverse, 2 * d.1 < Word.modulus ∧ 2 * d.2 < Word.modulus := by
  obtain ⟨h, _, ht⟩ := hc.tells slot hslot
  exact fun d hd => ht.proper.stack_small d (List.mem_reverse.mp hd)

theorem surviving (hc : c.Tells n log) (hslot : slot < n) :
    c.surviving slot = .ok (stack (log slot)).reverse := by
  obtain ⟨h, hget, hkept⟩ := hc.kept hslot
  rw [Captures.surviving, read, hget, Option.bind_some, hkept]
  simp only [Option.map_eq_map, Option.map_some]
  rw [CaptureHistory.spans_wordsOf (hc.stack_small hslot)]

end Tells

/-- Operations keep what the slots tell. -/
theorem Follows.tells {n : Nat} {log : Nat → List CaptureEvent} {c : Captures} (h : Follows n log c) :
    c.Tells n log := by
  induction h with
  | start => exact .ofSlots n
  | @add log c c' _ slot index length hindex hlength hadd ih =>
    obtain ⟨c'', hadd', htells⟩ := ih.add (ih.slot_lt_of_add hadd) hindex hlength
    cases hadd.symm.trans hadd'
    exact htells
  | balance _ slot hmatched hbalance ih =>
    obtain ⟨c'', hbalance', htells⟩ := ih.balance hmatched
    cases hbalance.symm.trans hbalance'
    exact htells
  | remove _ slot hcount ih => exact ih.remove hcount

/-- **A slot is a stack of captures with undo.** After any captures, balances of what is matched
and steps back, a slot is matched just when its stack has a capture, reads as the one on top, and
keeps the stack in the end, oldest first and without references; and the next operation on it does
not fault. -/
theorem follows_stack {n : Nat} {log : Nat → List CaptureEvent} {c : Captures} (h : Follows n log c)
    {slot : Nat} (hslot : slot < n) :
    (c.isMatched slot = true ↔ stack (log slot) ≠ []) ∧
      (∀ top rest, stack (log slot) = top :: rest →
        c.index slot = .ok top.1 ∧ c.length slot = .ok top.2) ∧
      c.surviving slot = .ok (stack (log slot)).reverse ∧
      (∃ h words, c.histories[slot]? = some h ∧
        (if c.balanced then h.tidy? else some h.entries) = some words ∧ ∀ w ∈ words, 0 ≤ w) ∧
      c.count slot = (log slot).length ∧
      (∀ index length, 2 * index < Word.modulus → 2 * length < Word.modulus →
        ∃ c', c.add slot index length = .ok c') ∧
      (c.isMatched slot = true → ∃ c', c.balance slot = .ok c') := by
  have hc := h.tells
  refine ⟨hc.isMatched_iff hslot, fun top rest hstack => hc.index_length hslot hstack,
    hc.surviving hslot, ?_, hc.count_eq hslot, fun index length hindex hlength => ?_, fun hmatched => ?_⟩
  · obtain ⟨h, hget, hkept⟩ := hc.kept hslot
    refine ⟨h, _, hget, hkept, fun w hw => ?_⟩
    obtain ⟨d, hd, hw⟩ := List.mem_flatMap.mp hw
    obtain ⟨hindex, hlength⟩ := hc.stack_small hslot d hd
    rw [Word.ofPosition_of_lt hindex, Word.ofPosition_of_lt hlength] at hw
    simp only [List.mem_cons, List.not_mem_nil, or_false] at hw
    omega
  · obtain ⟨c', hadd, _⟩ := hc.add hslot hindex hlength
    exact ⟨c', hadd⟩
  · obtain ⟨c', hbalance, _⟩ := hc.balance hmatched
    exact ⟨c', hbalance⟩

/-- Two balances of which one copies a reference, and a third that is dropped. -/
theorem follows_stack_twice_balanced :
    ∃ log c, Follows 2 log c ∧ log 1 = [.balance, .add (9, 4), .balance, .add (7, 1), .add (3, 2)] ∧
      c.isMatched 1 = true ∧ c.index 1 = .ok 3 ∧ c.length 1 = .ok 2 ∧ c.surviving 1 = .ok [(3, 2)] := by
  have h₁ := (Follows.start : Follows 2 _ _).add 1 3 2 (by decide) (by decide) rfl
  have h₂ := h₁.add 1 7 1 (by decide) (by decide) rfl
  have h₃ := h₂.balance 1 (by decide +kernel) rfl
  have h₄ := h₃.add 1 9 4 (by decide) (by decide) rfl
  have h₅ := h₄.balance 1 (by decide +kernel) rfl
  have h₆ := h₅.balance 1 (by decide +kernel) rfl
  have h₇ := h₆.remove 1 (by decide +kernel)
  obtain ⟨hmatched, htop, hsurviving, _⟩ := follows_stack h₇ (by decide : 1 < 2)
  obtain ⟨hindex, hlength⟩ := htop (3, 2) [] rfl
  exact ⟨_, _, h₇, rfl, hmatched.mpr (List.cons_ne_nil (3, 2) []), hindex, hlength, hsurviving⟩

end Captures

end PatternCompiler
