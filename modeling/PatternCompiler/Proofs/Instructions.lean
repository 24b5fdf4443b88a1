import PatternCompiler.Proofs.Stepping

/-! What single operations do to stacks of a known shape.

Each lemma gives the result of an operation, or of one of its resumptions, as the
runner it was given with other stacks. Proofs about whole constructs cite these and do
not open the operations again.

The operations that open a group, a loop or a cut are told together: `Routine.opened` is
what they put on the marks, and to resume any of them takes as many marks off. -/
namespace PatternCompiler

/-! ### Taking from a stack -/

namespace Runner

variable {r : Runner} {v : Int} {rest : List Int} {crawl : List Nat}

theorem popMark_cons (h : r.marks = v :: rest) : r.popMark = .ok (v, { r with marks := rest }) := by
  rw [popMark, h]

theorem popTrack_cons (h : r.track = v :: rest) : r.popTrack = .ok (v, { r with track := rest }) := by
  rw [popTrack, h]

/-- To go back to a depth drops what was put on top since. -/
theorem trackTo_append {ts : List Int} (h : r.track = ts ++ rest) :
    r.trackTo rest.length = { r with track := rest } := by
  rw [trackTo, h, List.length_append, Nat.add_sub_cancel, List.drop_left]

/-- To undo entries of the crawl takes them from the captures, the last one first. -/
theorem uncaptureTimes_append (ns : List Nat) (h : r.crawl = ns ++ crawl) :
    r.uncaptureTimes ns.length =
      .ok { r with crawl := crawl, captures := ns.foldl Captures.remove r.captures } := by
  induction ns generalizing r with
  | nil =>
    obtain rfl : r.crawl = crawl := h
    rfl
  | cons n ns ih =>
    rw [List.length_cons, uncaptureTimes, uncapture, h]
    exact ih rfl

theorem uncaptureTo_append (ns : List Nat) (h : r.crawl = ns ++ crawl) :
    r.uncaptureTo crawl.length =
      .ok { r with crawl := crawl, captures := ns.foldl Captures.remove r.captures } := by
  have hdepth : r.crawl.length = ns.length + crawl.length := by rw [h, List.length_append]
  rw [uncaptureTo, if_neg (by omega), hdepth, Nat.add_sub_cancel, uncaptureTimes_append ns h]

end Runner

namespace Routine

variable {m : Routine} {o : Operation} {r : Runner} {v w p : Int} {track marks : List Int} {target : Nat}

/-! ### Marks -/

/-- What an operation that opens a group, a loop or a cut puts on the marks. -/
def opened (r : Runner) : Op → Option (List Int)
  | .nullmark => some [-1]
  | .setmark => some [r.here]
  | .nullcount n => some [n, -1]
  | .setcount n => some [n, r.here]
  | .setjump => some [r.crawlDepth, r.trackDepth]
  | _ => none

theorem forward_opened {vs : List Int} (h : opened r o.op = some vs) :
    m.forward o r =
      .ok (.following, { r with track := (m.tag o false : Int) :: r.track, marks := vs ++ r.marks }) := by
  cases hop : o.op <;> rw [hop] at h <;> cases h <;> simp only [forward, hop] <;> rfl

theorem opened_resumptions {vs : List Int} (h : opened r o.op = some vs) : false ∈ o.op.resumptions := by
  cases hop : o.op <;> rw [hop] at h <;> cases h <;> exact List.mem_singleton_self false

/-- To undo an opening takes its marks off, whatever they are by then. -/
theorem resume_opened {r' : Runner} {vs ws : List Int} (h : opened r' o.op = some vs)
    (hmarks : r.marks = ws ++ marks) (hlength : ws.length = vs.length) :
    m.resume o false r = .ok (.fail, { r with marks := marks }) := by
  have hone : ∀ {a : Int}, vs = [a] → r.popMark = .ok (ws.headD 0, { r with marks := marks }) := by
    rintro a rfl
    obtain ⟨w, rfl⟩ := List.length_eq_one_iff.mp hlength
    exact Runner.popMark_cons hmarks
  have htwo : ∀ {a b : Int}, vs = [a, b] → undoMark2 r = .ok (.fail, { r with marks := marks }) := by
    rintro a b rfl
    obtain ⟨w, w', rfl⟩ := List.length_eq_two.mp hlength
    have hcons : r.marks = w :: w' :: marks := hmarks
    simp only [undoMark2, Runner.popMark, hcons, bind, Except.bind]
  cases hop : o.op <;> rw [hop] at h <;> cases h <;> simp only [resume, hop]
  case nullmark => rw [hone rfl]; rfl
  case setmark => rw [hone rfl]; rfl
  all_goals exact htwo rfl

theorem redoMark_cons (h : r.track = v :: track) :
    redoMark r = .ok (.fail, { r with track := track, marks := v :: r.marks }) := by
  simp only [redoMark, Runner.popTrack_cons h, bind, Except.bind, Runner.pushMark]

theorem forward_getmark (hop : o.op = .getmark) (h : r.marks = v :: marks) :
    m.forward o r = .ok (.following, { r with
      pos := Word.position v, track := (m.tag o false : Int) :: v :: r.track, marks := marks }) := by
  simp only [forward, hop, Runner.popMark_cons h, bind, Except.bind, leave, Runner.pushTrack]

theorem resume_getmark (hop : o.op = .getmark) (h : r.track = v :: track) :
    m.resume o false r = .ok (.fail, { r with track := track, marks := v :: r.marks }) := by
  simp only [resume, hop, redoMark_cons h]

/-- To undo a capture puts its mark back, and takes off as many entries of the crawl as there are
groups. -/
theorem resume_capturemark {slot uncapture : Option Nat} {crawl : List Nat}
    (hop : o.op = .capturemark slot uncapture) (htrack : r.track = v :: track) (ns : List Nat)
    (hlength : ns.length = slot.isSome.toNat + uncapture.isSome.toNat) (hcrawl : r.crawl = ns ++ crawl) :
    m.resume o false r = .ok (.fail, { r with
      track := track
      marks := v :: r.marks
      crawl := crawl
      captures := ns.foldl Captures.remove r.captures }) := by
  simp only [resume, hop, undoCapturemark, Runner.popTrack_cons htrack, bind, Except.bind,
    Runner.pushMark, ← hlength,
    Runner.uncaptureTimes_append (r := { r with track := track, marks := v :: r.marks }) ns hcrawl]

/-! ### Cuts -/

theorem forward_forejump {ts : List Int} (hop : o.op = .forejump)
    (hmarks : r.marks = v :: (track.length : Int) :: marks) (htrack : r.track = ts ++ track)
    (hdepth : track.length < Word.modulus) :
    m.forward o r = .ok (.following, { r with
      track := (m.tag o false : Int) :: v :: track, marks := marks }) := by
  simp only [forward, hop, Runner.popMark, hmarks, bind, Except.bind, Word.position_natCast hdepth,
    Runner.trackTo_append (r := { r with marks := marks }) htrack, leave, Runner.pushTrack]

theorem resume_forejump {ns crawl : List Nat} (hop : o.op = .forejump)
    (htrack : r.track = (crawl.length : Int) :: track) (hcrawl : r.crawl = ns ++ crawl)
    (hdepth : crawl.length < Word.modulus) :
    m.resume o false r = .ok (.fail, { r with
      track := track, crawl := crawl, captures := ns.foldl Captures.remove r.captures }) := by
  simp only [resume, hop, undoForejump, Runner.popTrack_cons htrack, bind, Except.bind,
    Word.position_natCast hdepth, Runner.uncaptureTo_append (r := { r with track := track }) ns hcrawl]

theorem forward_backjump {ts : List Int} {ns crawl : List Nat} (hop : o.op = .backjump)
    (hmarks : r.marks = (crawl.length : Int) :: (track.length : Int) :: marks)
    (htrack : r.track = ts ++ track) (hcrawl : r.crawl = ns ++ crawl)
    (hdepth : track.length < Word.modulus) (hdepth' : crawl.length < Word.modulus) :
    m.forward o r = .ok (.fail, { r with
      track := track, marks := marks, crawl := crawl,
      captures := ns.foldl Captures.remove r.captures }) := by
  simp only [forward, hop, Runner.popMark, hmarks, bind, Except.bind, Word.position_natCast hdepth,
    Word.position_natCast hdepth', Runner.trackTo_append (r := { r with marks := marks }) htrack,
    Runner.uncaptureTo_append (r := { r with track := track, marks := marks }) ns hcrawl]

/-! ### Repetitions -/

variable {t : CharTest Nat} {max left : Nat}

/-- A greedy repetition that has `left` more characters to give back. -/
def giveBack (m : Routine) (o : Operation) (left : Nat) (r : Runner) : Runner :=
  if 0 < left then m.leave o false (r.pushTrack2 ((left : Int) - 1) (r.steppedBack o)) else r

/-- A lazy repetition that may take `left` more characters. -/
def takeMore (m : Routine) (o : Operation) (left : Nat) (r : Runner) : Runner :=
  if 0 < left then m.leave o false (r.pushTrack2 ((left : Int) - 1) r.here) else r

theorem resume_span (hop : o.op = .span false t max) (h : r.track = p :: (left : Int) :: track) :
    m.resume o false r =
      .ok (.jump (o.id + 1), m.giveBack o left { r with pos := Word.position p, track := track }) := by
  simp only [resume, hop, resumeSpan, Runner.popTrack, h, bind, Except.bind, Bool.false_eq_true, if_false,
    Int.natCast_pos, giveBack]

theorem resume_lazySpan (hop : o.op = .span true t max) (h : r.track = p :: (left : Int) :: track) :
    m.resume o false r = (do
      let r := { r with pos := Word.position p, track := track }
      if m.passes (← r.readAhead m.culture o 0) t then
        .ok (.jump (o.id + 1), m.takeMore o left (r.advance o 1))
      else .ok (.fail, r)) := by
  simp only [resume, hop, resumeSpan, Runner.popTrack, h, bind, Except.bind, if_true, Int.natCast_pos,
    takeMore]

end Routine

end PatternCompiler
