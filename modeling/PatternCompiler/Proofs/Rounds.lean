import PatternCompiler.Proofs.Instructions

/-! What the operations that end a round of a loop do to stacks of a known shape.

A loop keeps the mark of where its round began, and a counting loop its count above it.
As in `Proofs/Instructions`, each lemma gives the runner after one operation or one of
its resumptions. -/
namespace PatternCompiler

namespace Routine

variable {m : Routine} {o : Operation} {r : Runner} {v w p : Int} {track marks : List Int} {target : Nat}

/-! ### Loops without a count -/

/-- A greedy loop begins another round unless the last one was empty. -/
theorem forward_branchmark (hop : o.op = .branchmark false target) (h : r.marks = v :: marks)
    (hround : r.here ≠ v) :
    m.forward o r = .ok (.jump target, { r with
      track := (m.tag o false : Int) :: r.here :: v :: r.track, marks := r.here :: marks }) := by
  have hround' : Runner.here { r with marks := marks } ≠ v := hround
  simp only [forward, hop, forwardBranchmark, Runner.popMark_cons h, bind, Except.bind, if_pos hround']
  rfl

theorem forward_branchmark_empty (hop : o.op = .branchmark false target) (h : r.marks = r.here :: marks) :
    m.forward o r = .ok (.following, { r with
      track := (m.tag o true : Int) :: r.here :: r.track, marks := marks }) := by
  have hround : ¬ Runner.here { r with marks := marks } ≠ r.here := fun hne => hne rfl
  simp only [forward, hop, forwardBranchmark, Runner.popMark_cons h, bind, Except.bind, if_neg hround]
  rfl

theorem resume_branchmark (hop : o.op = .branchmark false target) (htrack : r.track = p :: v :: track)
    (hmarks : r.marks = w :: marks) :
    m.resume o false r = .ok (.jump (o.id + 1), { r with
      pos := Word.position p, track := (m.tag o true : Int) :: v :: track, marks := marks }) := by
  simp only [resume, hop, resumeBranchmark, Runner.popTrack, htrack, bind, Except.bind, Runner.popMark,
    hmarks, leave, Runner.pushTrack]

theorem undo_branchmark (hop : o.op = .branchmark false target) (h : r.track = v :: track) :
    m.resume o true r = .ok (.fail, { r with track := track, marks := v :: r.marks }) := by
  simp only [resume, hop, redoMark_cons h]

/-- A lazy loop goes on after a round that was not empty, and remembers where the round began; for
the round before the first it remembers where it is. -/
theorem forward_lazyBranchmark (hop : o.op = .branchmark true target) (h : r.marks = v :: marks)
    (hround : r.here ≠ v) :
    m.forward o r = .ok (.following, { r with
      track := (m.tag o false : Int) :: r.here :: (if v ≠ -1 then v else r.here) :: r.track
      marks := marks }) := by
  have hround' : Runner.here { r with marks := marks } ≠ v := hround
  simp only [forward, hop, forwardLazyBranchmark, Runner.popMark_cons h, bind, Except.bind,
    if_pos hround']
  rfl

/-- After an empty round its mark stays. -/
theorem forward_lazyBranchmark_empty (hop : o.op = .branchmark true target)
    (h : r.marks = r.here :: marks) :
    m.forward o r = .ok (.following, { r with track := (m.tag o true : Int) :: r.here :: r.track }) := by
  have hround : ¬ Runner.here { r with marks := marks } ≠ r.here := fun hne => hne rfl
  simp only [forward, hop, forwardLazyBranchmark, Runner.popMark_cons h, bind, Except.bind,
    if_neg hround, leave, Runner.pushTrack, Runner.pushMark, ← h]

theorem resume_lazyBranchmark (hop : o.op = .branchmark true target) (h : r.track = p :: v :: track) :
    m.resume o false r = .ok (.jump target, { r with
      pos := Word.position p, track := (m.tag o true : Int) :: v :: track, marks := p :: r.marks }) := by
  simp only [resume, hop, resumeLazyBranchmark, Runner.popTrack, h, bind, Except.bind, leave,
    Runner.pushTrack, Runner.pushMark]

theorem undo_lazyBranchmark (hop : o.op = .branchmark true target) (htrack : r.track = v :: track)
    (hmarks : r.marks = w :: marks) :
    m.resume o true r = .ok (.fail, { r with track := track, marks := v :: marks }) := by
  simp only [resume, hop, undoLazyBranchmark, Runner.popTrack, htrack, bind, Except.bind, Runner.popMark,
    hmarks, Runner.pushMark]

/-! ### Loops with a count -/

variable {limit : Nat} {count : Int}

theorem forward_branchcount (hop : o.op = .branchcount false target limit)
    (h : r.marks = count :: v :: marks)
    (hround : ¬ ((limit : Int) ≤ count ∨ (r.here = v ∧ 0 ≤ count))) :
    m.forward o r = .ok (.jump target, { r with
      track := (m.tag o false : Int) :: v :: r.track, marks := (count + 1) :: r.here :: marks }) := by
  have hround' : ¬ ((limit : Int) ≤ count ∨ (Runner.here { r with marks := marks } = v ∧ 0 ≤ count)) :=
    hround
  simp only [forward, hop, forwardBranchcount, Runner.popMark, h, bind, Except.bind, if_neg hround']
  rfl

theorem forward_branchcount_done (hop : o.op = .branchcount false target limit)
    (h : r.marks = count :: v :: marks) (hdone : (limit : Int) ≤ count ∨ (r.here = v ∧ 0 ≤ count)) :
    m.forward o r = .ok (.following, { r with
      track := (m.tag o true : Int) :: count :: v :: r.track, marks := marks }) := by
  have hdone' : (limit : Int) ≤ count ∨ (Runner.here { r with marks := marks } = v ∧ 0 ≤ count) := hdone
  simp only [forward, hop, forwardBranchcount, Runner.popMark, h, bind, Except.bind, if_pos hdone']
  rfl

theorem resume_branchcount (hop : o.op = .branchcount false target limit) (htrack : r.track = v :: track)
    (hmarks : r.marks = count :: p :: marks) (hcount : 0 < count) :
    m.resume o false r = .ok (.jump (o.id + 1), { r with
      pos := Word.position p
      track := (m.tag o true : Int) :: (count - 1) :: v :: track
      marks := marks }) := by
  simp only [resume, hop, resumeBranchcount, Runner.popTrack, htrack, bind, Except.bind, Runner.popMark,
    hmarks, if_pos hcount, leave, Runner.pushTrack, Runner.pushTrack2]

theorem resume_branchcount_first (hop : o.op = .branchcount false target limit)
    (htrack : r.track = v :: track) (hmarks : r.marks = count :: p :: marks) (hcount : ¬ 0 < count) :
    m.resume o false r = .ok (.fail, { r with
      track := track, marks := (count - 1) :: v :: marks }) := by
  simp only [resume, hop, resumeBranchcount, Runner.popTrack, htrack, bind, Except.bind, Runner.popMark,
    hmarks, if_neg hcount, Runner.pushMark2]

theorem undo_branchcount (hop : o.op = .branchcount false target limit)
    (h : r.track = count :: v :: track) :
    m.resume o true r = .ok (.fail, { r with track := track, marks := count :: v :: r.marks }) := by
  simp only [resume, hop, undoBranchcount, Runner.popTrack, h, bind, Except.bind, Runner.pushMark2]

theorem forward_lazyBranchcount (hop : o.op = .branchcount true target limit)
    (h : r.marks = count :: v :: marks) (hcount : ¬ count < 0) :
    m.forward o r = .ok (.following, { r with
      track := (m.tag o false : Int) :: r.here :: count :: v :: r.track, marks := marks }) := by
  simp only [forward, hop, forwardLazyBranchcount, Runner.popMark, h, bind, Except.bind, if_neg hcount]
  rfl

/-- A round that must be made. -/
theorem forward_lazyBranchcount_due (hop : o.op = .branchcount true target limit)
    (h : r.marks = count :: v :: marks) (hcount : count < 0) :
    m.forward o r = .ok (.jump target, { r with
      track := (m.tag o true : Int) :: v :: r.track, marks := (count + 1) :: r.here :: marks }) := by
  simp only [forward, hop, forwardLazyBranchcount, Runner.popMark, h, bind, Except.bind, if_pos hcount]
  rfl

theorem resume_lazyBranchcount (hop : o.op = .branchcount true target limit)
    (h : r.track = p :: count :: v :: track) (hround : count < (limit : Int) ∧ p ≠ v) :
    m.resume o false r = .ok (.jump target, { r with
      pos := Word.position p
      track := (m.tag o true : Int) :: v :: track
      marks := (count + 1) :: p :: r.marks }) := by
  simp only [resume, hop, resumeLazyBranchcount, Runner.popTrack, h, bind, Except.bind, if_pos hround,
    leave, Runner.pushTrack, Runner.pushMark2]

theorem resume_lazyBranchcount_done (hop : o.op = .branchcount true target limit)
    (h : r.track = p :: count :: v :: track) (hdone : ¬ (count < (limit : Int) ∧ p ≠ v)) :
    m.resume o false r = .ok (.fail, { r with track := track, marks := count :: v :: r.marks }) := by
  simp only [resume, hop, resumeLazyBranchcount, Runner.popTrack, h, bind, Except.bind, if_neg hdone,
    Runner.pushMark2]

theorem undo_lazyBranchcount (hop : o.op = .branchcount true target limit) (htrack : r.track = v :: track)
    (hmarks : r.marks = count :: p :: marks) :
    m.resume o true r = .ok (.fail, { r with track := track, marks := (count - 1) :: v :: marks }) := by
  simp only [resume, hop, undoLazyBranchcount, Runner.popTrack, htrack, bind, Except.bind, Runner.popMark,
    hmarks, Runner.pushMark2]

end Routine

end PatternCompiler
