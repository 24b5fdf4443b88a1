import PatternCompiler.Program.Resumption
import PatternCompiler.Search.Runner
import PatternCompiler.Culture

/-! How a program runs.

Each operation does one thing at the position: it goes on to the next operation,
jumps, fails or ends the match. After a failure the last tag is taken from the
track, and the operation that left it is resumed: it tries another way or undoes
what it did and fails again. The first operation of a lowered program leaves a
tag that ends the match, so a failure always finds one.

`Routine.run` takes one step after the other, up to a given number. -/
namespace PatternCompiler

/-- Where a run is. -/
inductive MachineState where
  /-- Before the operation with this number. -/
  | running (id : Nat)
  /-- After a failure. -/
  | failing
  /-- At the end. -/
  | halted
deriving DecidableEq, Inhabited

/-- What an operation leads to. -/
inductive Next where
  /-- The operation after it. -/
  | following
  | jump (id : Nat)
  | fail
  | stop
deriving DecidableEq, Inhabited

namespace Runner

/-! ### Reading in a direction -/

/-- There is a character ahead. -/
def hasNext (r : Runner) (o : Operation) : Bool :=
  if o.rightToLeft then r.beg < r.pos else r.pos < r.finish

/-- The number of characters ahead. The position must not be past the end. -/
def available (r : Runner) (o : Operation) : Except Fault Nat :=
  let (low, high) := if o.rightToLeft then (r.beg, r.pos) else (r.pos, r.finish)
  if high < low then .error (.outsideText r.pos) else .ok (high - low)

/-- The position `n` characters ahead. -/
def ahead (r : Runner) (o : Operation) (n : Nat) : Nat :=
  if o.rightToLeft then r.pos - n else r.pos + n

def advance (r : Runner) (o : Operation) (n : Nat) : Runner := { r with pos := r.ahead o n }

/-- The position one character back, as a stack entry. -/
def steppedBack (r : Runner) (o : Operation) : Int :=
  Word.ofPosition (if o.rightToLeft then r.pos + 1 else r.pos - 1)

/-- Where the text of `n` characters ahead begins. -/
def windowStart (r : Runner) (o : Operation) (n : Nat) : Nat :=
  if o.rightToLeft then r.pos - n else r.pos

/-- The character at an index, as the operation sees it. -/
def read (r : Runner) (culture : Culture) (o : Operation) (i : Nat) : Except Fault Char :=
  (fun c => if o.ignoreCase then culture.toLower c else c) <$> r.charAt i

/-- The `n`-th character ahead, counted from 0. -/
def readAhead (r : Runner) (culture : Culture) (o : Operation) (n : Nat) : Except Fault Char :=
  r.read culture o (if o.rightToLeft then r.pos - 1 - n else r.pos + n)

/-! ### Assertions -/

def holds (r : Runner) : Assertion → Except Fault Bool
  | .bol => if r.beg < r.pos then (· == '\n') <$> r.charAt (r.pos - 1) else .ok true
  | .eol => if r.pos < r.finish then (· == '\n') <$> r.charAt r.pos else .ok true
  | .boundary => r.isBoundary r.pos
  | .nonboundary => (!·) <$> r.isBoundary r.pos
  | .ecmaBoundary => r.isEcmaBoundary r.pos
  | .nonEcmaBoundary => (!·) <$> r.isEcmaBoundary r.pos
  | .beginning => .ok (r.pos ≤ r.beg)
  | .start => .ok (r.pos == r.start)
  | .endZ => do
    let next ← Word.after r.pos 1
    if next < r.finish then .ok false
    else if next = r.finish then (· == '\n') <$> r.charAt r.pos
    else .ok true
  | .finish => .ok (r.finish ≤ r.pos)

end Runner

namespace Routine

def culture (m : Routine) : Culture := m.program.code.culture

def passes (m : Routine) (c : Char) : CharTest Nat → Bool
  | .one x => c == x
  | .notone x => c != x
  | .set k => match m.program.code.classes[k]? with
    | some k => k.contains c
    | none => false

/-- Leaves the tag of a resumption. -/
def leave (m : Routine) (o : Operation) (secondary : Bool) (r : Runner) : Runner :=
  r.pushTrack (m.tag o secondary)

/-! ### Operations on characters -/

/-- The first `n` characters ahead pass the test; `done` of them are known to. -/
def allPass (m : Routine) (o : Operation) (t : CharTest Nat) (r : Runner) (done : Nat) :
    Nat → Except Fault Bool
  | 0 => .ok true
  | n + 1 => do
    if m.passes (← r.readAhead m.culture o done) t then allPass m o t r (done + 1) n
    else .ok false

/-- The number of characters ahead that pass the test, `limit` at most. -/
def runLength (m : Routine) (o : Operation) (t : CharTest Nat) (r : Runner) (done : Nat) :
    (limit : Nat) → Except Fault Nat
  | 0 => .ok done
  | limit + 1 => do
    if m.passes (← r.readAhead m.culture o done) t then runLength m o t r (done + 1) limit
    else .ok done

/-- The text at `i` is the given one. -/
def spells (m : Routine) (o : Operation) (r : Runner) (i : Nat) : List Char → Except Fault Bool
  | [] => .ok true
  | c :: cs => do
    if (← r.read m.culture o i) = c then spells m o r (i + 1) cs else .ok false

/-- The texts of `n` characters at `i` and at `j` are the same. -/
def sameText (m : Routine) (o : Operation) (r : Runner) (i j : Nat) : (n : Nat) → Except Fault Bool
  | 0 => .ok true
  | n + 1 => do
    if (← r.read m.culture o i) = (← r.read m.culture o j) then sameText m o r (i + 1) (j + 1) n
    else .ok false

/-- Takes `n` characters ahead if there are as many and they are right. -/
def take (o : Operation) (r : Runner) (n : Nat) (right : Unit → Except Fault Bool) :
    Except Fault (Next × Runner) := do
  if (← r.available o) < n then .ok (.fail, r)
  else if ← right () then .ok (.following, r.advance o n)
  else .ok (.fail, r)

/-- Takes one character if there is one and it passes the test. -/
def forwardTest (m : Routine) (o : Operation) (t : CharTest Nat) (r : Runner) :
    Except Fault (Next × Runner) := do
  if !r.hasNext o then .ok (.fail, r)
  else if m.passes (← r.readAhead m.culture o 0) t then .ok (.following, r.advance o 1)
  else .ok (.fail, r)

def forwardRef (m : Routine) (o : Operation) (slot : Nat) (r : Runner) :
    Except Fault (Next × Runner) :=
  if r.isMatched slot then do
    let index ← r.captures.index slot
    let length ← r.captures.length slot
    take o r length fun _ => m.sameText o r index (r.windowStart o length) length
  else if m.program.code.ecmaScript then .ok (.following, r)
  else .ok (.fail, r)

/-- The greatest number of characters to take. -/
def spanLimit (o : Operation) (r : Runner) (max : Nat) : Except Fault Nat := do
  let available ← r.available o
  .ok (if max = unbounded then available else min available max)

def forwardSpan (m : Routine) (o : Operation) (lazy : Bool) (t : CharTest Nat) (max : Nat)
    (r : Runner) : Except Fault (Next × Runner) := do
  let limit ← spanLimit o r max
  if lazy then
    if 0 < limit then .ok (.following, m.leave o false (r.pushTrack2 (limit - 1) r.here))
    else .ok (.following, r)
  else
    let n ← m.runLength o t r 0 limit
    let r := r.advance o n
    if 0 < n then .ok (.following, m.leave o false (r.pushTrack2 (n - 1) (r.steppedBack o)))
    else .ok (.following, r)

/-! ### Loops over groups -/

def forwardBranchmark (m : Routine) (o : Operation) (target : Nat) (r : Runner) :
    Except Fault (Next × Runner) := do
  let (mark, r) ← r.popMark
  if r.here ≠ mark then
    let r := m.leave o false (r.pushTrack2 mark r.here)
    .ok (.jump target, r.pushMark r.here)
  else .ok (.following, m.leave o true (r.pushTrack mark))

def forwardLazyBranchmark (m : Routine) (o : Operation) (r : Runner) :
    Except Fault (Next × Runner) := do
  let (mark, r) ← r.popMark
  if r.here ≠ mark then
    .ok (.following, m.leave o false (r.pushTrack2 (if mark ≠ -1 then mark else r.here) r.here))
  else .ok (.following, m.leave o true ((r.pushMark mark).pushTrack mark))

def forwardBranchcount (m : Routine) (o : Operation) (target limit : Nat) (r : Runner) :
    Except Fault (Next × Runner) := do
  let (count, r) ← r.popMark
  let (mark, r) ← r.popMark
  if (limit : Int) ≤ count ∨ (r.here = mark ∧ 0 ≤ count) then
    .ok (.following, m.leave o true (r.pushTrack2 mark count))
  else
    .ok (.jump target, (m.leave o false (r.pushTrack mark)).pushMark2 r.here (count + 1))

def forwardLazyBranchcount (m : Routine) (o : Operation) (target : Nat) (r : Runner) :
    Except Fault (Next × Runner) := do
  let (count, r) ← r.popMark
  let (mark, r) ← r.popMark
  if count < 0 then
    .ok (.jump target, (m.leave o true (r.pushTrack mark)).pushMark2 r.here (count + 1))
  else .ok (.following, m.leave o false ((r.pushTrack2 mark count).pushTrack r.here))

/-! ### All operations -/

/-- Captures what is between the last mark and the position. -/
def forwardCapturemark (m : Routine) (o : Operation) (slot uncapture : Option Nat) (r : Runner) :
    Except Fault (Next × Runner) := do
  if uncapture.any (!r.isMatched ·) then .ok (.fail, r)
  else
    let (mark, r) ← r.popMark
    let start := Word.position mark
    let r ← match slot, uncapture with
      | slot, some u => r.transfer slot u start r.pos
      | some s, none => r.capture s start r.pos
      | none, none => .ok r
    .ok (.following, m.leave o false (r.pushTrack mark))

/-- Does an operation for the first time. -/
def forward (m : Routine) (o : Operation) (r : Runner) : Except Fault (Next × Runner) :=
  match o.op with
  | .rep t count => take o r count fun _ => m.allPass o t r 0 count
  | .span lazy t max => m.forwardSpan o lazy t max r
  | .test t => m.forwardTest o t r
  | .multi i =>
    let cs := m.program.code.strings.getD i []
    take o r cs.length fun _ => m.spells o r (r.windowStart o cs.length) cs
  | .ref slot => m.forwardRef o slot r
  | .assertion a => do .ok (if ← r.holds a then .following else .fail, r)
  | .nothing => .ok (.fail, r)
  | .lazybranch _ => .ok (.following, m.leave o false (r.pushTrack r.here))
  | .branchmark false target => m.forwardBranchmark o target r
  | .branchmark true _ => m.forwardLazyBranchmark o r
  | .nullcount n => .ok (.following, m.leave o false (r.pushMark2 (-1) n))
  | .setcount n => .ok (.following, m.leave o false (r.pushMark2 r.here n))
  | .branchcount false target limit => m.forwardBranchcount o target limit r
  | .branchcount true target _ => m.forwardLazyBranchcount o target r
  | .nullmark => .ok (.following, m.leave o false (r.pushMark (-1)))
  | .setmark => .ok (.following, m.leave o false (r.pushMark r.here))
  | .capturemark slot uncapture => m.forwardCapturemark o slot uncapture r
  | .getmark => do
    let (mark, r) ← r.popMark
    .ok (.following, m.leave o false { r.pushTrack mark with pos := Word.position mark })
  | .setjump => .ok (.following, m.leave o false (r.pushMark2 r.trackDepth r.crawlDepth))
  | .backjump => do
    let (crawl, r) ← r.popMark
    let (track, r) ← r.popMark
    let r ← (r.trackTo (Word.position track)).uncaptureTo (Word.position crawl)
    .ok (.fail, r)
  | .forejump => do
    let (crawl, r) ← r.popMark
    let (track, r) ← r.popMark
    .ok (.following, m.leave o false ((r.trackTo (Word.position track)).pushTrack crawl))
  | .testref slot => .ok (if r.isMatched slot then .following else .fail, r)
  | .goto target => .ok (.jump target, r)
  | .stop => .ok (.stop, r)

/-! ### Resumptions -/

/-- Gives one character back, or takes one more. -/
def resumeSpan (m : Routine) (o : Operation) (lazy : Bool) (t : CharTest Nat) (r : Runner) :
    Except Fault (Next × Runner) := do
  let (p, r) ← r.popTrack
  let (i, r) ← r.popTrack
  let r := { r with pos := Word.position p }
  if lazy then
    if m.passes (← r.readAhead m.culture o 0) t then
      let r := r.advance o 1
      let r := if 0 < i then m.leave o false (r.pushTrack2 (i - 1) r.here) else r
      .ok (.jump (o.id + 1), r)
    else .ok (.fail, r)
  else
    let r := if 0 < i then m.leave o false (r.pushTrack2 (i - 1) (r.steppedBack o)) else r
    .ok (.jump (o.id + 1), r)

/-- Drops two marks. -/
def undoMark2 (r : Runner) : Except Fault (Next × Runner) := do
  let (_, r) ← r.popMark
  let (_, r) ← r.popMark
  .ok (.fail, r)

/-- Puts the mark from the track back. -/
def redoMark (r : Runner) : Except Fault (Next × Runner) := do
  let (mark, r) ← r.popTrack
  .ok (.fail, r.pushMark mark)

/-- Leaves the loop where the last round began. -/
def resumeBranchmark (m : Routine) (o : Operation) (r : Runner) : Except Fault (Next × Runner) := do
  let (p, r) ← r.popTrack
  let (mark, r) ← r.popTrack
  let (_, r) ← r.popMark
  let r := m.leave o true ({ r with pos := Word.position p }.pushTrack mark)
  .ok (.jump (o.id + 1), r)

/-- Begins one more round. -/
def resumeLazyBranchmark (m : Routine) (o : Operation) (target : Nat) (r : Runner) :
    Except Fault (Next × Runner) := do
  let (p, r) ← r.popTrack
  let (mark, r) ← r.popTrack
  let r := (m.leave o true (r.pushTrack mark)).pushMark p
  .ok (.jump target, { r with pos := Word.position p })

def undoLazyBranchmark (r : Runner) : Except Fault (Next × Runner) := do
  let (_, r) ← r.popMark
  let (mark, r) ← r.popTrack
  .ok (.fail, r.pushMark mark)

/-- Leaves the loop where the last round began, if a round may be missing. -/
def resumeBranchcount (m : Routine) (o : Operation) (r : Runner) : Except Fault (Next × Runner) := do
  let (mark, r) ← r.popTrack
  let (count, r) ← r.popMark
  let (here, r) ← r.popMark
  if 0 < count then
    let r := { r with pos := Word.position here }
    .ok (.jump (o.id + 1), m.leave o true (r.pushTrack2 mark (count - 1)))
  else .ok (.fail, r.pushMark2 mark (count - 1))

def undoBranchcount (r : Runner) : Except Fault (Next × Runner) := do
  let (count, r) ← r.popTrack
  let (mark, r) ← r.popTrack
  .ok (.fail, r.pushMark2 mark count)

/-- Begins one more round, if there may be one and the last was not empty. -/
def resumeLazyBranchcount (m : Routine) (o : Operation) (target limit : Nat) (r : Runner) :
    Except Fault (Next × Runner) := do
  let (p, r) ← r.popTrack
  let (count, r) ← r.popTrack
  let (mark, r) ← r.popTrack
  if count < (limit : Int) ∧ p ≠ mark then
    let r := { r with pos := Word.position p }.pushMark2 p (count + 1)
    .ok (.jump target, m.leave o true (r.pushTrack mark))
  else .ok (.fail, r.pushMark2 mark count)

def undoLazyBranchcount (r : Runner) : Except Fault (Next × Runner) := do
  let (mark, r) ← r.popTrack
  let (count, r) ← r.popMark
  let (_, r) ← r.popMark
  .ok (.fail, r.pushMark2 mark (count - 1))

/-- Undoes the captures since a depth that the track tells. -/
def undoForejump (r : Runner) : Except Fault (Next × Runner) := do
  let (crawl, r) ← r.popTrack
  .ok (.fail, ← r.uncaptureTo (Word.position crawl))

def undoCapturemark (slot uncapture : Option Nat) (r : Runner) : Except Fault (Next × Runner) := do
  let (mark, r) ← r.popTrack
  let r ← (r.pushMark mark).uncaptureTimes (slot.isSome.toNat + uncapture.isSome.toNat)
  .ok (.fail, r)

/-- Resumes an operation at one of its points. -/
def resume (m : Routine) (o : Operation) (secondary : Bool) (r : Runner) :
    Except Fault (Next × Runner) :=
  match o.op, secondary with
  | .span lazy t _, _ => m.resumeSpan o lazy t r
  | .lazybranch target, _ => do
    let (p, r) ← r.popTrack
    .ok (.jump target, { r with pos := Word.position p })
  | .branchmark false _, false => m.resumeBranchmark o r
  | .branchmark false _, true => redoMark r
  | .branchmark true target, false => m.resumeLazyBranchmark o target r
  | .branchmark true _, true => undoLazyBranchmark r
  | .nullcount _, _ => undoMark2 r
  | .setcount _, _ => undoMark2 r
  | .branchcount false _ _, false => m.resumeBranchcount o r
  | .branchcount false _ _, true => undoBranchcount r
  | .branchcount true target limit, false => m.resumeLazyBranchcount o target limit r
  | .branchcount true _ _, true => undoLazyBranchcount r
  | .nullmark, _ => do .ok (.fail, (← r.popMark).2)
  | .setmark, _ => do .ok (.fail, (← r.popMark).2)
  | .capturemark slot uncapture, _ => undoCapturemark slot uncapture r
  | .getmark, _ => redoMark r
  | .setjump, _ => undoMark2 r
  | .forejump, _ => undoForejump r
  | _, _ => .ok (.fail, r)

/-! ### Running -/

/-- The state at the operation with the given number. The number past the last one stands for
a failure. -/
def enter (m : Routine) (id : Nat) : MachineState :=
  if id = m.operations.size then .failing else .running id

/-- The state that the operation `id` leads to. The last one may be followed by the end. -/
def stateAfter (m : Routine) (id : Nat) : Next → MachineState
  | .following => if id + 1 < m.operations.size then .running (id + 1) else .halted
  | .jump target => m.enter target
  | .fail => .failing
  | .stop => .halted

/-- Takes a tag from the track and finds the operation to resume. -/
def popTag (m : Routine) (r : Runner) : Except Fault (Operation × Bool × Runner) := do
  let (v, r) ← r.popTrack
  match if v < 0 then none else m.resumptions[v.toNat]? with
  | none => .error (.unknownTag v)
  | some s => match m.operations[s.id]? with
    | some o => .ok (o, s.secondary, r)
    | none => .error (.unknownTag v)

def step (m : Routine) (s : MachineState) (r : Runner) : Except Fault (MachineState × Runner) :=
  match s with
  | .halted => .ok (.halted, r)
  | .running id => match m.operations[id]? with
    | none => .ok (.halted, r)
    | some o => do
      let (next, r) ← m.forward o r
      .ok (m.stateAfter id next, r)
  | .failing => do
    let (o, secondary, r) ← m.popTag r
    let (next, r) ← m.resume o secondary r
    .ok (m.stateAfter o.id next, r)

/-- Runs to the end, in no more than the given number of steps. -/
def run (m : Routine) : (budget : Nat) → MachineState → Runner → Except Fault Runner
  | _, .halted, r => .ok r
  | 0, _, _ => .error .outOfSteps
  | budget + 1, s, r => do
    let (s, r) ← m.step s r
    run m budget s r

/-- Attempts a match at the position. Slot 0 tells afterwards whether there is one. -/
def attempt (m : Routine) (budget : Nat) (r : Runner) : Except Fault Runner :=
  m.run budget (.running 0) r

end Routine

end PatternCompiler
