import PatternCompiler.Program.Start
import PatternCompiler.Search.Runner
import PatternCompiler.Search.Skip

/-! The next candidate.

`Runner.findStart` moves the position to the next one at which a match can start,
as a plan tells it. If there is none, the position goes to where the search
ends. -/
namespace PatternCompiler.Runner

/-- There is no candidate: the search ends at the far end of the text. -/
def noStart (r : Runner) (rightToLeft : Bool) : Bool × Runner :=
  (false, { r with pos := if rightToLeft then r.beg else r.finish })

/-! ### Anchors -/

/-- Anchors at the end move the position forward to it. -/
def clampForward (r : Runner) (s : AnchorSet) : Except Fault Runner := do
  if s.contains .finish then
    .ok (if r.pos < r.finish then { r with pos := r.finish } else r)
  else if s.contains .endZ then
    .ok (if (← Word.after r.pos 1) < r.finish then { r with pos := r.finish - 1 } else r)
  else .ok r

/-- Anchors at the beginning refuse a position after it. -/
def startAnchoredForward (r : Runner) (s : AnchorSet) : Except Fault (Bool × Runner) := do
  let r ← r.clampForward s
  if s.contains .beginning && r.beg < r.pos then .ok (r.noStart false)
  else if s.contains .start && r.start < r.pos then .ok (r.noStart false)
  else .ok (true, r)

/-- Neither at the end nor just before a line break there. -/
def beforeEndZ (r : Runner) : Except Fault Bool := do
  let next ← Word.after r.pos 1
  if next < r.finish then .ok true
  else if next = r.finish then (· != '\n') <$> r.charAt r.pos
  else .ok false

/-- The anchor at the beginning moves the position back to it, the others refuse a position
before the one they pin. -/
def startAnchoredBackward (r : Runner) (s : AnchorSet) : Except Fault (Bool × Runner) := do
  let r := if s.contains .beginning && r.beg < r.pos then { r with pos := r.beg } else r
  if s.contains .finish && r.pos < r.finish then .ok (r.noStart true)
  else
    let before ← if s.contains .endZ then r.beforeEndZ else .ok false
    if before then .ok (r.noStart true)
    else if s.contains .start && r.pos < r.start then .ok (r.noStart true)
    else .ok (true, r)

/-! ### Lines and characters -/

/-- The position after the next line break among the characters from `i` on. -/
def nextLine? (text : Array Char) : (rounds i : Nat) → Option Nat
  | 0, _ => none
  | rounds + 1, i =>
    match text[i]? with
    | some '\n' => some (i + 1)
    | _ => nextLine? text rounds (i + 1)

/-- The beginning of a line at or after the position; nothing if there is none. -/
def toLineStart (r : Runner) : Except Fault (Option Runner) :=
  if r.beg < r.pos then do
    if (← r.charAt (r.pos - 1)) = '\n' then .ok (some r)
    else .ok ((nextLine? r.text (r.finish - r.pos) r.pos).map fun i => { r with pos := i })
  else .ok (some r)

/-- Looks for a position from `i` on before a character that passes the test. -/
def scanForward (r : Runner) (test : Char → Bool) : (rounds i : Nat) → Except Fault (Bool × Runner)
  | 0, _ => .ok (r.noStart false)
  | rounds + 1, i =>
    if i < r.finish then do
      if test (← r.charAt i) then .ok (true, { r with pos := i })
      else scanForward r test rounds (i + 1)
    else .ok (r.noStart false)

/-- Looks for a position from `i` back after a character that passes the test. -/
def scanBackward (r : Runner) (test : Char → Bool) : (i : Nat) → Except Fault (Bool × Runner)
  | 0 => .ok (r.noStart true)
  | i + 1 =>
    if r.beg < i + 1 then do
      if test (← r.charAt i) then .ok (true, { r with pos := i + 1 })
      else scanBackward r test i
    else .ok (r.noStart true)

def scanFor (r : Runner) (rightToLeft : Bool) (test : Char → Bool) : Except Fault (Bool × Runner) :=
  if rightToLeft then r.scanBackward test r.pos
  else r.scanForward test (r.finish - r.pos) r.pos

/-! ### Plans -/

def follow (r : Runner) (rightToLeft : Bool) (culture : Culture) :
    StartStrategy → Except Fault (Bool × Runner)
  | .anchors s => if rightToLeft then r.startAnchoredBackward s else r.startAnchoredForward s
  | .skip l => do
    match ← l.find culture r.text r.beg r.pos r.finish with
    | some p => .ok (true, { r with pos := p })
    | none => .ok (r.noStart rightToLeft)
  | .firstChar c ignoreCase =>
    r.scanFor rightToLeft fun x => (if ignoreCase then culture.toLower x else x) == c
  | .firstClass k ignoreCase =>
    r.scanFor rightToLeft fun x => k.contains (if ignoreCase then culture.toLower x else x)
  | .anywhere => .ok (true, r)

/-- Moves to the next candidate, and tells whether there is one. -/
def findStart (r : Runner) (p : Program) : Except Fault (Bool × Runner) := do
  let plan := p.start
  if plan.lineStart then
    match ← r.toLineStart with
    | some r => r.follow p.code.rightToLeft p.code.culture plan.strategy
    | none => .ok (r.noStart false)
  else r.follow p.code.rightToLeft p.code.culture plan.strategy

end PatternCompiler.Runner
