import PatternCompiler.Search.Matcher

/-! Matchers that follow a script.

A `Script` says which positions are candidates and what an attempt at a position
does, as a list of `RunnerStep`s. It is the plainest matcher there is, and
drives a search without any pattern. -/
namespace PatternCompiler

/-- One thing to do with the state of a search. -/
inductive RunnerStep where
  | pushTrack (v : Int)
  | pushTrack2 (a b : Int)
  | popTrack
  | trackTo (depth : Nat)
  | pushMark (v : Int)
  | pushMark2 (a b : Int)
  | popMark
  /-- Stacks grow by themselves, so nothing is to be done for more room. -/
  | ensureStorage
  | capture (slot a b : Nat)
  | transfer (slot : Option Nat) (uncapture a b : Nat)
  | uncapture
  | isMatched (slot : Nat)
  | index (slot : Nat)
  | length (slot : Nat)
  | isBoundary (pos : Nat)
  | isEcmaBoundary (pos : Nat)
  | setBeg (n : Nat)
  | setFinish (n : Nat)
  | setPos (n : Nat)
deriving DecidableEq, Inhabited

/-- What a step tells. -/
inductive StepReply where
  | nothing
  | number (n : Int)
  | truth (b : Bool)
deriving DecidableEq, Inhabited

namespace Runner

def perform (r : Runner) : RunnerStep → Except Fault (StepReply × Runner)
  | .pushTrack v => .ok (.nothing, r.pushTrack v)
  | .pushTrack2 a b => .ok (.nothing, r.pushTrack2 a b)
  | .popTrack => do
    let (v, r) ← r.popTrack
    .ok (.number v, r)
  | .trackTo depth => .ok (.nothing, r.trackTo depth)
  | .pushMark v => .ok (.nothing, r.pushMark v)
  | .pushMark2 a b => .ok (.nothing, r.pushMark2 a b)
  | .popMark => do
    let (v, r) ← r.popMark
    .ok (.number v, r)
  | .ensureStorage => .ok (.nothing, r)
  | .capture slot a b => do .ok (.nothing, ← r.capture slot a b)
  | .transfer slot uncapture a b => do .ok (.nothing, ← r.transfer slot uncapture a b)
  | .uncapture => do .ok (.nothing, ← r.uncapture)
  | .isMatched slot => .ok (.truth (r.isMatched slot), r)
  | .index slot => do .ok (.number (← r.captures.index slot), r)
  | .length slot => do .ok (.number (← r.captures.length slot), r)
  | .isBoundary pos => do .ok (.truth (← r.isBoundary pos), r)
  | .isEcmaBoundary pos => do .ok (.truth (← r.isEcmaBoundary pos), r)
  | .setBeg n => .ok (.nothing, { r with beg := n })
  | .setFinish n => .ok (.nothing, { r with finish := n })
  | .setPos n => .ok (.nothing, { r with pos := n })

def performAll (r : Runner) : List RunnerStep → Except Fault Runner
  | [] => .ok r
  | s :: rest => do
    let (_, r) ← r.perform s
    performAll r rest

end Runner

structure Script where
  /-- The candidates; without a list every position is one. -/
  candidates : Option (List Nat)
  /-- What an attempt at a position does; at any other one it does nothing. -/
  attempts : List (Nat × List RunnerStep)
deriving Inhabited

namespace Script

/-- The nearest of the candidates at or beyond a position. -/
def nearest? (rightToLeft : Bool) (pos : Nat) (candidates : List Nat) : Option Nat :=
  if rightToLeft then (candidates.filter (· ≤ pos)).max? else (candidates.filter (pos ≤ ·)).min?

def findStart (s : Script) (rightToLeft : Bool) (r : Runner) : Bool × Runner :=
  match s.candidates with
  | none => (true, r)
  | some candidates => match nearest? rightToLeft r.pos candidates with
    | some p => (true, { r with pos := p })
    | none => r.noStart rightToLeft

def attempt (s : Script) (r : Runner) : Except Fault Runner :=
  r.performAll ((s.attempts.lookup r.pos).getD [])

/-- The matcher that follows a script. -/
def matcher (s : Script) (groupNumbers : List Nat) (groupNames : List String)
    (rightToLeft : Bool) : Matcher where
  groupNumbers := groupNumbers
  groupNames := groupNames
  rightToLeft := rightToLeft
  findStart := fun r => .ok (s.findStart rightToLeft r)
  attempt := s.attempt

end Script

end PatternCompiler
