import PatternCompiler.Search.Machine
import PatternCompiler.Search.Start

/-! Searching.

A `Matcher` finds candidates and attempts a match at each. `Matcher.scan` tries
one candidate after the other; between two of them the position moves by one, so
a candidate is not tried twice. An `Iteration` goes on after each match from where
it ended, and past an empty one by a character, so that it is not found again.

A search takes a bound on its rounds, as a matcher may send it back and forth. -/
namespace PatternCompiler

/-! ### Matches -/

/-- What a group captured on one occasion. -/
structure Capture where
  index : Nat
  text : List Char
deriving DecidableEq, Inhabited

namespace Capture

def size (c : Capture) : Nat := c.text.length

def finish (c : Capture) : Nat := c.index + c.size

end Capture

/-- A group of a match, with all its captures, the oldest first. -/
structure Group where
  number : Nat
  name : String
  captures : List Capture
deriving DecidableEq, Inhabited

namespace Group

def isSuccess (g : Group) : Bool := !g.captures.isEmpty

/-- The last capture. -/
def last? (g : Group) : Option Capture := g.captures.getLast?

/-- The text of the last capture, or none at all. -/
def text (g : Group) : List Char := (g.last?.map Capture.text).getD []

end Group

structure Match where
  groups : List Group
  /-- Where the match ended in the direction of the search. -/
  pos : Nat
deriving DecidableEq, Inhabited

namespace Match

/-- The capture of the whole match. -/
def whole? (m : Match) : Option Capture := m.groups.head?.bind Group.last?

def groupNumbered? (m : Match) (number : Nat) : Option Group := m.groups.find? (·.number == number)

def groupNamed? (m : Match) (name : String) : Option Group := m.groups.find? (·.name == name)

end Match

/-! ### Matchers -/

structure Matcher where
  /-- The number of the group in each slot. -/
  groupNumbers : List Nat
  /-- The name of the group in each slot. -/
  groupNames : List String
  rightToLeft : Bool
  /-- Moves to the next candidate, and tells whether there is one. -/
  findStart : Runner → Except Fault (Bool × Runner)
  /-- Attempts a match at the position. -/
  attempt : Runner → Except Fault Runner

/-- The matcher of a program; an attempt takes no more than the given number of steps. -/
def Program.matcher (p : Program) (budget : Nat) : Matcher :=
  let routine := Routine.ofProgram p
  { groupNumbers := p.code.groupNumbers
    groupNames := p.groupNames
    rightToLeft := p.code.rightToLeft
    findStart := fun r => r.findStart p
    attempt := routine.attempt budget }

namespace Runner

/-- The text of a capture. -/
def captureAt (r : Runner) (index length : Nat) : Except Fault Capture :=
  if index + length ≤ r.text.size then
    .ok ⟨index, (r.text.extract index (index + length)).toList⟩
  else .error (.outsideText (index + length))

/-- What the group in a slot has captured in the end. -/
def group (r : Runner) (slot number : Nat) (name : String) : Except Fault Group := do
  let captures ← (← r.captures.surviving slot).mapM fun (index, length) => r.captureAt index length
  .ok ⟨number, name, captures⟩

/-- The groups in the slots from `slot` on. A slot without a name is called by the empty text. -/
def groupsFrom (r : Runner) (slot : Nat) : (numbers : List Nat) → (names : List String) →
    Except Fault (List Group)
  | [], _ => .ok []
  | n :: ns, names => do
    let g ← r.group slot n (names.headD "")
    .ok (g :: (← groupsFrom r (slot + 1) ns names.tail))

/-- Moves by one character in the direction of a search. -/
def bump (r : Runner) (rightToLeft : Bool) : Except Fault Runner :=
  if rightToLeft then
    if r.pos = 0 then .error (.outsideText 0) else .ok { r with pos := r.pos - 1 }
  else do .ok { r with pos := ← Word.after r.pos 1 }

end Runner

namespace Matcher

/-- The state before a search. -/
def runner (m : Matcher) (text : String) : Runner := Runner.ofText text m.groupNumbers.length

/-- The match that an attempt has left. -/
def matchOf (m : Matcher) (r : Runner) : Except Fault Match := do
  .ok ⟨← r.groupsFrom 0 m.groupNumbers m.groupNames, r.pos⟩

/-- Tries the next candidate: the state after it, and whether there was a match. -/
def tryNext (m : Matcher) (r : Runner) : Except Fault (Bool × Runner) := do
  let (candidate, r) ← m.findStart r
  if candidate then
    let r ← m.attempt r.reset
    .ok (0 < r.captures.count 0, r)
  else .ok (false, r)

/-- Tries candidates from the position on, up to and with the position `stop`. -/
def scanFrom (m : Matcher) (stop : Nat) :
    (rounds : Nat) → Runner → Except Fault (Option Match × Runner)
  | 0, _ => .error .outOfSteps
  | rounds + 1, r => do
    let (found, r) ← m.tryNext r
    if found then .ok (some (← m.matchOf r), r)
    else if r.pos = stop then .ok (none, r)
    else scanFrom m stop rounds (← r.bump m.rightToLeft)

/-- Searches from `start` on. After an empty match the search begins one character further. -/
def scan (m : Matcher) (rounds : Nat) (r : Runner) (start : Nat) (afterEmpty : Bool) :
    Except Fault (Option Match × Runner) := do
  let stop := if m.rightToLeft then r.beg else r.finish
  let r := { r with start := start, pos := start }
  if afterEmpty then
    if start = stop then .ok (none, r) else m.scanFrom stop rounds (← r.bump m.rightToLeft)
  else m.scanFrom stop rounds r

/-- Where a search begins. -/
def firstStart (m : Matcher) (r : Runner) : Nat := if m.rightToLeft then r.finish else 0

/-- The first match in the direction of the search. -/
def find (m : Matcher) (rounds : Nat) (text : String) : Except Fault (Option Match) := do
  let r := m.runner text
  .ok (← m.scan rounds r (m.firstStart r) false).1

/-- The first match when the search begins at `start`. -/
def findAt (m : Matcher) (rounds : Nat) (text : String) (start : Nat) :
    Except Fault (Option Match) := do
  let r := m.runner text
  if r.finish < start then .error (.outsideText start)
  else .ok (← m.scan rounds r start false).1

def isMatch (m : Matcher) (rounds : Nat) (text : String) : Except Fault Bool :=
  Option.isSome <$> m.find rounds text

end Matcher

/-! ### Iterations -/

/-- Where an iteration over matches is. -/
structure Iteration where
  runner : Runner
  /-- Where the next search begins. -/
  next : Nat
  /-- The length of the last match. -/
  previous : Option Nat := none
  /-- A search has found nothing. -/
  done : Bool := false
deriving Inhabited

namespace Matcher

/-- Before the first match. -/
def iterate (m : Matcher) (text : String) : Iteration :=
  let r := m.runner text
  { runner := r, next := m.firstStart r }

/-- The next match. -/
def advance (m : Matcher) (rounds : Nat) (it : Iteration) : Except Fault (Option Match × Iteration) :=
  if it.done then .ok (none, it)
  else
    match m.scan rounds it.runner it.next (it.previous == some 0) with
    | .error e => .error e
    | .ok (none, r) => .ok (none, { it with runner := r, done := true })
    | .ok (some x, r) => match x.whole? with
      | none => .error (.noCapture 0)
      | some whole => .ok (some x, { it with runner := r, next := x.pos, previous := some whole.size })

/-- The matches that are left, and the fault that ended the search, if one did. -/
def collect (m : Matcher) (rounds : Nat) : (matches_ : Nat) → Iteration → List Match × Option Fault
  | 0, _ => ([], some .outOfSteps)
  | n + 1, it =>
    match m.advance rounds it with
    | .error e => ([], some e)
    | .ok (none, _) => ([], none)
    | .ok (some x, it) =>
      let (rest, e) := collect m rounds n it
      (x :: rest, e)

/-- All matches, one after the other, and the fault that ended the search, if one did. -/
def findAll (m : Matcher) (rounds : Nat) (text : String) : List Match × Option Fault :=
  m.collect rounds rounds (m.iterate text)

end Matcher

end PatternCompiler
