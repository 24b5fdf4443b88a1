import PatternCompiler.Search.Captures
import PatternCompiler.Unicode.Property

/-! The state of a search.

Three stacks go with the position in the text: the track holds what to return to
after a failure, the marks hold positions and counters of open groups and loops,
and the crawl holds the slot of every entry among the captures, so that these can
be undone in reverse order.

Entries of the track and the marks are words; `Runner.here` is the position as one. -/
namespace PatternCompiler

structure Runner where
  text : Array Char
  /-- The least position a match may touch. -/
  beg : Nat := 0
  /-- The position after the last character a match may touch. -/
  finish : Nat
  /-- Where the search started. -/
  start : Nat := 0
  pos : Nat := 0
  /-- What to return to, the last entry first. -/
  track : List Int := []
  /-- The marks, the last one first. -/
  marks : List Int := []
  /-- The slots of the captures, the last one first. -/
  crawl : List Nat := []
  captures : Captures
deriving Inhabited

namespace Runner

/-- Before a search. -/
def ofText (text : String) (slots : Nat) : Runner :=
  let cs := text.toList.toArray
  { text := cs, finish := cs.size, captures := Captures.ofSlots slots }

/-- The greatest number of bytes that storage may take. -/
def maxStorage : Nat := 9223372036854775807

/-- Before a search by a program in which `tags` operations leave tags. Each stack has room for
eight words for each of them from the start, and a slot takes three words. -/
def reserve (text : String) (slots tags : Nat) : Except Fault Runner :=
  if maxStorage < 64 * tags ∨ maxStorage < 24 * slots then .error .noStorage
  else .ok (ofText text slots)

/-- Empties the stacks and the captures before an attempt to match. -/
def reset (r : Runner) : Runner :=
  { r with track := [], marks := [], crawl := [], captures := r.captures.reset }

/-! ### Stacks -/

/-- The position as a stack entry. -/
def here (r : Runner) : Int := Word.ofPosition r.pos

def pushTrack (r : Runner) (v : Int) : Runner := { r with track := v :: r.track }

/-- Pushes `a` and then `b`. -/
def pushTrack2 (r : Runner) (a b : Int) : Runner := { r with track := b :: a :: r.track }

def popTrack (r : Runner) : Except Fault (Int × Runner) :=
  match r.track with
  | [] => .error .trackUnderflow
  | v :: rest => .ok (v, { r with track := rest })

def trackDepth (r : Runner) : Nat := r.track.length

/-- Drops what is above the given depth. -/
def trackTo (r : Runner) (depth : Nat) : Runner :=
  { r with track := r.track.drop (r.track.length - depth) }

def pushMark (r : Runner) (v : Int) : Runner := { r with marks := v :: r.marks }

/-- Pushes `a` and then `b`. -/
def pushMark2 (r : Runner) (a b : Int) : Runner := { r with marks := b :: a :: r.marks }

def popMark (r : Runner) : Except Fault (Int × Runner) :=
  match r.marks with
  | [] => .error .markUnderflow
  | v :: rest => .ok (v, { r with marks := rest })

def crawlDepth (r : Runner) : Nat := r.crawl.length

/-! ### Captures -/

def isMatched (r : Runner) (slot : Nat) : Bool := r.captures.isMatched slot

/-- Captures what is between two positions, given in either order. -/
def capture (r : Runner) (slot a b : Nat) : Except Fault Runner := do
  let captures ← r.captures.add slot (min a b) (max a b - min a b)
  .ok { r with crawl := slot :: r.crawl, captures := captures }

/-- What two intervals, each given by its ends in order, have in common if they overlap, and
else what is between them. -/
def between (a b : Nat × Nat) : Nat × Nat :=
  if b.2 ≤ a.1 then (b.2, a.1)
  else if a.2 ≤ b.1 then (a.2, b.1)
  else (max a.1 b.1, min a.2 b.2)

/-- Takes back the last capture of `uncapture`. If a slot is given, it captures what is
between that one and the interval from `a` to `b`. -/
def transfer (r : Runner) (slot : Option Nat) (uncapture a b : Nat) : Except Fault Runner := do
  let index ← r.captures.index uncapture
  let length ← r.captures.length uncapture
  let (s, e) := between (min a b, max a b) (index, ← Word.after index length)
  let captures ← r.captures.balance uncapture
  let r := { r with crawl := uncapture :: r.crawl, captures := captures }
  match slot with
  | none => .ok r
  | some slot => do
    let captures ← r.captures.add slot s (e - s)
    .ok { r with crawl := slot :: r.crawl, captures := captures }

/-- Undoes the last entry among the captures. -/
def uncapture (r : Runner) : Except Fault Runner :=
  match r.crawl with
  | [] => .error .crawlUnderflow
  | slot :: rest => .ok { r with crawl := rest, captures := r.captures.remove slot }

/-- Undoes as many entries. -/
def uncaptureTimes (r : Runner) : Nat → Except Fault Runner
  | 0 => .ok r
  | n + 1 => do (← r.uncapture).uncaptureTimes n

/-- Undoes the entries above the given depth, which there must be. -/
def uncaptureTo (r : Runner) (depth : Nat) : Except Fault Runner :=
  if r.crawl.length < depth then .error .crawlUnderflow
  else r.uncaptureTimes (r.crawl.length - depth)

/-! ### Text -/

def charAt (r : Runner) (i : Nat) : Except Fault Char :=
  match r.text[i]? with
  | some c => .ok c
  | none => .error (.outsideText i)

/-- The character at `i` exists within the bounds and is a word character. -/
def wordAt (r : Runner) (isWord : Char → Bool) (inside : Bool) (i : Nat) : Except Fault Bool :=
  if inside then isWord <$> r.charAt i else .ok false

/-- Of the characters before and after a position, just one is a word character. -/
def boundary (r : Runner) (isWord : Char → Bool) (pos : Nat) : Except Fault Bool := do
  let before ← r.wordAt isWord (r.beg < pos) (pos - 1)
  let after ← r.wordAt isWord (pos < r.finish) pos
  .ok (before != after)

def isBoundary (r : Runner) (pos : Nat) : Except Fault Bool := r.boundary Unicode.isWord pos

def isEcmaBoundary (r : Runner) (pos : Nat) : Except Fault Bool := r.boundary Unicode.isEcmaWord pos

end Runner

end PatternCompiler
