import PatternCompiler.Search.Word

/-! What the groups have captured.

Every slot has a history of entries, and an entry is two words: where the capture
starts and how long it is. A balancing group does not delete a capture. It adds
an entry that says how the group reads from now on, so a step back only has to
drop the last entry. Such an entry has negative words: a word `-3 - k` refers to
the word in place `k` of the same history, and the length `-2` says that nothing
is left.

`Captures.surviving` tells which captures are left in the end: each negative word
cancels the word before it, so a balancing entry cancels a capture. -/
namespace PatternCompiler

/-- The entries of one slot. -/
structure CaptureHistory where
  /-- The words of the entries, the oldest first. Entries that were dropped may follow, until
  new ones replace them. -/
  words : Array Int := #[]
  /-- The number of entries. -/
  count : Nat := 0
deriving DecidableEq, Inhabited

namespace CaptureHistory

/-! ### Entries -/

/-- The word in a place. -/
def word? (h : CaptureHistory) (k : Int) : Option Int :=
  if k < 0 then none else h.words[k.toNat]?

/-- The words of all entries. -/
def entries (h : CaptureHistory) : List Int := h.words.toList.take (2 * h.count)

/-- The place where the last entry begins. -/
def last (h : CaptureHistory) : Int := 2 * h.count - 2

def add (h : CaptureHistory) (index length : Int) : CaptureHistory where
  words := ((h.words.shrink (2 * h.count)).push index).push length
  count := h.count + 1

/-- Drops the last entry. -/
def remove (h : CaptureHistory) : CaptureHistory := { h with count := h.count - 1 }

/-! ### Reading -/

/-- There is an entry, and something is left. -/
def isMatched (h : CaptureHistory) : Bool := 0 < h.count && h.word? (h.last + 1) != some (-2)

/-- What a word in the given place stands for: itself or the word that it refers to. -/
def deref? (h : CaptureHistory) (k : Int) : Option Int := do
  let v ← h.word? k
  if v < 0 then h.word? (-3 - v) else some v

/-- Where the capture starts that the history reads as. -/
def index? (h : CaptureHistory) : Option Nat := (h.deref? h.last).map Word.position

/-- The length of the capture that the history reads as. -/
def length? (h : CaptureHistory) : Option Nat := (h.deref? (h.last + 1)).map Word.position

/-! ### Balancing -/

/-- The place where the capture begins that the history reads as. -/
def current? (h : CaptureHistory) : Option Int := do
  let v ← h.word? h.last
  some (if v < 0 then -3 - v else h.last)

/-- Adds an entry that refers to the one in place `k`. There is none in a place before the
first: two places before it, the length is `-2`. -/
def refer (h : CaptureHistory) (k : Int) : CaptureHistory := h.add (-3 - k) (-4 - k)

/-- Takes back what the history reads as. It then reads as the entry before that one, or as
that entry reads if it refers to another. -/
def balance? (h : CaptureHistory) : Option CaptureHistory := do
  let k := (← h.current?) - 2
  if k < 0 then some (h.refer k)
  else
    let index ← h.word? k
    if 0 ≤ index then some (h.refer k) else some (h.add index (← h.word? (k + 1)))

/-! ### The end of a match -/

/-- The words that are left after one more, the latest first: a negative word cancels the one
before it, and there must be one. -/
def cancel? (left : List Int) (v : Int) : Option (List Int) :=
  if v < 0 then left.tail? else some (v :: left)

/-- The words of the captures that are left. -/
def tidy? (h : CaptureHistory) : Option (List Int) :=
  (h.entries.foldlM cancel? []).map List.reverse

/-- Start and length of the captures with the given words. -/
def spans : List Int → List (Nat × Nat)
  | index :: length :: rest => (Word.position index, Word.position length) :: spans rest
  | _ => []

end CaptureHistory

structure Captures where
  histories : Array CaptureHistory
  /-- A capture was taken back. -/
  balanced : Bool := false
deriving DecidableEq, Inhabited

namespace Captures

def ofSlots (n : Nat) : Captures := { histories := Array.replicate n {} }

/-- Forgets all entries. -/
def reset (c : Captures) : Captures := ofSlots c.histories.size

/-- The result of reading a slot, which must exist and have captured something. -/
def read {α : Type} (c : Captures) (slot : Nat) (f : CaptureHistory → Option α) : Except Fault α :=
  match c.histories[slot]?.bind f with
  | some a => .ok a
  | none => .error (.noCapture slot)

/-! ### Reading -/

/-- The number of entries of a slot. -/
def count (c : Captures) (slot : Nat) : Nat := (c.histories.getD slot {}).count

def isMatched (c : Captures) (slot : Nat) : Bool := (c.histories.getD slot {}).isMatched

/-- Where the capture starts that a slot reads as. -/
def index (c : Captures) (slot : Nat) : Except Fault Nat := c.read slot CaptureHistory.index?

/-- The length of the capture that a slot reads as. -/
def length (c : Captures) (slot : Nat) : Except Fault Nat := c.read slot CaptureHistory.length?

/-- Start and length of what a slot reads as, if something is left. -/
def current (c : Captures) (slot : Nat) : Except Fault (Option (Nat × Nat)) :=
  if c.isMatched slot then do .ok (some (← c.index slot, ← c.length slot)) else .ok none

/-- What all slots read as. -/
def currents (c : Captures) : Except Fault (List (Option (Nat × Nat))) :=
  (List.range c.histories.size).mapM c.current

/-! ### Writing -/

/-- Adds a capture. -/
def add (c : Captures) (slot index length : Nat) : Except Fault Captures :=
  if slot < c.histories.size then
    .ok { c with
      histories := c.histories.modify slot
        (·.add (Word.ofPosition index) (Word.ofPosition length)) }
  else .error (.noCapture slot)

/-- Takes back what a slot reads as. -/
def balance (c : Captures) (slot : Nat) : Except Fault Captures := do
  let h ← c.read slot CaptureHistory.balance?
  .ok { histories := c.histories.modify slot fun _ => h, balanced := true }

/-- Drops the last entry of a slot. -/
def remove (c : Captures) (slot : Nat) : Captures :=
  { c with histories := c.histories.modify slot (·.remove) }

/-! ### The end of a match -/

/-- Start and length of the captures of a slot that are left, the oldest first. If nothing was
taken back, these are all entries. -/
def surviving (c : Captures) (slot : Nat) : Except Fault (List (Nat × Nat)) :=
  c.read slot fun h =>
    CaptureHistory.spans <$> if c.balanced then h.tidy? else some h.entries

end Captures

end PatternCompiler
