/-! Anchors: the positions a match can be pinned to.

An `AnchorSet` holds any of the eight anchors, one bit each. The anchors of
`AnchorSet.positional` fix where a match starts, so a search can go there at once;
the others are left to the match itself. -/
namespace PatternCompiler

inductive Anchor where
  /-- The beginning of the text. -/
  | beginning
  /-- The beginning of a line. -/
  | bol
  /-- Where the search started. -/
  | start
  /-- The end of a line. -/
  | eol
  /-- The end of the text, or just before a line break there. -/
  | endZ
  /-- The end of the text. -/
  | finish
  /-- A word boundary. -/
  | boundary
  /-- A word boundary in the sense of ECMAScript. -/
  | ecmaBoundary
deriving DecidableEq, Inhabited

namespace Anchor

/-- All anchors, in the order of their bits. -/
def all : List Anchor := [beginning, bol, start, eol, endZ, finish, boundary, ecmaBoundary]

def index : Anchor → Nat
  | beginning => 0
  | bol => 1
  | start => 2
  | eol => 3
  | endZ => 4
  | finish => 5
  | boundary => 6
  | ecmaBoundary => 7

def ofIndex? (i : Nat) : Option Anchor := all[i]?

theorem ofIndex?_index (a : Anchor) : ofIndex? a.index = some a := by
  cases a <;> rfl

def bit (a : Anchor) : Nat := 1 <<< a.index

def letter : Anchor → Char
  | beginning => 'A'
  | bol => '^'
  | start => 'G'
  | eol => '$'
  | endZ => 'Z'
  | finish => 'z'
  | boundary => 'b'
  | ecmaBoundary => 'e'

end Anchor

/-- A set of anchors. -/
structure AnchorSet where
  mask : BitVec 8
deriving DecidableEq, Inhabited

namespace AnchorSet

def empty : AnchorSet := ⟨0⟩

/-- The set whose bits are the low eight bits of `n`. -/
def ofBits (n : Int) : AnchorSet := ⟨BitVec.ofInt 8 n⟩

def bits (s : AnchorSet) : Nat := s.mask.toNat

def contains (s : AnchorSet) (a : Anchor) : Bool := s.mask.getLsbD a.index

def insert (s : AnchorSet) (a : Anchor) : AnchorSet := ⟨s.mask ||| BitVec.twoPow 8 a.index⟩

def remove (s : AnchorSet) (a : Anchor) : AnchorSet := ⟨s.mask &&& ~~~(BitVec.twoPow 8 a.index)⟩

def union (s t : AnchorSet) : AnchorSet := ⟨s.mask ||| t.mask⟩

def intersect (s t : AnchorSet) : AnchorSet := ⟨s.mask &&& t.mask⟩

def isEmpty (s : AnchorSet) : Bool := s.mask == 0

/-- The members, in the order of their bits. -/
def toList (s : AnchorSet) : List Anchor := Anchor.all.filter s.contains

def size (s : AnchorSet) : Nat := s.toList.length

def letters (s : AnchorSet) : String := String.ofList (s.toList.map Anchor.letter)

/-- The members that fix where a match starts. -/
def positional (s : AnchorSet) : AnchorSet :=
  s.intersect (((empty.insert .beginning).insert .start).insert .endZ |>.insert .finish)

theorem contains_empty (a : Anchor) : empty.contains a = false := by
  simp [empty, contains]

theorem contains_insert (s : AnchorSet) (a b : Anchor) :
    (s.insert a).contains b = (s.contains b || a == b) := by
  cases a <;> cases b <;> simp [contains, insert, Anchor.index]

theorem contains_union (s t : AnchorSet) (a : Anchor) :
    (s.union t).contains a = (s.contains a || t.contains a) := by
  simp [contains, union]

end AnchorSet

end PatternCompiler
