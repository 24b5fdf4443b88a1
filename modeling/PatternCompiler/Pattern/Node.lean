import PatternCompiler.CharClass.Basic
import PatternCompiler.Options

/-! Pattern trees.

A node is a leaf, a construct around one subtree, or a construct over a list of
subtrees. Each carries the options that held where it was written, so a later
change of options does not change what it means. The parts of a right-to-left
sequence stand in the order in which they are matched.

Literal characters under case insensitivity are lowered already. -/
namespace PatternCompiler

/-- The greatest repetition count; as an upper bound it stands for no bound. -/
def unbounded : Nat := 2147483647

/-- A test of one character. Classes are given by a value of `κ`. -/
inductive CharTest (κ : Type) where
  | one (c : Char)
  | notone (c : Char)
  | set (k : κ)
deriving DecidableEq, Inhabited

/-- A condition on a position. -/
inductive Assertion where
  | bol
  | eol
  | boundary
  | nonboundary
  | ecmaBoundary
  | nonEcmaBoundary
  | beginning
  | start
  | endZ
  | finish
deriving DecidableEq, Inhabited

inductive Leaf where
  | test (t : CharTest CharClass)
  /-- From `min` to `max` characters that pass the test, as many or as few as possible. -/
  | span (lazy : Bool) (t : CharTest CharClass) (min max : Nat)
  /-- Several literal characters. -/
  | multi (text : List Char)
  /-- What the group with this number captured last. -/
  | ref (number : Nat)
  | assertion (a : Assertion)
  /-- Never matches. -/
  | nothing
  /-- Matches the empty text. -/
  | empty
deriving DecidableEq, Inhabited

/-- A construct around one subtree. -/
inductive Wrap where
  | loop (lazy : Bool) (min max : Nat)
  /-- Captures under `number`, taking back the last capture of `uncapture`; one of the two
  may be missing. -/
  | capture (number uncapture : Option Nat)
  /-- Matches here without moving. -/
  | require
  /-- Does not match here. -/
  | prevent
  /-- The first way to match and no other. -/
  | greedy
deriving DecidableEq, Inhabited

/-- A construct over a list of subtrees. -/
inductive Many where
  | alternate
  | concatenate
  | group
  /-- If the group with this number has captured, the first subtree, else the second. -/
  | testref (number : Nat)
  /-- If the first subtree matches here, the second, else the third. -/
  | testgroup
deriving DecidableEq, Inhabited

inductive Node where
  | leaf (options : Options) (leaf : Leaf)
  | wrap (options : Options) (kind : Wrap) (child : Node)
  | many (options : Options) (kind : Many) (children : List Node)
deriving Inhabited

namespace Node

def options : Node → Options
  | leaf o _ => o
  | wrap o _ _ => o
  | many o _ _ => o

def children : Node → List Node
  | leaf _ _ => []
  | wrap _ _ n => [n]
  | many _ _ ns => ns

end Node

end PatternCompiler
