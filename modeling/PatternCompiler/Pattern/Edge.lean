import PatternCompiler.Anchor
import PatternCompiler.Pattern.Node

/-! The anchors at the two ends of a pattern.

A sequence is read from one end as long as its parts take no characters. What is
passed on the way are the anchors that every match has at that end. The walk goes
into captures, atomic groups and sequences of the other direction, and what
follows one of those is not looked at any more. -/
namespace PatternCompiler

/-- The anchor that an assertion pins a match to. -/
def Assertion.anchor? : Assertion → Option Anchor
  | .bol => some .bol
  | .eol => some .eol
  | .boundary => some .boundary
  | .nonboundary => none
  | .ecmaBoundary => some .ecmaBoundary
  | .nonEcmaBoundary => none
  | .beginning => some .beginning
  | .start => some .start
  | .endZ => some .endZ
  | .finish => some .finish

/-- What a part of a pattern says about the end it stands at. -/
structure Edge where
  anchors : AnchorSet := .empty
  /-- The next part stands at the same end. -/
  more : Bool := false
deriving DecidableEq, Inhabited

namespace Edge

/-- The anchors of the parts up to and with the first one that ends the walk. -/
def gather : List Edge → AnchorSet
  | [] => .empty
  | e :: rest => if e.more then e.anchors.union (gather rest) else e.anchors

end Edge

namespace Node

mutual

def edge (fromEnd : Bool) : Node → Edge
  | leaf _ .empty => { more := true }
  | leaf _ (.assertion a) => match a.anchor? with
    | some x => { anchors := AnchorSet.empty.insert x, more := true }
    | none => {}
  | leaf _ _ => {}
  | wrap _ .require _ => { more := true }
  | wrap _ .prevent _ => { more := true }
  | wrap _ (.capture _ _) n => { anchors := (n.edge fromEnd).anchors }
  | wrap _ .greedy n => { anchors := (n.edge fromEnd).anchors }
  | wrap _ (.loop _ _ _) _ => {}
  | many _ .concatenate ns =>
    let es := edges fromEnd ns
    { anchors := Edge.gather (if fromEnd then es.reverse else es) }
  | many _ _ _ => {}

def edges (fromEnd : Bool) : List Node → List Edge
  | [] => []
  | n :: ns => n.edge fromEnd :: edges fromEnd ns

end

/-- The anchors that hold where a match starts, in the order of matching. -/
def leadingAnchors (n : Node) : AnchorSet := (n.edge false).anchors

/-- The anchors that hold where a match ends, in the order of matching. -/
def trailingAnchors (n : Node) : AnchorSet := (n.edge true).anchors

end Node

end PatternCompiler
