import PatternCompiler.Culture
import PatternCompiler.Pattern.Node

/-! The characters that a match can begin with.

`Node.firstSet?` follows the tree: a sequence goes on as long as its parts can
match nothing, an alternation takes them all, and a reference or a conditional
leaves the set unknown. `Node.firstChars?` keeps the set if the pattern cannot
match the empty text and the set is small enough to be worth looking for. -/
namespace PatternCompiler

/-- The characters a match can begin with. -/
structure FirstChars where
  members : CharClass
  /-- The characters of the text are lowered before they are looked up. -/
  ignoreCase : Bool
deriving DecidableEq, Inhabited

namespace FirstChars

/-- The greatest number of characters that is kept. -/
def maxWidth : Nat := 0x4000

/-- The only member, if there is exactly one. -/
def single? (f : FirstChars) : Option Char := f.members.singleton?

end FirstChars

/-- What is known about the first character of the texts that a tree matches. -/
structure FirstSet where
  ranges : List CharRange := []
  /-- The empty text is among them. -/
  nullable : Bool := false
  ignoreCase : Bool := false
deriving Inhabited

namespace FirstSet

def ofTest (o : Options) (nullable : Bool) (t : CharTest CharClass) : FirstSet where
  ranges := match t with
    | .one c => [.single c]
    | .notone c => (CharClass.ofRanges [.single c]).complement.ranges.toList
    | .set k => k.ranges.toList
  nullable := nullable
  ignoreCase := o.ignoreCase

/-- The empty text only. -/
def skip : FirstSet := { nullable := true }

def ofLeaf? (o : Options) : Leaf → Option FirstSet
  | .test t => some (ofTest o false t)
  | .span _ t min _ => some (ofTest o (min == 0) t)
  | .multi cs => match if o.rightToLeft then cs.getLast? else cs.head? with
    | some c => some (ofTest o false (.one c))
    | none => some skip
  | .ref _ => none
  | .assertion _ => some skip
  | .nothing => some {}
  | .empty => some skip

/-- A part and, if it can match nothing, what follows it. -/
def andThen (a b : FirstSet) : FirstSet where
  ranges := a.ranges ++ b.ranges
  nullable := b.nullable
  ignoreCase := a.ignoreCase || b.ignoreCase

def orElse (a b : FirstSet) : FirstSet where
  ranges := a.ranges ++ b.ranges
  nullable := a.nullable || b.nullable
  ignoreCase := a.ignoreCase || b.ignoreCase

/-- Goes on from `acc` through the parts of a sequence, up to the first that takes a character. -/
def sequence? (acc : FirstSet) : List (Option FirstSet) → Option FirstSet
  | [] => some acc
  | f :: rest =>
    if acc.nullable then
      match f with
      | some b => sequence? (acc.andThen b) rest
      | none => none
    else some acc

def alternation? (acc : FirstSet) : List (Option FirstSet) → Option FirstSet
  | [] => some acc
  | some b :: rest => alternation? (acc.orElse b) rest
  | none :: _ => none

/-- The set as it is looked up: lowered along with the text, if case does not matter. -/
def toChars (f : FirstSet) (culture : Culture) : Option FirstChars :=
  let k := CharClass.ofRanges f.ranges
  if f.nullable ∨ FirstChars.maxWidth < k.width then none
  else if f.ignoreCase then
    let rs := k.ranges.toList
    some ⟨CharClass.ofRanges (rs ++ culture.lowerImage rs), true⟩
  else some ⟨k, false⟩

end FirstSet

namespace Node

mutual

/-- What is known of the first character, if anything. -/
def firstSet? : Node → Option FirstSet
  | leaf o l => FirstSet.ofLeaf? o l
  | wrap _ .require _ => some .skip
  | wrap _ .prevent _ => some .skip
  | wrap _ (.capture _ _) n => n.firstSet?
  | wrap _ .greedy n => n.firstSet?
  | wrap _ (.loop _ min _) n =>
    n.firstSet?.map fun f => { f with nullable := f.nullable || min == 0 }
  | many _ .concatenate ns => FirstSet.sequence? .skip (firstSets ns)
  | many _ .alternate ns => FirstSet.alternation? {} (firstSets ns)
  | many _ .group ns => (firstSets ns).headD (some .skip)
  | many _ (.testref _) _ => none
  | many _ .testgroup _ => none

def firstSets : List Node → List (Option FirstSet)
  | [] => []
  | n :: ns => n.firstSet? :: firstSets ns

end

/-- The characters that every match begins with one of. -/
def firstChars? (n : Node) (culture : Culture) : Option FirstChars :=
  n.firstSet?.bind (·.toChars culture)

end Node

end PatternCompiler
