import PatternCompiler.Pattern.Node

/-! Simplification of pattern trees.

A subtree is reduced when it becomes part of another: nested alternations and
sequences of one direction are flattened, parts that never match or match
nothing are dropped, neighbouring literals with the same options become one, a
group is replaced by what it holds, and a class of one character, or of all but
one, becomes a test against that character. -/
namespace PatternCompiler.Node

/-! ### Alternations -/

mutual

/-- The alternatives of a tree: those of nested alternations in place, without the ones
that never match. -/
def alternatives : Node → List Node
  | leaf _ .nothing => []
  | many _ .alternate ns => alternativesOf ns
  | n => [n]

def alternativesOf : List Node → List Node
  | [] => []
  | n :: ns => n.alternatives ++ alternativesOf ns

end

/-- A construct over no subtrees is `none`, over one it is that one. -/
def strip (o : Options) (kind : Many) (none : Leaf) : List Node → Node
  | [] => leaf o none
  | [n] => n
  | ns => many o kind ns

/-! ### Sequences -/

mutual

/-- The parts of a tree within a sequence of the given direction: those of a nested sequence
of the same direction in place, without the ones that match the empty text. -/
def parts (rightToLeft : Bool) : Node → List Node
  | leaf _ .empty => []
  | many o .concatenate ns =>
    if o.rightToLeft = rightToLeft then partsOf rightToLeft ns else [many o .concatenate ns]
  | n => [n]

def partsOf (rightToLeft : Bool) : List Node → List Node
  | [] => []
  | n :: ns => n.parts rightToLeft ++ partsOf rightToLeft ns

end

/-- The text of a literal. -/
def literal? : Node → Option (List Char)
  | leaf _ (.test (.one c)) => some [c]
  | leaf _ (.multi cs) => some cs
  | _ => none

/-- The literal `n` and the literal after it as one, if their options agree. Right to left,
what is matched later stands before in the text. -/
def absorb? (n next : Node) : Option Node :=
  if n.options = next.options then
    match n.literal?, next.literal? with
    | some a, some b =>
      some (leaf n.options (.multi (if n.options.rightToLeft then b ++ a else a ++ b)))
    | _, _ => none
  else none

/-- Merges `n` with the literals that follow it. -/
def mergeFrom (n : Node) : List Node → List Node
  | [] => [n]
  | next :: rest => match n.absorb? next with
    | some m => mergeFrom m rest
    | none => n :: mergeFrom next rest

def mergeLiterals : List Node → List Node
  | [] => []
  | n :: ns => mergeFrom n ns

/-! ### Groups and classes -/

/-- What a group of one part holds, however deep. -/
def ungroup : Node → Node
  | many _ .group [n] => n.ungroup
  | n => n

/-- A test against a class as a test against one character, where that is possible. -/
def simplifyTest : CharTest CharClass → CharTest CharClass
  | .set k => match k.singleton? with
    | some c => .one c
    | none => match k.missing? with
      | some c => .notone c
      | none => .set k
  | t => t

def reduce : Node → Node
  | many o .alternate ns => strip o .alternate .nothing (alternativesOf ns)
  | many o .concatenate ns =>
    strip o .concatenate .empty (mergeLiterals (partsOf o.rightToLeft ns))
  | many o .group ns => ungroup (many o .group ns)
  | leaf o (.test t) => leaf o (.test (simplifyTest t))
  | leaf o (.span lazy t min max) => leaf o (.span lazy (simplifyTest t) min max)
  | n => n

/-! ### Repetition -/

/-- The tree repeated from `min` to `max` times. -/
def quantify (n : Node) (lazy : Bool) (min max : Nat) : Node :=
  if min = 0 ∧ max = 0 then leaf n.options .empty
  else if min = 1 ∧ max = 1 then n
  else match n with
    | leaf o (.test t) => leaf o (.span lazy t min max)
    | n => wrap n.options (.loop lazy min max) n.reduce

end PatternCompiler.Node
