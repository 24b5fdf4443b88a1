import PatternCompiler.Program.Code

/-! Where a match can be resumed.

An operation that may have to be tried again, or undone, leaves a tag behind. A
loop over a group has two such points: the first tries the loop another way, the
second undoes what the loop has noted and fails. Tags are numbered through, by
operation and, within one, in the order in which its code leaves them. -/
namespace PatternCompiler

/-- A point at which an operation is resumed. -/
structure Resumption where
  /-- The number of the operation. -/
  id : Nat
  /-- The operation is undone, not tried again. -/
  secondary : Bool
deriving DecidableEq, Inhabited

namespace Op

/-- The points at which an operation can be resumed, told by whether they are secondary. -/
def resumptions : Op → List Bool
  | span _ _ _ => [false]
  | lazybranch _ => [false]
  | branchmark _ _ => [false, true]
  | nullcount _ => [false]
  | setcount _ => [false]
  | branchcount _ _ _ => [true, false]
  | nullmark => [false]
  | setmark => [false]
  | capturemark _ _ => [false]
  | getmark => [false]
  | setjump => [false]
  | forejump => [false]
  | _ => []

/-- The operation after this one is where it goes on when it is resumed. -/
def resumesAtNext : Op → Bool
  | span _ _ _ => true
  | branchmark lazy _ => !lazy
  | branchcount lazy _ _ => !lazy
  | _ => false

end Op

/-- A program with its tags. -/
structure Routine where
  program : Program
  /-- The resumption of each tag. -/
  resumptions : Array Resumption
  /-- The tag of the first resumption of each operation. -/
  firstTags : Array Nat
deriving Inhabited

namespace Routine

/-- The resumptions of operations, in order. -/
def resumptionsOf (ops : List Operation) : List Resumption :=
  ops.flatMap fun o => o.op.resumptions.map (⟨o.id, ·⟩)

/-- The first tag of each operation; `next` is that of the first one. -/
def firstTagsFrom (next : Nat) : List Operation → List Nat
  | [] => []
  | o :: rest => next :: firstTagsFrom (next + o.op.resumptions.length) rest

def ofProgram (p : Program) : Routine where
  program := p
  resumptions := (resumptionsOf p.operations.toList).toArray
  firstTags := (firstTagsFrom 0 p.operations.toList).toArray

def operations (m : Routine) : Array Operation := m.program.operations

/-- The tag of a resumption of an operation. -/
def tag (m : Routine) (o : Operation) (secondary : Bool) : Nat :=
  m.firstTags.getD o.id 0 + o.op.resumptions.idxOf secondary

end Routine

end PatternCompiler
