import PatternCompiler.Program.Opcode
import PatternCompiler.Text.Quoted

/-! Decoded instructions.

An `Op` holds its operands by meaning: characters, counts, indices into the
tables of the program, slots of groups, and the number of the operation that a
jump goes to. -/
namespace PatternCompiler

inductive Op where
  | rep (t : CharTest Nat) (count : Nat)
  | span (lazy : Bool) (t : CharTest Nat) (max : Nat)
  | test (t : CharTest Nat)
  | multi (string : Nat)
  | ref (slot : Nat)
  | assertion (a : Assertion)
  | nothing
  | lazybranch (target : Nat)
  | branchmark (lazy : Bool) (target : Nat)
  | nullcount (count : Int)
  | setcount (count : Int)
  | branchcount (lazy : Bool) (target limit : Nat)
  | nullmark
  | setmark
  | capturemark (slot uncapture : Option Nat)
  | getmark
  | setjump
  | backjump
  | forejump
  | testref (slot : Nat)
  | goto (target : Nat)
  | stop
deriving DecidableEq, Inhabited

namespace Op

def opcode : Op → Opcode
  | rep t _ => .rep t.kind
  | span lazy t _ => .span lazy t.kind
  | test t => .test t.kind
  | multi _ => .multi
  | ref _ => .ref
  | assertion a => .assertion a
  | nothing => .nothing
  | lazybranch _ => .lazybranch
  | branchmark lazy _ => .branchmark lazy
  | nullcount _ => .nullcount
  | setcount _ => .setcount
  | branchcount lazy _ _ => .branchcount lazy
  | nullmark => .nullmark
  | setmark => .setmark
  | capturemark _ _ => .capturemark
  | getmark => .getmark
  | setjump => .setjump
  | backjump => .backjump
  | forejump => .forejump
  | testref _ => .testref
  | goto _ => .goto
  | stop => .stop

/-- The operation that a jump goes to. -/
def target? : Op → Option Nat
  | lazybranch t => some t
  | branchmark _ t => some t
  | branchcount _ t _ => some t
  | goto t => some t
  | _ => none

/-! ### Text -/

def testText : CharTest Nat → String
  | .one c => Quoted.charDiagnostic c
  | .notone c => Quoted.charDiagnostic c
  | .set k => toString k

/-- The name of the operand of a test. -/
def testField : CharTest Nat → String
  | .set _ => "class"
  | _ => "ch"

def slotText : Option Nat → String
  | some n => "Some(" ++ toString n ++ ")"
  | none => "None"

def positional (name arg : String) : String := name ++ "(" ++ arg ++ ")"

/-- Operands with their names. -/
def named (name : String) (fields : List (String × String)) : String :=
  name ++ " \x7b " ++ String.intercalate ", " (fields.map fun f => f.1 ++ ": " ++ f.2) ++ " \x7d"

/-- The operation with its operands, as it is shown to a reader. -/
def toText (op : Op) : String :=
  let name := op.opcode.name
  match op with
  | rep t count => named name [(testField t, testText t), ("count", toString count)]
  | span _ t max => named name [(testField t, testText t), ("max", toString max)]
  | test t => positional name (testText t)
  | multi i => positional name (toString i)
  | ref slot => positional name (toString slot)
  | lazybranch t => positional name (toString t)
  | branchmark _ t => positional name (toString t)
  | nullcount n => positional name (toString n)
  | setcount n => positional name (toString n)
  | branchcount _ t limit => named name [("target", toString t), ("limit", toString limit)]
  | capturemark slot uncapture =>
    named name [("slot", slotText slot), ("uncapture", slotText uncapture)]
  | testref slot => positional name (toString slot)
  | goto t => positional name (toString t)
  | _ => name

end Op

/-- An instruction of a program. -/
structure Operation where
  /-- Its number among the operations. -/
  id : Nat
  /-- The offset of its first word. -/
  offset : Nat
  op : Op
  rightToLeft : Bool
  ignoreCase : Bool
deriving DecidableEq, Inhabited

end PatternCompiler
