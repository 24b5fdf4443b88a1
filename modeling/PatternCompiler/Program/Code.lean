import PatternCompiler.Pattern.FirstChars
import PatternCompiler.Pattern.Lead
import PatternCompiler.Program.Operation

/-! Programs, as words and as operations.

A `Code` is a program that nobody has checked: its words, the tables they refer
to, and what is known about where a match can start. `Code.program` splits the
words into instructions and then decodes these one by one; the first fault ends
it. -/
namespace PatternCompiler

structure Code where
  words : Array Int := #[]
  /-- The literals of several characters. -/
  strings : Array (List Char) := #[]
  classes : Array CharClass := #[]
  /-- Anchors that hold where a match starts. -/
  leading : AnchorSet := .empty
  /-- Anchors that hold where a match ends. -/
  trailing : AnchorSet := .empty
  firstChars : Option FirstChars := none
  lead : Option Lead := none
  /-- How many instructions count towards the room needed for what to return to. -/
  trackCount : Nat := 0
  /-- The number of the group in each slot. -/
  groupNumbers : List Nat := []
  /-- The groups that have a name. -/
  nameTable : List (String × Nat) := []
  rightToLeft : Bool := false
  ecmaScript : Bool := false
  culture : Culture := .invariant
deriving Inhabited

structure Program where
  code : Code
  operations : Array Operation
deriving Inhabited

/-! ### What can be wrong -/

/-- What is wrong with an instruction; `offset` is the offset of its first word. -/
inductive ProgramError where
  | empty
  | unknownOpcode (offset : Nat) (word : Int)
  | truncated (offset : Nat)
  | badTarget (offset : Nat) (target : Int)
  | badChar (offset : Nat) (word : Int)
  | negativeCount (offset : Nat) (count : Int)
  | stringIndex (offset : Nat) (index : Int)
  | classIndex (offset : Nat) (index : Int)
  | slotIndex (offset : Nat) (slot : Int)
deriving DecidableEq

def ProgramError.message : ProgramError → String
  | .empty => "program has no instructions"
  | .unknownOpcode offset word =>
    "unknown opcode word " ++ toString word ++ " at offset " ++ toString offset
  | .truncated offset => "instruction at offset " ++ toString offset ++ " is truncated"
  | .badTarget offset target =>
    "jump at offset " ++ toString offset ++ " targets " ++ toString target ++
      ", which is not an instruction"
  | .badChar offset word =>
    "operand " ++ toString word ++ " at offset " ++ toString offset ++ " is not a character"
  | .negativeCount offset count =>
    "negative count " ++ toString count ++ " at offset " ++ toString offset
  | .stringIndex offset index =>
    "string index " ++ toString index ++ " at offset " ++ toString offset ++ " is out of range"
  | .classIndex offset index =>
    "class index " ++ toString index ++ " at offset " ++ toString offset ++ " is out of range"
  | .slotIndex offset slot =>
    "capture slot " ++ toString slot ++ " at offset " ++ toString offset ++ " is out of range"

/-! ### Splitting -/

/-- The words of one instruction. -/
structure Instruction where
  offset : Nat
  head : OpcodeWord
  operands : List Int
deriving DecidableEq, Inhabited

namespace Instruction

/-- Splits words into instructions; `offset` is the offset of the first of them. -/
def split (offset : Nat) : List Int → Except ProgramError (List Instruction)
  | [] => .ok []
  | w :: rest =>
    match OpcodeWord.ofWord? w with
    | none => .error (.unknownOpcode offset w)
    | some head =>
      match head.opcode.arity, rest with
      | 0, rest => (⟨offset, head, []⟩ :: ·) <$> split (offset + 1) rest
      | 1, a :: rest => (⟨offset, head, [a]⟩ :: ·) <$> split (offset + 2) rest
      | 2, a :: b :: rest => (⟨offset, head, [a, b]⟩ :: ·) <$> split (offset + 3) rest
      | _, _ => .error (.truncated offset)

end Instruction

/-! ### Decoding -/

/-- What operands are checked against: the tables of a program, and where its
instructions begin. -/
structure Bounds where
  strings : Nat
  classes : Nat
  slots : Nat
  starts : List Nat

namespace Instruction

def operand (i : Instruction) (k : Nat) : Int := i.operands.getD k 0

/-- The operand, if it is a number below `bound`. -/
def below (i : Instruction) (k bound : Nat) (e : Nat → Int → ProgramError) :
    Except ProgramError Nat :=
  let w := i.operand k
  if 0 ≤ w ∧ w.toNat < bound then .ok w.toNat else .error (e i.offset w)

def char (i : Instruction) (k : Nat) : Except ProgramError Char :=
  let w := i.operand k
  if w < 0 then .error (.badChar i.offset w)
  else match Scalar.ofCode? w.toNat with
    | some c => .ok c
    | none => .error (.badChar i.offset w)

def count (i : Instruction) (k : Nat) : Except ProgramError Nat :=
  let w := i.operand k
  if w < 0 then .error (.negativeCount i.offset w) else .ok w.toNat

/-- The number of the instruction that a jump goes to. -/
def target (b : Bounds) (i : Instruction) (k : Nat) : Except ProgramError Nat :=
  let w := i.operand k
  if w < 0 then .error (.badTarget i.offset w)
  else match b.starts.idxOf? w.toNat with
    | some id => .ok id
    | none => .error (.badTarget i.offset w)

def slot (b : Bounds) (i : Instruction) (k : Nat) : Except ProgramError Nat :=
  i.below k b.slots .slotIndex

/-- A slot, where -1 stands for none. -/
def slot? (b : Bounds) (i : Instruction) (k : Nat) : Except ProgramError (Option Nat) :=
  if i.operand k = -1 then .ok none else some <$> i.slot b k

def test (b : Bounds) (i : Instruction) : TestKind → Except ProgramError (CharTest Nat)
  | .one => .one <$> i.char 0
  | .notone => .notone <$> i.char 0
  | .set => .set <$> i.below 0 b.classes .classIndex

def op (b : Bounds) (i : Instruction) : Except ProgramError Op := do
  match i.head.opcode with
  | .rep k => .ok (.rep (← i.test b k) (← i.count 1))
  | .span lazy k => .ok (.span lazy (← i.test b k) (← i.count 1))
  | .test k => .ok (.test (← i.test b k))
  | .multi => .ok (.multi (← i.below 0 b.strings .stringIndex))
  | .ref => .ok (.ref (← i.slot b 0))
  | .assertion a => .ok (.assertion a)
  | .nothing => .ok .nothing
  | .lazybranch => .ok (.lazybranch (← i.target b 0))
  | .branchmark lazy => .ok (.branchmark lazy (← i.target b 0))
  | .nullcount => .ok (.nullcount (i.operand 0))
  | .setcount => .ok (.setcount (i.operand 0))
  | .branchcount lazy => .ok (.branchcount lazy (← i.target b 0) (← i.count 1))
  | .nullmark => .ok .nullmark
  | .setmark => .ok .setmark
  | .capturemark => .ok (.capturemark (← i.slot? b 0) (← i.slot? b 1))
  | .getmark => .ok .getmark
  | .setjump => .ok .setjump
  | .backjump => .ok .backjump
  | .forejump => .ok .forejump
  | .testref => .ok (.testref (← i.slot b 0))
  | .goto => .ok (.goto (← i.target b 0))
  | .stop => .ok .stop

end Instruction

/-- Decodes instructions; `id` is the number of the first of them. -/
def Operation.decode (b : Bounds) (id : Nat) :
    List Instruction → Except ProgramError (List Operation)
  | [] => .ok []
  | i :: rest =>
    match i.op b with
    | .error e => .error e
    | .ok op =>
      (⟨id, i.offset, op, i.head.rightToLeft, i.head.ignoreCase⟩ :: ·) <$> decode b (id + 1) rest

namespace Code

def bounds (c : Code) (is : List Instruction) : Bounds where
  strings := c.strings.size
  classes := c.classes.size
  slots := c.groupNumbers.length
  starts := is.map (·.offset)

def operations (c : Code) : Except ProgramError (List Operation) :=
  if c.words.isEmpty then .error .empty
  else do
    let is ← Instruction.split 0 c.words.toList
    Operation.decode (c.bounds is) 0 is

/-- Checks and decodes a program. -/
def program (c : Code) : Except ProgramError Program :=
  (fun ops => ⟨c, ops.toArray⟩) <$> c.operations

end Code

namespace Program

/-- The anchors at either end. -/
def anchors (p : Program) : AnchorSet := p.code.leading.union p.code.trailing

/-- The number of slots for captures. -/
def slots (p : Program) : Nat := p.code.groupNumbers.length

/-- What the group in each slot is called: its name, or else its number. -/
def groupNames (p : Program) : List String :=
  p.code.groupNumbers.map fun n =>
    match p.code.nameTable.find? (·.2 == n) with
    | some (name, _) => name
    | none => toString n

end Program

end PatternCompiler
