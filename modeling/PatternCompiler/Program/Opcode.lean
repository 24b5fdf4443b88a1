import PatternCompiler.Pattern.Node

/-! The opcodes of a program.

A program is a sequence of words. An instruction is a word for its opcode, which
also holds two modifiers, followed by as many operand words as the opcode
takes. -/
namespace PatternCompiler

/-- What a character is compared with. -/
inductive TestKind where
  | one
  | notone
  | set
deriving DecidableEq, Inhabited

def CharTest.kind {κ : Type} : CharTest κ → TestKind
  | .one _ => .one
  | .notone _ => .notone
  | .set _ => .set

inductive Opcode where
  /-- A fixed number of characters that pass a test. -/
  | rep (kind : TestKind)
  /-- As many characters that pass a test as possible, or as few. -/
  | span (lazy : Bool) (kind : TestKind)
  /-- One character that passes a test. -/
  | test (kind : TestKind)
  /-- A literal of several characters. -/
  | multi
  /-- What a group captured. -/
  | ref
  | assertion (a : Assertion)
  /-- Fails. -/
  | nothing
  /-- Goes on, and to the target after a failure. -/
  | lazybranch
  /-- Goes back to the target unless the last round was empty, eagerly or as a last resort. -/
  | branchmark (lazy : Bool)
  /-- Begins to count rounds, without a mark of where the first begins. -/
  | nullcount
  /-- Begins to count rounds from a number, with the mark of where the first begins. -/
  | setcount
  /-- Goes back to the target, up to a number of rounds, eagerly or as a last resort. -/
  | branchcount (lazy : Bool)
  /-- Begins a loop, without a mark of where the first round begins. -/
  | nullmark
  /-- Marks the position. -/
  | setmark
  /-- Captures from the last mark up to the position. -/
  | capturemark
  /-- Goes back to the last mark. -/
  | getmark
  /-- Remembers how much there is to return to. -/
  | setjump
  /-- Fails, after forgetting all there was to return to since. -/
  | backjump
  /-- Goes on, after forgetting all there was to return to since. -/
  | forejump
  /-- Goes on if a group has captured. -/
  | testref
  | goto
  /-- The end of a match. -/
  | stop
deriving DecidableEq, Inhabited

namespace TestKind

def index : TestKind → Nat
  | one => 0
  | notone => 1
  | set => 2

def name : TestKind → String
  | one => "One"
  | notone => "Notone"
  | set => "Set"

end TestKind

namespace Assertion

def opcodeIndex : Assertion → Nat
  | bol => 14
  | eol => 15
  | boundary => 16
  | nonboundary => 17
  | beginning => 18
  | start => 19
  | endZ => 20
  | finish => 21
  | ecmaBoundary => 41
  | nonEcmaBoundary => 42

def name : Assertion → String
  | bol => "Bol"
  | eol => "Eol"
  | boundary => "Boundary"
  | nonboundary => "Nonboundary"
  | beginning => "Beginning"
  | start => "Start"
  | endZ => "EndZ"
  | finish => "End"
  | ecmaBoundary => "EcmaBoundary"
  | nonEcmaBoundary => "NonEcmaBoundary"

end Assertion

namespace Opcode

/-! ### Numbers -/

/-- The number of an opcode, below 64. -/
def index : Opcode → Nat
  | rep k => k.index
  | span false k => 3 + k.index
  | span true k => 6 + k.index
  | test k => 9 + k.index
  | multi => 12
  | ref => 13
  | assertion a => a.opcodeIndex
  | nothing => 22
  | lazybranch => 23
  | branchmark false => 24
  | branchmark true => 25
  | nullcount => 26
  | setcount => 27
  | branchcount false => 28
  | branchcount true => 29
  | nullmark => 30
  | setmark => 31
  | capturemark => 32
  | getmark => 33
  | setjump => 34
  | backjump => 35
  | forejump => 36
  | testref => 37
  | goto => 38
  | stop => 40

def ofIndex? : Nat → Option Opcode
  | 0 => some (rep .one)
  | 1 => some (rep .notone)
  | 2 => some (rep .set)
  | 3 => some (span false .one)
  | 4 => some (span false .notone)
  | 5 => some (span false .set)
  | 6 => some (span true .one)
  | 7 => some (span true .notone)
  | 8 => some (span true .set)
  | 9 => some (test .one)
  | 10 => some (test .notone)
  | 11 => some (test .set)
  | 12 => some multi
  | 13 => some ref
  | 14 => some (assertion .bol)
  | 15 => some (assertion .eol)
  | 16 => some (assertion .boundary)
  | 17 => some (assertion .nonboundary)
  | 18 => some (assertion .beginning)
  | 19 => some (assertion .start)
  | 20 => some (assertion .endZ)
  | 21 => some (assertion .finish)
  | 22 => some nothing
  | 23 => some lazybranch
  | 24 => some (branchmark false)
  | 25 => some (branchmark true)
  | 26 => some nullcount
  | 27 => some setcount
  | 28 => some (branchcount false)
  | 29 => some (branchcount true)
  | 30 => some nullmark
  | 31 => some setmark
  | 32 => some capturemark
  | 33 => some getmark
  | 34 => some setjump
  | 35 => some backjump
  | 36 => some forejump
  | 37 => some testref
  | 38 => some goto
  | 40 => some stop
  | 41 => some (assertion .ecmaBoundary)
  | 42 => some (assertion .nonEcmaBoundary)
  | _ => none

theorem ofIndex?_index (c : Opcode) : ofIndex? c.index = some c := by
  cases c with
  | rep k => cases k <;> rfl
  | span lazy k => cases lazy <;> cases k <;> rfl
  | test k => cases k <;> rfl
  | assertion a => cases a <;> rfl
  | branchmark lazy => cases lazy <;> rfl
  | branchcount lazy => cases lazy <;> rfl
  | _ => rfl

/-- The opcode in the low six bits of a word. -/
def ofWord? (w : Int) : Option Opcode := ofIndex? (w % 64).toNat

/-! ### Operands -/

/-- The number of operand words. -/
def arity : Opcode → Nat
  | rep _ => 2
  | span _ _ => 2
  | test _ => 1
  | multi => 1
  | ref => 1
  | assertion _ => 0
  | nothing => 0
  | lazybranch => 1
  | branchmark _ => 1
  | nullcount => 1
  | setcount => 1
  | branchcount _ => 2
  | nullmark => 0
  | setmark => 0
  | capturemark => 2
  | getmark => 0
  | setjump => 0
  | backjump => 0
  | forejump => 0
  | testref => 1
  | goto => 1
  | stop => 0

/-- The number of words of an instruction. -/
def size (c : Opcode) : Nat := 1 + c.arity

/-- Instructions that count towards the room needed for what to return to. -/
def backtracks : Opcode → Bool
  | span _ _ => true
  | lazybranch => true
  | branchmark _ => true
  | nullcount => true
  | setcount => true
  | branchcount _ => true
  | setmark => true
  | capturemark => true
  | getmark => true
  | setjump => true
  | backjump => true
  | forejump => true
  | goto => true
  | _ => false

/-! ### Names -/

def name : Opcode → String
  | rep k => k.name ++ "rep"
  | span false k => k.name ++ "loop"
  | span true k => k.name ++ "lazy"
  | test k => k.name
  | multi => "Multi"
  | ref => "Ref"
  | assertion a => a.name
  | nothing => "Nothing"
  | lazybranch => "Lazybranch"
  | branchmark false => "Branchmark"
  | branchmark true => "Lazybranchmark"
  | nullcount => "Nullcount"
  | setcount => "Setcount"
  | branchcount false => "Branchcount"
  | branchcount true => "Lazybranchcount"
  | nullmark => "Nullmark"
  | setmark => "Setmark"
  | capturemark => "Capturemark"
  | getmark => "Getmark"
  | setjump => "Setjump"
  | backjump => "Backjump"
  | forejump => "Forejump"
  | testref => "Testref"
  | goto => "Goto"
  | stop => "Stop"

end Opcode

/-! ### Opcode words -/

/-- An opcode with its modifiers. -/
structure OpcodeWord where
  opcode : Opcode
  /-- The instruction moves towards the start of the text. -/
  rightToLeft : Bool := false
  /-- The instruction compares lowered characters. -/
  ignoreCase : Bool := false
deriving DecidableEq, Inhabited

namespace OpcodeWord

/-- Bit 6 says right to left, bit 9 says that case is ignored. -/
def word (h : OpcodeWord) : Int :=
  ((h.opcode.index + 64 * h.rightToLeft.toNat + 512 * h.ignoreCase.toNat : Nat) : Int)

/-- Reads an opcode word; a bit without a meaning is refused. -/
def ofWord? (w : Int) : Option OpcodeWord :=
  if w < 0 then none
  else
    let n := w.toNat
    if n / 128 % 4 = 0 ∧ n / 1024 = 0 then
      (Opcode.ofIndex? (n % 64)).map fun c => ⟨c, n / 64 % 2 == 1, n / 512 % 2 == 1⟩
    else none

end OpcodeWord

end PatternCompiler
