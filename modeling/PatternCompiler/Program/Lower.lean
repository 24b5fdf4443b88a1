import PatternCompiler.Pattern.Parse
import PatternCompiler.Program.Code

/-! From tree to program.

A `Draft` is the part of a program that is written. Each construct writes words
before and after its parts. A jump forward is written with an empty target, and
its offset is kept in a list until the target is known. The beginning of a
loop's body is kept in the same list. A `Walk` goes over the tree with a list of
the nodes around the one it is at.

The first instruction jumps to the last one after a failure: when all ways to
match are used up, the program ends there. -/
namespace PatternCompiler

/-- A number as a word of 32 bits; what is too great becomes the greatest. -/
def wordOfNat (n : Nat) : Int := ((min n unbounded : Nat) : Int)

structure Draft where
  words : Array Int := #[]
  strings : Array (List Char) := #[]
  classes : Array CharClass := #[]
  /-- Offsets of jumps without a target and of loop bodies, the last one first. -/
  patches : List Nat := []
  trackCount : Nat := 0
deriving Inhabited

namespace Draft

/-! ### Words -/

/-- The offset of the next word. -/
def pos (d : Draft) : Nat := d.words.size

def emitWord (d : Draft) (h : OpcodeWord) (operands : List Int) : Draft :=
  { d with
    words := d.words.push h.word ++ operands.toArray
    trackCount := d.trackCount + h.opcode.backtracks.toNat }

def emit (d : Draft) (c : Opcode) (operands : List Int) : Draft := d.emitWord { opcode := c } operands

/-- Keeps an offset in the list. -/
def mark (d : Draft) (offset : Nat) : Draft := { d with patches := offset :: d.patches }

/-- Writes a jump whose target is not known yet. -/
def emitJump (d : Draft) (c : Opcode) : Draft := (d.mark d.pos).emit c [0]

/-- Sets the target of the jump at an offset. -/
def patch (d : Draft) (offset target : Nat) : Draft :=
  { d with words := d.words.setIfInBounds (offset + 1) (wordOfNat target) }

/-- The offset that was kept last. A construct takes back only what it, or a part of it, has
kept, so there always is one. -/
def top (d : Draft) : Nat := d.patches.headD 0

def pop (d : Draft) : Draft := { d with patches := d.patches.drop 1 }

/-- The jump that was kept last goes to the next word. -/
def patchHere (d : Draft) : Draft := d.pop.patch d.top d.pos

/-- As many of the jumps that were kept last go to the next word. -/
def patchAllHere (d : Draft) : Nat → Draft
  | 0 => d
  | n + 1 => d.patchHere.patchAllHere n

/-- Writes a jump, and makes the jump that was kept last go to just past it. -/
def jumpPast (d : Draft) (c : Opcode) : Draft :=
  let branch := d.top
  let d := d.pop.emitJump c
  d.patch branch d.pos

/-! ### Tables -/

/-- The index of a literal, which is entered if it is new. -/
def string (d : Draft) (cs : List Char) : Int × Draft :=
  match d.strings.idxOf? cs with
  | some i => (wordOfNat i, d)
  | none => (wordOfNat d.strings.size, { d with strings := d.strings.push cs })

/-- The index of a class, which is entered if it is new. -/
def charClass (d : Draft) (k : CharClass) : Int × Draft :=
  match d.classes.idxOf? k with
  | some i => (wordOfNat i, d)
  | none => (wordOfNat d.classes.size, { d with classes := d.classes.push k })

/-- The slot of a group; a group without a slot gets one out of range. -/
def slot (numbers : List Nat) (n : Nat) : Int :=
  wordOfNat ((numbers.idxOf? n).getD numbers.length)

def slot? (numbers : List Nat) : Option Nat → Int
  | some n => slot numbers n
  | none => -1

/-! ### Leaves -/

/-- The operand word of a test. -/
def testOperand (d : Draft) : CharTest CharClass → Int × Draft
  | .one c => (c.toNat, d)
  | .notone c => (c.toNat, d)
  | .set k => d.charClass k

/-- The number of rounds left after the first `min`. -/
def roundsLeft (min max : Nat) : Nat := if max = unbounded then max else max - min

def leaf (numbers : List Nat) (o : Options) (d : Draft) (l : Leaf) : Draft :=
  let head (c : Opcode) : OpcodeWord := ⟨c, o.rightToLeft, o.ignoreCase⟩
  match l with
  | .test t =>
    let (w, d) := d.testOperand t
    d.emitWord (head (.test t.kind)) [w]
  | .span lazy t min max =>
    let (w, d) := d.testOperand t
    let d := if 0 < min then d.emitWord (head (.rep t.kind)) [w, wordOfNat min] else d
    if min < max then
      d.emitWord (head (.span lazy t.kind)) [w, wordOfNat (roundsLeft min max)]
    else d
  | .multi cs =>
    let (w, d) := d.string cs
    d.emitWord (head .multi) [w]
  | .ref n => d.emitWord (head .ref) [slot numbers n]
  | .assertion a => d.emit (.assertion a) []
  | .nothing => d.emit .nothing []
  | .empty => d

/-! ### Constructs around one part -/

/-- A loop counts its rounds unless every number from 0 or 1 on will do. -/
def counts (min max : Nat) : Bool := max < unbounded || 1 < min

def beforeLoop (d : Draft) (min max : Nat) : Draft :=
  let d :=
    if counts min max then
      if min = 0 then d.emit .nullcount [0] else d.emit .setcount [1 - wordOfNat min]
    else if min = 0 then d.emit .nullmark []
    else d.emit .setmark []
  let d := if min = 0 then d.emitJump .goto else d
  d.mark d.pos

def afterLoop (d : Draft) (lazy : Bool) (min max : Nat) : Draft :=
  let branch := d.pos
  let body := wordOfNat d.top
  let d := d.pop
  let d :=
    if counts min max then
      d.emit (.branchcount lazy) [body, wordOfNat (roundsLeft min max)]
    else d.emit (.branchmark lazy) [body]
  if min = 0 then d.pop.patch d.top branch else d

def before (d : Draft) : Wrap → Draft
  | .loop _ min max => d.beforeLoop min max
  | .capture _ _ => d.emit .setmark []
  | .require => (d.emit .setjump []).emit .setmark []
  | .prevent => (d.emit .setjump []).emitJump .lazybranch
  | .greedy => d.emit .setjump []

def after (numbers : List Nat) (d : Draft) : Wrap → Draft
  | .loop lazy min max => d.afterLoop lazy min max
  | .capture number uncapture =>
    d.emit .capturemark [slot? numbers number, slot? numbers uncapture]
  | .require => (d.emit .getmark []).emit .forejump []
  | .prevent => ((d.emit .backjump []).patchHere).emit .forejump []
  | .greedy => d.emit .forejump []

/-! ### Constructs over several parts -/

/-- Before the part with number `index` of `count`. -/
def beforePart (numbers : List Nat) (d : Draft) (m : Many) (count index : Nat) : Draft :=
  match m, index with
  | .alternate, _ => if index + 1 < count then d.emitJump .lazybranch else d
  | .testref n, 0 =>
    (((d.emit .setjump []).emitJump .lazybranch).emit .testref [slot numbers n]).emit .forejump []
  | .testgroup, 0 => ((d.emit .setjump []).emit .setmark []).emitJump .lazybranch
  | _, _ => d

/-- After the part with number `index` of `count`. -/
def afterPart (d : Draft) (m : Many) (count index : Nat) : Draft :=
  match m, index with
  | .alternate, _ => if index + 1 < count then d.jumpPast .goto else d.patchAllHere index
  | .testref _, 0 =>
    let d := (d.jumpPast .goto).emit .forejump []
    if count = 1 then d.patchHere else d
  | .testref _, _ => d.patchHere
  | .testgroup, 0 => (d.emit .getmark []).emit .forejump []
  | .testgroup, 1 =>
    let d := ((d.jumpPast .goto).emit .getmark []).emit .forejump []
    if count = 2 then d.patchHere else d
  | .testgroup, _ => d.patchHere
  | _, _ => d

/-! ### Trees -/

/-- Before the part with number `index` of a node. -/
def beforeChild (numbers : List Nat) (d : Draft) (n : Node) (index : Nat) : Draft :=
  match n with
  | .leaf _ _ => d
  | .wrap _ w _ => d.before w
  | .many _ m ns => d.beforePart numbers m ns.length index

/-- After the part with number `index` of a node. -/
def afterChild (numbers : List Nat) (d : Draft) (n : Node) (index : Nat) : Draft :=
  match n with
  | .leaf _ _ => d
  | .wrap _ w _ => d.after numbers w
  | .many _ m ns => d.afterPart m ns.length index

/-- Writes a node that has no parts. -/
def childless (numbers : List Nat) (d : Draft) (n : Node) : Draft :=
  match n with
  | .leaf o l => d.leaf numbers o l
  | _ => d

end Draft

/-- Where the walk over a tree is. -/
structure Walk where
  node : Node
  /-- The number of parts of the node that are written. -/
  child : Nat := 0
  /-- The nodes around it, from the inside out, each with the number of the part it is in. -/
  above : List (Node × Nat) := []

mutual

/-- The number of rounds that a walk over a tree takes: one down to each part and one up from
each node. -/
def Node.rounds : Node → Nat
  | .leaf _ _ => 1
  | .wrap _ _ n => n.rounds + 2
  | .many _ _ ns => Node.roundsOf ns + 1

def Node.roundsOf : List Node → Nat
  | [] => 0
  | n :: ns => n.rounds + 1 + Node.roundsOf ns

end

namespace Draft

/-- One round of a walk: down to the next part, or else up from the node. At the top there is
nowhere to go. -/
def round (numbers : List Nat) (d : Draft) (w : Walk) : Draft × Option Walk :=
  match w.node.children[w.child]? with
  | some n => (d.beforeChild numbers w.node w.child, some ⟨n, 0, (w.node, w.child) :: w.above⟩)
  | none =>
    let d := if w.node.children.isEmpty then d.childless numbers w.node else d
    match w.above with
    | [] => (d, none)
    | (n, index) :: above => (d.afterChild numbers n index, some ⟨n, index + 1, above⟩)

/-- Goes over a tree without recursion on its depth. -/
def walk (numbers : List Nat) : (rounds : Nat) → Draft → Walk → Draft
  | 0, d, _ => d
  | rounds + 1, d, w =>
    match d.round numbers w with
    | (d, none) => d
    | (d, some w) => walk numbers rounds d w

/-- The whole program of a tree. -/
def ofRoot (numbers : List Nat) (root : Node) : Draft :=
  let d := walk numbers root.rounds (({} : Draft).emit .lazybranch [0]) { node := root }
  (d.patch 0 d.pos).emit .stop []

end Draft

namespace Pattern

/-- What a search looks for: a literal of two characters or more, or else the first characters. -/
def startHints (p : Pattern) : Option FirstChars × Option Lead :=
  match p.root.lead? with
  | some l => if 2 ≤ l.size then (none, some l) else (p.root.firstChars? p.culture, none)
  | none => (p.root.firstChars? p.culture, none)

def code (p : Pattern) : Code :=
  let numbers := p.table.numbers
  let d := Draft.ofRoot numbers p.root
  let (firstChars, lead) := p.startHints
  { words := d.words
    strings := d.strings
    classes := d.classes
    leading := p.root.leadingAnchors
    trailing := p.root.trailingAnchors
    firstChars := firstChars
    lead := lead
    trackCount := d.trackCount
    groupNumbers := numbers
    nameTable := p.table.names
    rightToLeft := p.options.rightToLeft
    ecmaScript := p.options.ecmaScript
    culture := p.culture }

def program (p : Pattern) : Except ProgramError Program := p.code.program

end Pattern

end PatternCompiler
