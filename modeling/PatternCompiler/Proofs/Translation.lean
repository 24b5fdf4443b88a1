import PatternCompiler.Proofs.Tree
import PatternCompiler.Program.Lower

/-! The program of a tree, told by recursion on the tree.

A `Line` is an operation with its modifiers, whose jumps go to offsets of words.
`translate t a n` is the list of lines that a tree stands for when its first word
has the offset `a`: what a construct writes around its parts is written down in
one place, and every target is worked out from the sizes of the parts. Literals,
classes and groups are named by their places in the tables `t`. -/
namespace PatternCompiler

/-- An operation with its modifiers, without its place. -/
structure Line where
  op : Op
  rightToLeft : Bool := false
  ignoreCase : Bool := false
deriving DecidableEq

/-! ### Words of a line -/

def CharTest.word : CharTest Nat → Int
  | .one c => c.toNat
  | .notone c => c.toNat
  | .set k => k

/-- A slot as a word; no slot is `-1`. -/
def Op.slotWord : Option Nat → Int
  | some s => s
  | none => -1

/-- The operand words, where targets are offsets. -/
def Op.operands : Op → List Int
  | .rep t count => [t.word, count]
  | .span _ t max => [t.word, max]
  | .test t => [t.word]
  | .multi i => [i]
  | .ref slot => [slot]
  | .lazybranch target => [target]
  | .branchmark _ target => [target]
  | .nullcount n => [n]
  | .setcount n => [n]
  | .branchcount _ target limit => [target, limit]
  | .capturemark slot uncapture => [slotWord slot, slotWord uncapture]
  | .testref slot => [slot]
  | .goto target => [target]
  | _ => []

namespace Line

def head (l : Line) : OpcodeWord := ⟨l.op.opcode, l.rightToLeft, l.ignoreCase⟩

def words (l : Line) : List Int := l.head.word :: l.op.operands

/-- The number of words. -/
def size (l : Line) : Nat := l.op.opcode.size

def wordsOf (ls : List Line) : List Int := ls.flatMap words

/-- The number of words of several lines. -/
def extent (ls : List Line) : Nat := (ls.map size).sum

@[simp] theorem size_lazybranch (a : Nat) : size { op := .lazybranch a } = 2 := rfl

@[simp] theorem size_goto (a : Nat) : size { op := .goto a } = 2 := rfl

@[simp] theorem extent_nil : extent [] = 0 := rfl

@[simp] theorem extent_cons (l : Line) (ls : List Line) : extent (l :: ls) = l.size + extent ls :=
  rfl

@[simp] theorem extent_append (ls ms : List Line) : extent (ls ++ ms) = extent ls + extent ms := by
  simp [extent]

@[simp] theorem wordsOf_nil : wordsOf [] = [] := rfl

@[simp] theorem wordsOf_cons (l : Line) (ls : List Line) :
    wordsOf (l :: ls) = l.words ++ wordsOf ls := rfl

@[simp] theorem wordsOf_append (ls ms : List Line) :
    wordsOf (ls ++ ms) = wordsOf ls ++ wordsOf ms := by
  simp [wordsOf]

theorem operands_length (op : Op) : op.operands.length = op.opcode.arity := by
  cases op <;> rfl

theorem words_length (l : Line) : l.words.length = l.size := by
  simp only [words, size, Opcode.size, List.length_cons, operands_length]
  omega

@[simp] theorem wordsOf_length (ls : List Line) : (wordsOf ls).length = extent ls := by
  induction ls with
  | nil => rfl
  | cons l ls ih => simp [words_length, ih]

end Line

/-! ### Tables -/

/-- A number that fits a word; what is too great becomes the greatest. -/
def capped (n : Nat) : Nat := min n unbounded

/-- What lines refer to by place: the groups, the literals and the classes. -/
structure Tables where
  numbers : List Nat
  strings : List (List Char)
  classes : List CharClass

namespace Tables

def test (t : Tables) : CharTest CharClass → CharTest Nat
  | .one c => .one c
  | .notone c => .notone c
  | .set k => .set (capped (t.classes.idxOf k))

@[simp] theorem test_kind (t : Tables) (c : CharTest CharClass) : (t.test c).kind = c.kind := by
  cases c <;> rfl

/-- The place of a literal. -/
def string (t : Tables) (cs : List Char) : Nat := capped (t.strings.idxOf cs)

/-- The slot of a group; a group that is missing has the one past the last. -/
def slot (t : Tables) (n : Nat) : Nat := capped (t.numbers.idxOf n)

end Tables

/-- The classes that a test is against: one or none. -/
def CharTest.classes {κ : Type} : CharTest κ → List κ
  | .set k => [k]
  | _ => []

namespace Leaf

/-- The literals of several characters in a leaf. -/
def literals : Leaf → List (List Char)
  | .multi cs => [cs]
  | _ => []

/-- The classes that characters are tested against in a leaf. -/
def classes : Leaf → List CharClass
  | .test c => c.classes
  | .span _ c _ _ => c.classes
  | _ => []

end Leaf

namespace Node

def leaf? : Node → Option Leaf
  | .leaf _ l => some l
  | _ => none

/-- The leaves in the order of the tree. -/
def leaves (n : Node) : List Leaf := n.subtrees.filterMap leaf?

@[simp] theorem leaves_leaf (o : Options) (l : Leaf) : (leaf o l).leaves = [l] := rfl

@[simp] theorem leaves_wrap (o : Options) (w : Wrap) (n : Node) : (wrap o w n).leaves = n.leaves :=
  rfl

@[simp] theorem leaves_many (o : Options) (m : Many) (ns : List Node) :
    (many o m ns).leaves = ns.flatMap leaves := by
  show (subtreesOf ns).filterMap leaf? = _
  induction ns with
  | nil => rfl
  | cons n ns ih => rw [subtreesOf, List.filterMap_append, ih]; rfl

theorem mem_leaves {n : Node} {l : Leaf} : l ∈ n.leaves ↔ ∃ o, leaf o l ∈ n.subtrees := by
  rw [leaves, List.mem_filterMap]
  constructor
  · rintro ⟨s, hs, hl⟩
    cases s with
    | leaf o l' =>
      cases hl
      exact ⟨o, hs⟩
    | _ => cases hl
  · rintro ⟨o, hs⟩
    exact ⟨_, hs, rfl⟩

def literals (n : Node) : List (List Char) := n.leaves.flatMap Leaf.literals

def classes (n : Node) : List CharClass := n.leaves.flatMap Leaf.classes

@[simp] theorem literals_leaf (o : Options) (l : Leaf) : (leaf o l).literals = l.literals := by
  simp [literals]

@[simp] theorem classes_leaf (o : Options) (l : Leaf) : (leaf o l).classes = l.classes := by
  simp [classes]

@[simp] theorem literals_many (o : Options) (m : Many) (ns : List Node) :
    (many o m ns).literals = ns.flatMap literals := by
  rw [literals, leaves_many, List.flatMap_assoc]
  rfl

@[simp] theorem classes_many (o : Options) (m : Many) (ns : List Node) :
    (many o m ns).classes = ns.flatMap classes := by
  rw [classes, leaves_many, List.flatMap_assoc]
  rfl

/-- The tables of a tree: each literal and each class once, where it is met first. -/
def tables (numbers : List Nat) (n : Node) : Tables :=
  ⟨numbers, n.literals.eraseDups, n.classes.eraseDups⟩

end Node

/-! ### Shapes -/

namespace Node

/-- The groups that a node itself names: one it captures under, takes back, repeats or asks for. -/
def mentions : Node → List Nat
  | .leaf _ (.ref n) => [n]
  | .wrap _ (.capture number uncapture) _ => number.toList ++ uncapture.toList
  | .many _ (.testref n) _ => [n]
  | _ => []

/-- A node names only groups that are among `numbers`. -/
def Named (numbers : List Nat) (n : Node) : Prop := ∀ k ∈ n.mentions, k ∈ numbers

/-- A condition has its parts: one to go on with, and one more or none for when it fails. -/
def Shaped : Node → Prop
  | .many _ (.testref _) ns => 1 ≤ ns.length ∧ ns.length ≤ 2
  | .many _ .testgroup ns => 2 ≤ ns.length ∧ ns.length ≤ 3
  | _ => True

theorem Shaped.testref {o : Options} {k : Nat} {ns : List Node} (h : (many o (.testref k) ns).Shaped) :
    ∃ yes no, ns = yes :: no ∧ no.length ≤ 1 := by
  cases ns with
  | nil => exact absurd h.1 (by simp)
  | cons yes no => exact ⟨yes, no, rfl, Nat.le_of_succ_le_succ h.2⟩

theorem Shaped.testgroup {o : Options} {ns : List Node} (h : (many o .testgroup ns).Shaped) :
    ∃ condition yes no, ns = condition :: yes :: no ∧ no.length ≤ 1 := by
  rcases ns with _ | ⟨condition, _ | ⟨yes, no⟩⟩
  · exact absurd h.1 (by simp)
  · exact absurd h.1 (by simp)
  · exact ⟨condition, yes, no, rfl, Nat.le_of_succ_le_succ (Nat.le_of_succ_le_succ h.2)⟩

/-- Alternatives and sequences have a part. -/
def Filled : Node → Prop
  | .many _ .alternate ns => ns ≠ []
  | .many _ .concatenate ns => ns ≠ []
  | _ => True

/-- Every construct in the tree has the parts it asks for, and every group that is named is among
`numbers`. -/
def WellFormed (numbers : List Nat) (n : Node) : Prop :=
  n.Everywhere fun s => s.Shaped ∧ s.Filled ∧ s.Named numbers

instance : DecidablePred Shaped
  | .leaf _ _ => .isTrue trivial
  | .wrap _ _ _ => .isTrue trivial
  | .many _ (.testref _) ns => inferInstanceAs (Decidable (1 ≤ ns.length ∧ ns.length ≤ 2))
  | .many _ .testgroup ns => inferInstanceAs (Decidable (2 ≤ ns.length ∧ ns.length ≤ 3))
  | .many _ .alternate _ => .isTrue trivial
  | .many _ .concatenate _ => .isTrue trivial
  | .many _ .group _ => .isTrue trivial

instance : DecidablePred Filled
  | .leaf _ _ => .isTrue trivial
  | .wrap _ _ _ => .isTrue trivial
  | .many _ .alternate ns => inferInstanceAs (Decidable (ns ≠ []))
  | .many _ .concatenate ns => inferInstanceAs (Decidable (ns ≠ []))
  | .many _ (.testref _) _ => .isTrue trivial
  | .many _ .testgroup _ => .isTrue trivial
  | .many _ .group _ => .isTrue trivial

instance (numbers : List Nat) : DecidablePred (Named numbers) :=
  fun n => inferInstanceAs (Decidable (∀ k ∈ n.mentions, k ∈ numbers))

instance (numbers : List Nat) (n : Node) : Decidable (n.WellFormed numbers) :=
  inferInstanceAs (Decidable (n.Everywhere _))

end Node

/-! ### Lines of a tree -/

/-- The line that begins a loop. -/
def loopHead (min max : Nat) : Line :=
  if Draft.counts min max then
    if min = 0 then ⟨.nullcount 0, false, false⟩ else ⟨.setcount (1 - capped min), false, false⟩
  else if min = 0 then ⟨.nullmark, false, false⟩
  else ⟨.setmark, false, false⟩

/-- The line that ends a loop and leads back to its body. -/
def loopTest (lazy : Bool) (min max body : Nat) : Line :=
  if Draft.counts min max then
    ⟨.branchcount lazy body (capped (Draft.roundsLeft min max)), false, false⟩
  else ⟨.branchmark lazy body, false, false⟩

namespace Tables

/-- The lines of a leaf. -/
def leafLines (t : Tables) (o : Options) : Leaf → List Line
  | .test c => [⟨.test (t.test c), o.rightToLeft, o.ignoreCase⟩]
  | .span lazy c min max =>
    (if 0 < min then [⟨.rep (t.test c) (capped min), o.rightToLeft, o.ignoreCase⟩] else []) ++
      (if min < max then
        [⟨.span lazy (t.test c) (capped (Draft.roundsLeft min max)), o.rightToLeft, o.ignoreCase⟩]
      else [])
  | .multi cs => [⟨.multi (t.string cs), o.rightToLeft, o.ignoreCase⟩]
  | .ref n => [⟨.ref (t.slot n), o.rightToLeft, o.ignoreCase⟩]
  | .assertion a => [{ op := .assertion a }]
  | .nothing => [{ op := .nothing }]
  | .empty => []

mutual

/-- The lines of a tree whose first word has the offset `a`. -/
def translate (t : Tables) (a : Nat) : Node → List Line
  | .leaf o l => t.leafLines o l
  | .wrap _ (.loop lazy min max) n =>
    let body := a + (loopHead min max).size + if min = 0 then Opcode.goto.size else 0
    let ls := t.translate body n
    loopHead min max :: (if min = 0 then [{ op := .goto (body + Line.extent ls) }] else []) ++
      ls ++ [loopTest lazy min max body]
  | .wrap _ (.capture number uncapture) n =>
    { op := .setmark } :: t.translate (a + 1) n ++
      [{ op := .capturemark (number.map t.slot) (uncapture.map t.slot) }]
  | .wrap _ .require n =>
    [{ op := .setjump }, { op := .setmark }] ++ t.translate (a + 2) n ++
      [{ op := .getmark }, { op := .forejump }]
  | .wrap _ .prevent n =>
    let ls := t.translate (a + 3) n
    [{ op := .setjump }, { op := .lazybranch (a + 3 + Line.extent ls + 1) }] ++ ls ++
      [{ op := .backjump }, { op := .forejump }]
  | .wrap _ .greedy n => { op := .setjump } :: t.translate (a + 1) n ++ [{ op := .forejump }]
  | .many _ .alternate ns => t.alternatives a (a + Line.extent (t.alternatives a 0 ns)) ns
  | .many _ .concatenate ns => t.sequence a ns
  | .many _ .group ns => t.sequence a ns
  | .many _ (.testref n) (yes :: no) =>
    let ls := t.translate (a + 6) yes
    let other := a + 6 + Line.extent ls + 2
    let ms := t.sequence (other + 1) no
    [{ op := .setjump }, { op := .lazybranch other }, { op := .testref (t.slot n) },
        { op := .forejump }] ++ ls ++
      [{ op := .goto (other + 1 + Line.extent ms) }, { op := .forejump }] ++ ms
  | .many _ .testgroup (condition :: yes :: no) =>
    let cs := t.translate (a + 4) condition
    let ls := t.translate (a + 4 + Line.extent cs + 2) yes
    let other := a + 4 + Line.extent cs + 2 + Line.extent ls + 2
    let ms := t.sequence (other + 2) no
    [{ op := .setjump }, { op := .setmark }, { op := .lazybranch other }] ++ cs ++
      [{ op := .getmark }, { op := .forejump }] ++ ls ++
      [{ op := .goto (other + 2 + Line.extent ms) }, { op := .getmark }, { op := .forejump }] ++ ms
  | .many _ _ _ => []

/-- The lines of several trees, one after the other. -/
def sequence (t : Tables) (a : Nat) : List Node → List Line
  | [] => []
  | n :: ns =>
    let ls := t.translate a n
    ls ++ t.sequence (a + Line.extent ls) ns

/-- The lines of alternatives that go on at `finish`. A failure in one of them, the last one
apart, leads to the next. -/
def alternatives (t : Tables) (a finish : Nat) : List Node → List Line
  | [] => []
  | [n] => t.translate a n
  | n :: m :: ns =>
    let ls := t.translate (a + 2) n
    let next := a + 2 + Line.extent ls + 2
    { op := .lazybranch next } :: ls ++ { op := .goto finish } :: t.alternatives next finish (m :: ns)

end

/-- The lines of a whole program: a tree, with a way to the end for when it fails. -/
def program (t : Tables) (root : Node) : List Line :=
  let ls := t.translate 2 root
  { op := .lazybranch (2 + Line.extent ls) } :: ls ++ [{ op := .stop }]

end Tables

end PatternCompiler
