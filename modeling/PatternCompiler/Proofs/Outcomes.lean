import PatternCompiler.Proofs.Tree
import PatternCompiler.Search.Runner
import PatternCompiler.Culture

/-! What a pattern matches, told by recursion on the tree.

`Node.outcomes` lists the ways in which a tree can match from a position on, the
preferred one first. Each is an `Outcome`: where it ends, and what every group has
captured by then, the oldest capture first. There is no machine and nothing to undo:
a sequence goes on from each outcome of its first part, alternatives are tried one
after the other, and an atomic group keeps the first outcome only. Every node reads
in the direction and in the case mode of its own options.

The trees are those without loops over groups, references and conditions
(`Node.Simple`). -/
namespace PatternCompiler

/-! ### Texts -/

/-- A text and the bounds of what a match may touch. -/
structure Subject where
  text : Array Char
  /-- The least position. -/
  beg : Nat
  /-- The greatest position. -/
  finish : Nat
  /-- Where the search started. -/
  start : Nat
  beg_le_finish : beg ≤ finish
  finish_le_size : finish ≤ text.size
  /-- A character takes four bytes of storage. -/
  stored : 4 * text.size ≤ Runner.maxStorage

namespace Subject

/-- A position within the bounds. -/
def Inside (x : Subject) (pos : Nat) : Prop := x.beg ≤ pos ∧ pos ≤ x.finish

instance (x : Subject) (pos : Nat) : Decidable (x.Inside pos) :=
  inferInstanceAs (Decidable (_ ∧ _))

/-- Before an attempt to match at a position. -/
def runner (x : Subject) (slots pos : Nat) : Runner where
  text := x.text
  beg := x.beg
  finish := x.finish
  start := x.start
  pos := pos
  captures := .ofSlots slots

/-- A position is a word of the same value. -/
theorem double_lt_modulus (x : Subject) {pos : Nat} (h : x.Inside pos) : 2 * pos < Word.modulus := by
  have := h.2
  have := x.finish_le_size
  have := x.stored
  simp only [Runner.maxStorage, Word.modulus] at *
  omega

theorem lt_modulus (x : Subject) {pos : Nat} (h : x.Inside pos) : pos < Word.modulus := by
  have := x.double_lt_modulus h
  omega

/-- The characters from a position on in the direction of the options, in their case mode. -/
def ahead (x : Subject) (k : Culture) (o : Options) (pos : Nat) : List Char :=
  let cs :=
    if o.rightToLeft then ((x.text.toList.take pos).drop x.beg).reverse
    else (x.text.toList.take x.finish).drop pos
  if o.ignoreCase then k.lowerText cs else cs

def before? (x : Subject) (pos : Nat) : Option Char := if x.beg < pos then x.text[pos - 1]? else none

def after? (x : Subject) (pos : Nat) : Option Char := if pos < x.finish then x.text[pos]? else none

/-- Just one of the two neighbours of a position belongs to a word. -/
def boundary (x : Subject) (isWord : Char → Bool) (pos : Nat) : Bool :=
  (x.before? pos).any isWord != (x.after? pos).any isWord

def holds (x : Subject) (pos : Nat) : Assertion → Bool
  | .bol => (x.before? pos).all (· == '\n')
  | .eol => (x.after? pos).all (· == '\n')
  | .boundary => x.boundary Unicode.isWord pos
  | .nonboundary => !x.boundary Unicode.isWord pos
  | .ecmaBoundary => x.boundary Unicode.isEcmaWord pos
  | .nonEcmaBoundary => !x.boundary Unicode.isEcmaWord pos
  | .beginning => pos == x.beg
  | .start => pos == x.start
  | .endZ => pos == x.finish || (pos + 1 == x.finish && x.after? pos == some '\n')
  | .finish => pos == x.finish

end Subject

/-! ### Leaves -/

/-- The position `n` characters further on. -/
def moved (o : Options) (pos n : Nat) : Nat := if o.rightToLeft then pos - n else pos + n

theorem moved_moved (o : Options) (pos i j : Nat) : moved o (moved o pos i) j = moved o pos (i + j) := by
  unfold moved
  split <;> omega

theorem moved_zero (o : Options) (pos : Nat) : moved o pos 0 = pos := by
  unfold moved
  split <;> rfl

def CharTest.accepts : CharTest CharClass → Char → Bool
  | .one x, c => c == x
  | .notone x, c => c != x
  | .set k, c => k.contains c

/-- As many of `n` as an upper bound allows. -/
def bounded (max n : Nat) : Nat := if max = unbounded then n else min n max

theorem bounded_le (max n : Nat) : bounded max n ≤ n := by
  unfold bounded
  split <;> omega

/-- The numbers of rounds to try, when as many as `longest` would do. A repetition whose bounds are
the same is exact. -/
def spanCounts (lazy : Bool) (min max longest : Nat) : List Nat :=
  let top := if min < max then bounded max longest else Nat.min longest max
  let counts := List.range' min (top + 1 - min)
  if lazy then counts else counts.reverse

theorem mem_spanCounts {lazy : Bool} {min max longest n : Nat} (h : n ∈ spanCounts lazy min max longest) :
    min ≤ n ∧ n ≤ longest := by
  have htop : (if min < max then bounded max longest else Nat.min longest max) ≤ longest := by
    split
    · exact bounded_le max longest
    · exact Nat.min_le_left longest max
  have hcounts : n ∈ List.range' min ((if min < max then bounded max longest else Nat.min longest max) + 1 - min) := by
    unfold spanCounts at h
    dsimp only at h
    split at h
    · exact h
    · exact List.mem_reverse.mp h
  rw [List.mem_range'_1] at hcounts
  omega

namespace Leaf

/-- Where a leaf can end. -/
def landings (x : Subject) (k : Culture) (o : Options) (pos : Nat) : Leaf → List Nat
  | .test t => if (x.ahead k o pos).head?.any t.accepts then [moved o pos 1] else []
  | .span lazy t min max =>
    let longest := ((x.ahead k o pos).takeWhile t.accepts).length
    (spanCounts lazy min max longest).map (moved o pos)
  | .multi cs =>
    if (x.ahead k o pos).take cs.length = (if o.rightToLeft then cs.reverse else cs) then
      [moved o pos cs.length]
    else []
  | .assertion a => if x.holds pos a then [pos] else []
  | .empty => [pos]
  | .nothing => []
  | .ref _ => []

end Leaf

/-- A text that begins with a literal is as long. -/
theorem length_le_of_take {o : Options} {cs text : List Char}
    (h : cs.take text.length = if o.rightToLeft then text.reverse else text) : text.length ≤ cs.length := by
  have hlength := congrArg List.length h
  rw [List.length_take] at hlength
  by_cases hdir : o.rightToLeft = true
  · rw [if_pos hdir, List.length_reverse] at hlength
    omega
  · rw [if_neg hdir] at hlength
    omega

/-! ### The text ahead -/

namespace Subject

variable (x : Subject) (k : Culture) (o : Options) {pos n : Nat}

theorem ahead_length (h : x.Inside pos) :
    (x.ahead k o pos).length = if o.rightToLeft then pos - x.beg else x.finish - pos := by
  obtain ⟨hbeg, hfinish⟩ := h
  have := x.finish_le_size
  have hlower : ∀ cs, (if o.ignoreCase then k.lowerText cs else cs).length = cs.length := by
    intro cs
    split
    · exact List.length_map _
    · rfl
  rw [ahead, hlower]
  split
  · simp
    omega
  · simp
    omega

/-- The `n`-th character ahead. -/
theorem ahead_getElem? (h : x.Inside pos) (hn : n < (x.ahead k o pos).length) :
    (x.ahead k o pos)[n]? =
      x.text[if o.rightToLeft then pos - 1 - n else pos + n]?.map
        fun c => if o.ignoreCase then k.toLower c else c := by
  rw [x.ahead_length k o h] at hn
  obtain ⟨hbeg, hfinish⟩ := h
  have hsize := x.finish_le_size
  have hlower : ∀ cs : List Char, (if o.ignoreCase then k.lowerText cs else cs)[n]? =
      cs[n]?.map fun c => if o.ignoreCase then k.toLower c else c := by
    intro cs
    split
    · exact List.getElem?_map
    · simp
  rw [ahead, hlower]
  congr 1
  by_cases hrtl : o.rightToLeft
  · rw [if_pos hrtl] at hn
    rw [if_pos hrtl, if_pos hrtl, List.getElem?_reverse (by simp; omega), List.getElem?_drop,
      List.getElem?_take_of_lt (by simp; omega), Array.getElem?_toList]
    congr 1
    simp
    omega
  · rw [if_neg hrtl] at hn
    rw [if_neg hrtl, if_neg hrtl, List.getElem?_drop, List.getElem?_take_of_lt (by omega),
      Array.getElem?_toList]

theorem inside_moved (h : x.Inside pos) (hn : n ≤ (x.ahead k o pos).length) :
    x.Inside (moved o pos n) := by
  rw [x.ahead_length k o h] at hn
  obtain ⟨hbeg, hfinish⟩ := h
  unfold moved Inside
  split
  · rw [if_pos ‹_›] at hn
    omega
  · rw [if_neg ‹_›] at hn
    omega

/-- After `n` characters, the rest is ahead. -/
theorem ahead_moved (h : x.Inside pos) (hn : n ≤ (x.ahead k o pos).length) :
    x.ahead k o (moved o pos n) = (x.ahead k o pos).drop n := by
  have hmoved := x.inside_moved k o h hn
  have hlength : (x.ahead k o (moved o pos n)).length = (x.ahead k o pos).length - n := by
    rw [x.ahead_length k o hmoved, x.ahead_length k o h]
    unfold moved
    split <;> omega
  refine List.ext_getElem? fun i => ?_
  rw [List.getElem?_drop]
  by_cases hi : n + i < (x.ahead k o pos).length
  · rw [x.ahead_getElem? k o h hi, x.ahead_getElem? k o hmoved (by omega)]
    congr 2
    unfold moved
    split <;> omega
  · rw [List.getElem?_eq_none (by omega), List.getElem?_eq_none (by omega)]

end Subject

/-! ### Trees -/

/-- Start and length of all captures of each group. -/
abbrev Groups : Type := Nat → List (Nat × Nat)

namespace Groups

/-- Adds a capture of the group `n`. -/
def record (g : Groups) (n : Nat) (capture : Nat × Nat) : Groups :=
  fun k => if k = n then g k ++ [capture] else g k

end Groups

/-- Where a match ends and what has been captured. -/
structure Outcome where
  pos : Nat
  groups : Groups

/-- Start and length of what is between two positions. -/
def interval (a b : Nat) : Nat × Nat := (min a b, max a b - min a b)

namespace Node

variable (x : Subject) (k : Culture)

mutual

/-- The ways to match from an outcome on. -/
def outcomes (s : Outcome) : Node → List Outcome
  | .leaf o l => (l.landings x k o s.pos).map (⟨·, s.groups⟩)
  | .wrap _ (.capture (some g) none) n =>
    (n.outcomes s).map fun t => ⟨t.pos, t.groups.record g (interval s.pos t.pos)⟩
  | .wrap _ .require n => ((n.outcomes s).take 1).map fun t => ⟨s.pos, t.groups⟩
  | .wrap _ .prevent n => if (n.outcomes s).isEmpty then [s] else []
  | .wrap _ .greedy n => (n.outcomes s).take 1
  | .many _ .alternate ns => outcomesOfAny s ns
  | .many _ .concatenate ns => outcomesOfAll s ns
  | .many _ .group ns => outcomesOfAll s ns
  | _ => []

/-- The ways to match one of the trees. -/
def outcomesOfAny (s : Outcome) : List Node → List Outcome
  | [] => []
  | n :: ns => n.outcomes s ++ outcomesOfAny s ns

/-- The ways to match the trees one after the other. -/
def outcomesOfAll (s : Outcome) : List Node → List Outcome
  | [] => [s]
  | n :: ns => (n.outcomes s).flatMap (outcomesOfAll · ns)

end

/-- A node that `outcomes` tells the meaning of. -/
def Simple : Node → Prop
  | .leaf _ (.span _ _ min max) => min ≤ max ∧ max ≤ unbounded
  | .leaf _ (.ref _) => False
  | .leaf _ _ => True
  | .wrap _ (.loop _ _ _) _ => False
  | .wrap _ (.capture number uncapture) _ => number.isSome ∧ uncapture = none
  | .wrap _ _ _ => True
  | .many _ .alternate ns => ns ≠ []
  | .many _ (.testref _) _ => False
  | .many _ .testgroup _ => False
  | .many _ _ _ => True

instance : DecidablePred Simple
  | .leaf _ (.span _ _ min max) => inferInstanceAs (Decidable (min ≤ max ∧ max ≤ unbounded))
  | .leaf _ (.ref _) => .isFalse id
  | .leaf _ (.test _) => .isTrue trivial
  | .leaf _ (.multi _) => .isTrue trivial
  | .leaf _ (.assertion _) => .isTrue trivial
  | .leaf _ .nothing => .isTrue trivial
  | .leaf _ .empty => .isTrue trivial
  | .wrap _ (.loop _ _ _) _ => .isFalse id
  | .wrap _ (.capture number uncapture) _ => inferInstanceAs (Decidable (number.isSome ∧ uncapture = none))
  | .wrap _ .require _ => .isTrue trivial
  | .wrap _ .prevent _ => .isTrue trivial
  | .wrap _ .greedy _ => .isTrue trivial
  | .many _ .alternate ns => inferInstanceAs (Decidable (ns ≠ []))
  | .many _ .concatenate _ => .isTrue trivial
  | .many _ .group _ => .isTrue trivial
  | .many _ (.testref _) _ => .isFalse id
  | .many _ .testgroup _ => .isFalse id

end Node

end PatternCompiler
