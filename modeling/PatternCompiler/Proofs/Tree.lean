import Mathlib
import PatternCompiler.Pattern.Reduce

/-! Reasoning about pattern trees.

`Node.induction` goes from the parts of a node to the node. `Everywhere P` says that
`P` holds of a tree and of all that is in it; what is asked of one node at a time
is stated that way. -/
namespace PatternCompiler.Node

variable {P : Node → Prop} {o : Options} {n : Node}

/-- A property holds of every tree if it goes over from the parts of a node to the node. -/
@[elab_as_elim, induction_eliminator]
theorem induction (leaf : ∀ o l, P (.leaf o l)) (wrap : ∀ o w n, P n → P (.wrap o w n))
    (many : ∀ o m ns, (∀ n ∈ ns, P n) → P (.many o m ns)) (n : Node) : P n :=
  @Node.rec P (fun ns => ∀ n ∈ ns, P n) leaf wrap many
    (fun n hn => absurd hn List.not_mem_nil)
    (fun m ms hm hms n hn => by
      rcases List.mem_cons.mp hn with rfl | hn
      · exact hm
      · exact hms n hn) n

/-! ### All nodes of a tree -/

mutual

/-- The node and all nodes in it, each before its parts. -/
def subtrees : Node → List Node
  | .leaf o l => [.leaf o l]
  | .wrap o w n => .wrap o w n :: n.subtrees
  | .many o m ns => .many o m ns :: subtreesOf ns

def subtreesOf : List Node → List Node
  | [] => []
  | n :: ns => n.subtrees ++ subtreesOf ns

end

theorem mem_subtreesOf {s : Node} {ns : List Node} :
    s ∈ subtreesOf ns ↔ ∃ n ∈ ns, s ∈ n.subtrees := by
  induction ns with
  | nil => simp [subtreesOf]
  | cons n ns ih => simp [subtreesOf, ih]

/-- `P` holds of a node and of all nodes in it. -/
def Everywhere (P : Node → Prop) (n : Node) : Prop := ∀ s ∈ n.subtrees, P s

instance {P : Node → Prop} [DecidablePred P] (n : Node) : Decidable (n.Everywhere P) :=
  inferInstanceAs (Decidable (∀ s ∈ n.subtrees, P s))

@[simp] theorem everywhere_leaf {l : Leaf} : (leaf o l).Everywhere P ↔ P (.leaf o l) := by
  simp [Everywhere, subtrees]

@[simp] theorem everywhere_wrap {w : Wrap} :
    (wrap o w n).Everywhere P ↔ P (.wrap o w n) ∧ n.Everywhere P := by
  simp [Everywhere, subtrees]

@[simp] theorem everywhere_many {m : Many} {ns : List Node} :
    (many o m ns).Everywhere P ↔ P (.many o m ns) ∧ ∀ n ∈ ns, n.Everywhere P := by
  simp only [Everywhere, subtrees, List.mem_cons, forall_eq_or_imp, mem_subtreesOf]
  refine and_congr_right fun _ => ⟨fun h n hn s hs => h s ⟨n, hn, hs⟩, ?_⟩
  rintro h s ⟨n, hn, hs⟩
  exact h n hn s hs

theorem Everywhere.here (h : n.Everywhere P) : P n :=
  h n (by cases n <;> simp [subtrees])

theorem Everywhere.imp {Q : Node → Prop} (h : ∀ s, P s → Q s) {n : Node}
    (hn : n.Everywhere P) : n.Everywhere Q :=
  fun s hs => h s (hn s hs)

/-- A literal is a test against a character or a text. -/
theorem literal?_cases {cs : List Char} (h : n.literal? = some cs) :
    (∃ c, n = leaf n.options (.test (.one c)) ∧ cs = [c]) ∨ n = leaf n.options (.multi cs) := by
  unfold literal? at h
  split at h
  · cases h
    exact .inl ⟨_, rfl, rfl⟩
  · cases h
    exact .inr rfl
  · cases h

end PatternCompiler.Node
