import PatternCompiler.Proofs.ClassRanges
import PatternCompiler.Proofs.Reading
import PatternCompiler.Proofs.Rendering

/-! The form in which reduction leaves a tree.

`Node.TidyAt` says of one node what reduction has nothing left to do about: alternatives
and sequences have two parts at least and hold none of their own kind, neighbouring
literals have different options, groups without a number are gone, and a class is written
out only if it is neither one character nor, as far as its ranges tell, all but one.
Reduction makes a node out of tidy parts tidy (`reduce_alternate_neat`,
`reduce_concatenate_neat`), and so does repetition (`quantify_neat`).

A sequence takes the parts of a nested one in place only if both have the same direction.
So what goes into a sequence must not be a sequence of the other direction, which is what
`Node.Neat` adds. -/
namespace PatternCompiler

/-- A class that is written out is not one character, nor all but one if there is a character between
any two of its ranges. There is, unless one of them has an end at the surrogates. -/
def CharTest.Tidy : CharTest CharClass → Prop
  | .set k =>
    (∀ c, ¬ ∀ d, k.contains d = true ↔ d = c) ∧
    (CharClass.Spaced k.ranges.toList → ∀ c, ¬ ∀ d, k.contains d = true ↔ d ≠ c) ∧
    ((∀ r ∈ k.ranges.toList, r.lo ≠ '\uD7FF' ∧ r.hi ≠ '\uD7FF' ∧ r.hi ≠ '\uE000') →
      CharClass.Spaced k.ranges.toList)
  | _ => True

namespace Node

/-- Two neighbours are not literals of the same options. -/
def Separate (m n : Node) : Prop := m.options = n.options → m.literal? = none ∨ n.literal? = none

/-- Nothing is left to reduce at a node. -/
def TidyAt : Node → Prop
  | leaf _ (.test t) => t.Tidy
  | leaf _ (.span _ t min max) => t.Tidy ∧ Repeats min max
  | leaf _ (.multi cs) => 2 ≤ cs.length
  | leaf _ .nothing => False
  | leaf _ _ => True
  | wrap _ (.loop _ min max) _ => Repeats min max
  | wrap _ _ _ => True
  | many _ .alternate ns => 2 ≤ ns.length ∧ ∀ n ∈ ns, n.kind? ≠ some .alternate
  | many _ .concatenate ns =>
    2 ≤ ns.length ∧ (∀ n ∈ ns, n.kind? ≠ some .concatenate ∧ n.isEmpty = false) ∧ ns.IsChain Separate
  | many _ .group _ => False
  | many _ (.testref _) ns => 1 ≤ ns.length ∧ ns.length ≤ 2
  | many _ .testgroup ns => 1 ≤ ns.length ∧ ns.length ≤ 3

/-- A sequence has the given direction. -/
def Along (rightToLeft : Bool) (n : Node) : Prop :=
  ∀ o ns, n = many o .concatenate ns → o.rightToLeft = rightToLeft

/-- A tree that can be a part of a sequence of the given direction. -/
structure Neat (rightToLeft : Bool) (n : Node) : Prop where
  tidy : n.Everywhere TidyAt
  along : n.Along rightToLeft

variable {n : Node} {ns : List Node} {o : Options} {d : Bool}

theorem along_of_kind (h : n.kind? ≠ some .concatenate) : n.Along d := by
  rintro o ns rfl
  exact absurd rfl h

/-! ### Alternations -/

/-- The alternatives of a tidy tree: those of an alternation, or else the tree itself. -/
theorem alternatives_of_tidy (hn : n.TidyAt) (hkind : n.kind? ≠ some .alternate) : n.alternatives = [n] := by
  match n with
  | leaf _ l =>
    cases l with
    | nothing => exact absurd hn id
    | _ => rfl
  | wrap _ _ _ => rfl
  | many _ m _ =>
    cases m with
    | alternate => exact absurd rfl hkind
    | _ => rfl

theorem alternativesOf_of_tidy (hns : ∀ n ∈ ns, n.TidyAt ∧ n.kind? ≠ some .alternate) :
    alternativesOf ns = ns := by
  induction ns with
  | nil => rfl
  | cons n ns ih =>
    obtain ⟨⟨hn, hkind⟩, hns⟩ := List.forall_mem_cons.mp hns
    rw [alternativesOf, alternatives_of_tidy hn hkind, ih hns, List.singleton_append]

theorem alternatives_cases (hn : n.Everywhere TidyAt) :
    n.alternatives = [n] ∧ n.kind? ≠ some .alternate ∨
      2 ≤ n.alternatives.length ∧
        ∀ m ∈ n.alternatives, m.Everywhere TidyAt ∧ m.kind? ≠ some .alternate := by
  by_cases hkind : n.kind? = some .alternate
  · obtain ⟨o, ns, rfl⟩ := kind?_eq_some hkind
    obtain ⟨⟨htwo, hkinds⟩, hns⟩ := everywhere_many.mp hn
    rw [alternatives, alternativesOf_of_tidy fun n hn => ⟨(hns n hn).here, hkinds n hn⟩]
    exact .inr ⟨htwo, fun m hm => ⟨hns m hm, hkinds m hm⟩⟩
  · exact .inl ⟨alternatives_of_tidy hn.here hkind, hkind⟩

theorem alternativesOf_tidy (hns : ∀ n ∈ ns, n.Everywhere TidyAt) :
    ∀ m ∈ alternativesOf ns, m.Everywhere TidyAt ∧ m.kind? ≠ some .alternate := by
  intro m hm
  obtain ⟨n, hn, hm⟩ := mem_alternativesOf.mp hm
  rcases alternatives_cases (hns n hn) with ⟨hself, hkind⟩ | ⟨_, hall⟩
  · rw [hself, List.mem_singleton] at hm
    rw [hm]
    exact ⟨hns n hn, hkind⟩
  · exact hall m hm

theorem length_le_alternativesOf (hns : ∀ n ∈ ns, n.Everywhere TidyAt) :
    ns.length ≤ (alternativesOf ns).length := by
  induction ns with
  | nil => exact Nat.le_refl 0
  | cons n ns ih =>
    obtain ⟨hn, hns⟩ := List.forall_mem_cons.mp hns
    have hlength : 1 ≤ n.alternatives.length := by
      rcases alternatives_cases hn with ⟨hself, _⟩ | ⟨htwo, _⟩
      · rw [hself]
        exact Nat.le_refl 1
      · omega
    have := ih hns
    rw [alternativesOf, List.length_append, List.length_cons]
    omega

/-- **An alternation of tidy trees is reduced to a tidy one.** -/
theorem reduce_alternate_neat (hne : ns ≠ []) (hns : ∀ n ∈ ns, n.Neat d) :
    (many o .alternate ns).reduce.Neat d := by
  have htidy := alternativesOf_tidy fun n hn => (hns n hn).tidy
  have hlength := length_le_alternativesOf fun n hn => (hns n hn).tidy
  rw [reduce]
  rcases hflat : alternativesOf ns with _ | ⟨m, _ | ⟨m', rest⟩⟩
  · rw [hflat] at hlength
    exact absurd (List.length_eq_zero_iff.mp (Nat.le_zero.mp hlength)) hne
  · rw [hflat] at hlength
    obtain ⟨n, rfl⟩ := List.length_eq_one_iff.mp
      (Nat.le_antisymm hlength (List.length_pos_iff.mpr hne))
    have hn := hns n (List.mem_singleton_self n)
    rw [alternativesOf, alternativesOf, List.append_nil] at hflat
    -- A nested alternation would have brought two alternatives.
    rcases alternatives_cases hn.tidy with ⟨hself, _⟩ | ⟨htwo, _⟩
    · rw [hself] at hflat
      cases hflat
      exact hn
    · rw [hflat] at htwo
      exact absurd htwo (by simp)
  · rw [hflat] at htidy
    exact ⟨everywhere_many.mpr ⟨⟨by simp, fun n hn => (htidy n hn).2⟩, fun n hn => (htidy n hn).1⟩,
      along_of_kind (by simp [strip, kind?])⟩

/-! ### Sequences -/

/-- A tree that stands in a sequence as it is. -/
structure Factor (n : Node) : Prop where
  tidy : n.Everywhere TidyAt
  kind : n.kind? ≠ some .concatenate
  filled : n.isEmpty = false

theorem Factor.parts (h : n.Factor) : n.parts d = [n] := by
  match n with
  | leaf _ l =>
    cases l with
    | empty => exact absurd h.filled (by simp [isEmpty])
    | _ => rfl
  | wrap _ _ _ => rfl
  | many _ m _ =>
    cases m with
    | concatenate => exact absurd rfl h.kind
    | _ => rfl

theorem partsOf_of_factor (hns : ∀ n ∈ ns, n.Factor) : partsOf d ns = ns := by
  induction ns with
  | nil => rfl
  | cons n ns ih =>
    obtain ⟨hn, hns⟩ := List.forall_mem_cons.mp hns
    rw [partsOf, hn.parts, ih hns, List.singleton_append]

theorem Neat.parts (h : n.Neat d) : ∀ m ∈ n.parts d, m.Factor := by
  by_cases hkind : n.kind? = some .concatenate
  · obtain ⟨o, ns, rfl⟩ := kind?_eq_some hkind
    obtain ⟨⟨_, hkinds, _⟩, hns⟩ := everywhere_many.mp h.tidy
    have hparts : ∀ m ∈ ns, m.Factor := fun m hm => ⟨hns m hm, (hkinds m hm).1, (hkinds m hm).2⟩
    rw [Node.parts, if_pos (h.along o ns rfl), partsOf_of_factor hparts]
    exact hparts
  · by_cases hempty : n.isEmpty = true
    · obtain ⟨o, rfl⟩ := isEmpty_iff.mp hempty
      simp [Node.parts]
    · have hpart : n.Factor := ⟨h.tidy, hkind, by simpa using hempty⟩
      rw [hpart.parts]
      simpa using hpart

theorem literal?_ne_nil (h : n.Everywhere TidyAt) {cs : List Char} (hcs : n.literal? = some cs) :
    1 ≤ cs.length := by
  rcases literal?_cases hcs with ⟨c, _, rfl⟩ | hn
  · exact Nat.le_refl 1
  · rw [hn] at h
    exact Nat.le_of_succ_le h.here

/-- Two literals make one that is a part as well, of the same options. -/
theorem absorb?_factor {next m : Node} (hn : n.Factor) (hnext : next.Factor) (h : n.absorb? next = some m) :
    m.Factor ∧ m.options = n.options ∧ m.literal?.isSome = n.literal?.isSome := by
  unfold absorb? at h
  split at h
  · split at h
    · rename_i a b ha hb
      cases h
      have hone := literal?_ne_nil hn.tidy ha
      have hone' := literal?_ne_nil hnext.tidy hb
      refine ⟨⟨everywhere_leaf.mpr ?_, by simp [kind?], rfl⟩, rfl, by rw [ha]; rfl⟩
      show 2 ≤ List.length (if _ then _ else _)
      split <;> rw [List.length_append] <;> omega
    · cases h
  · cases h

theorem separate_of_absorb? {next : Node} (h : n.absorb? next = none) : n.Separate next := by
  intro ho
  rw [absorb?, if_pos ho] at h
  cases ha : n.literal? with
  | none => exact .inl rfl
  | some a =>
    cases hb : next.literal? with
    | none => exact .inr rfl
    | some b => simp [ha, hb] at h

/-- What begins with a literal before merging begins with one of the same options after it. -/
theorem mergeFrom_head (n : Node) (ns : List Node) (hn : n.Factor) (hns : ∀ m ∈ ns, m.Factor) :
    ∃ m rest, mergeFrom n ns = m :: rest ∧ m.options = n.options ∧ m.literal?.isSome = n.literal?.isSome := by
  induction ns generalizing n with
  | nil => exact ⟨n, [], rfl, rfl, rfl⟩
  | cons next rest ih =>
    obtain ⟨hnext, hrest⟩ := List.forall_mem_cons.mp hns
    rw [mergeFrom]
    split
    · rename_i m habsorb
      obtain ⟨hm, ho, hliteral⟩ := absorb?_factor hn hnext habsorb
      obtain ⟨m', rest', heq, ho', hliteral'⟩ := ih m hm hrest
      exact ⟨m', rest', heq, ho'.trans ho, hliteral'.trans hliteral⟩
    · exact ⟨n, _, rfl, rfl, rfl⟩

theorem mergeFrom_spec (n : Node) (ns : List Node) (hn : n.Factor) (hns : ∀ m ∈ ns, m.Factor) :
    (∀ m ∈ mergeFrom n ns, m.Factor) ∧ (mergeFrom n ns).IsChain Separate := by
  induction ns generalizing n with
  | nil => exact ⟨by simpa [mergeFrom] using hn, List.IsChain.singleton n⟩
  | cons next rest ih =>
    obtain ⟨hnext, hrest⟩ := List.forall_mem_cons.mp hns
    rw [mergeFrom]
    split
    · rename_i m habsorb
      exact ih m (absorb?_factor hn hnext habsorb).1 hrest
    · rename_i habsorb
      obtain ⟨hparts, hchain⟩ := ih next hnext hrest
      obtain ⟨m, rest', heq, ho, hliteral⟩ := mergeFrom_head next rest hnext hrest
      rw [heq] at hparts hchain ⊢
      refine ⟨List.forall_mem_cons.mpr ⟨hn, hparts⟩, List.isChain_cons_cons.mpr ⟨fun hsame => ?_, hchain⟩⟩
      refine (separate_of_absorb? habsorb (hsame.trans ho)).imp id fun hnone => ?_
      rw [hnone] at hliteral
      exact Option.not_isSome_iff_eq_none.mp (by simp [hliteral])

/-- **A sequence of tidy trees of its direction is reduced to a tidy one.** -/
theorem reduce_concatenate_neat (hns : ∀ n ∈ ns, n.Neat o.rightToLeft) :
    (many o .concatenate ns).reduce.Neat o.rightToLeft := by
  have hparts : ∀ m ∈ partsOf o.rightToLeft ns, m.Factor := by
    intro m hm
    obtain ⟨n, hn, hm⟩ := mem_partsOf.mp hm
    exact (hns n hn).parts m hm
  have hmerged : (∀ m ∈ mergeLiterals (partsOf o.rightToLeft ns), m.Factor) ∧
      (mergeLiterals (partsOf o.rightToLeft ns)).IsChain Separate := by
    cases hflat : partsOf o.rightToLeft ns with
    | nil => exact ⟨List.forall_mem_nil _, List.IsChain.nil⟩
    | cons n rest =>
      rw [hflat] at hparts
      obtain ⟨hn, hrest⟩ := List.forall_mem_cons.mp hparts
      exact mergeFrom_spec n rest hn hrest
  obtain ⟨hall, hchain⟩ := hmerged
  rw [reduce]
  rcases hflat : mergeLiterals (partsOf o.rightToLeft ns) with _ | ⟨m, _ | ⟨m', rest⟩⟩
  · exact ⟨everywhere_leaf.mpr trivial, along_of_kind (by simp [strip, kind?])⟩
  · rw [hflat] at hall
    have hm := hall m (List.mem_singleton_self m)
    exact ⟨hm.tidy, along_of_kind hm.kind⟩
  · rw [hflat] at hall hchain
    refine ⟨everywhere_many.mpr ⟨⟨by simp, fun n hn => ⟨(hall n hn).kind, (hall n hn).filled⟩, hchain⟩,
      fun n hn => (hall n hn).tidy⟩, ?_⟩
    rintro o' ns' heq
    cases heq
    rfl

/-! ### Groups, tests and repetitions -/

theorem reduce_group_neat (hn : n.Neat d) : (many o .group [n]).reduce.Neat d := by
  have hself : n.ungroup = n := by
    match n, hn.tidy.here with
    | leaf _ _, _ => rfl
    | wrap _ _ _, _ => rfl
    | many _ m _, hhere =>
      cases m with
      | group => exact absurd hhere id
      | _ => rfl
  rw [reduce, ungroup, hself]
  exact hn

theorem simplifyTest_tidy {t : CharTest CharClass}
    (ht : ∀ k, t = .set k → CharClass.NearlyAscending k.ranges.toList) : (simplifyTest t).Tidy := by
  cases t with
  | one c => trivial
  | notone c => trivial
  | set k =>
    have hk := ht k rfl
    rw [simplifyTest]
    cases hone : k.singleton? with
    | some c => trivial
    | none =>
      cases hmissing : k.missing? with
      | some c => trivial
      | none =>
        refine ⟨fun c hc => ?_, fun hspaced c hc => ?_, hk.spaced⟩
        · cases hone.symm.trans (CharClass.singleton?_of_contains hk.ordered hc)
        · cases hmissing.symm.trans (CharClass.missing?_of_contains hk.ordered hspaced hc)

theorem leaf_neat {l : Leaf} (hl : (leaf o l).TidyAt) : (leaf o l).Neat d :=
  ⟨everywhere_leaf.mpr hl, along_of_kind (by simp [kind?])⟩

theorem wrap_neat {w : Wrap} (hw : (wrap o w n).TidyAt) (hn : n.Everywhere TidyAt) : (wrap o w n).Neat d :=
  ⟨everywhere_wrap.mpr ⟨hw, hn⟩, along_of_kind (by simp [kind?])⟩

/-- What is tidy when it is reduced is so when it is repeated. -/
theorem quantify_neat (hn : n.reduce.Neat d) (lazy : Bool) {min max : Nat} (hle : min ≤ max)
    (hmax : max ≤ unbounded) : (n.quantify lazy min max).reduce.Neat d := by
  unfold quantify
  split
  · exact leaf_neat trivial
  rename_i hzero
  split
  · exact hn
  rename_i hone
  have hrepeats : Repeats min max := ⟨hle, hmax, hzero, hone⟩
  split
  · exact leaf_neat ⟨hn.tidy.here, hrepeats⟩
  · exact wrap_neat hrepeats hn.tidy

end Node

end PatternCompiler
