import PatternCompiler.Proofs.Orientation

/-! A tree read in one direction, as seen from the other.

`Node.mirror` puts every sequence into the opposite order, up to the lookarounds, which have a
direction of their own. `Node.forget` drops the direction there and `Node.erase` everywhere.
What is left of a tree of one direction is the same as of its mirror image in the other one,
and so it stays when a tree is reduced or repeated: `Node.reduce_straighten` and
`Node.quantify_straighten`. The heart of it is that neighbouring literals are merged into the
same texts from either end (`Node.mergeLiterals_reverse`). -/
namespace PatternCompiler

/-- The same options in the given direction. -/
def Options.turn (o : Options) (rightToLeft : Bool) : Options := { o with rightToLeft := rightToLeft }

namespace Options

variable {o o' : Options} {d d' : Bool}

@[simp] theorem turn_rightToLeft (o : Options) (d : Bool) : (o.turn d).rightToLeft = d := rfl

@[simp] theorem turn_turn (o : Options) (d d' : Bool) : (o.turn d).turn d' = o.turn d' := rfl

theorem turn_self (h : o.rightToLeft = d) : o.turn d = o := by
  cases o
  cases h
  rfl

/-- Options of one direction that agree without it are the same. -/
theorem turn_inj (h : o.rightToLeft = o'.rightToLeft) (heq : o.turn d = o'.turn d) : o = o' := by
  rw [← turn_self (o := o) rfl, ← turn_self (o := o') rfl, h, ← turn_turn o d, heq, turn_turn]

end Options

/-- Only these constructs have a direction of their own. -/
def Wrap.isLookaround : Wrap → Bool
  | .require => true
  | .prevent => true
  | _ => false

namespace Node

/-! ### Mirror images -/

mutual

/-- The tree with all sequences in the opposite order, up to lookarounds. -/
def mirror : Node → Node
  | .leaf o l => .leaf o l
  | .wrap o w n => .wrap o w (if w.isLookaround then n else n.mirror)
  | .many o kind ns => .many o kind (if kind = .concatenate then (mirrorAll ns).reverse else mirrorAll ns)

def mirrorAll : List Node → List Node
  | [] => []
  | n :: ns => n.mirror :: mirrorAll ns

end

mutual

/-- The tree without its direction, up to lookarounds. -/
def forget : Node → Node
  | .leaf o l => .leaf (o.turn false) l
  | .wrap o w n => if w.isLookaround then .wrap o w n else .wrap (o.turn false) w n.forget
  | .many o kind ns => .many (o.turn false) kind (forgetAll ns)

def forgetAll : List Node → List Node
  | [] => []
  | n :: ns => n.forget :: forgetAll ns

end

mutual

/-- The tree under other options. -/
def mapOptions (f : Options → Options) : Node → Node
  | .leaf o l => .leaf (f o) l
  | .wrap o w n => .wrap (f o) w (n.mapOptions f)
  | .many o kind ns => .many (f o) kind (mapOptionsAll f ns)

def mapOptionsAll (f : Options → Options) : List Node → List Node
  | [] => []
  | n :: ns => n.mapOptions f :: mapOptionsAll f ns

end

/-- The tree without any direction. -/
def erase (n : Node) : Node := n.mapOptions (·.turn false)

variable {n m : Node} {ns : List Node} {o : Options} {w : Wrap} {kind : Many} {d : Bool}

theorem mirrorAll_eq_map (ns : List Node) : mirrorAll ns = ns.map mirror := by
  induction ns with
  | nil => rfl
  | cons n ns ih => rw [mirrorAll, ih, List.map_cons]

theorem forgetAll_eq_map (ns : List Node) : forgetAll ns = ns.map forget := by
  induction ns with
  | nil => rfl
  | cons n ns ih => rw [forgetAll, ih, List.map_cons]

theorem mapOptionsAll_eq_map (f : Options → Options) (ns : List Node) :
    mapOptionsAll f ns = ns.map (mapOptions f) := by
  induction ns with
  | nil => rfl
  | cons n ns ih => rw [mapOptionsAll, ih, List.map_cons]

theorem mirror_mirror (n : Node) : n.mirror.mirror = n := by
  induction n with
  | leaf o l => rfl
  | wrap o w n ih =>
    cases hw : w.isLookaround with
    | true => simp [mirror, hw]
    | false => simp [mirror, hw, ih]
  | many o kind ns ih =>
    have hns : (ns.map mirror).map mirror = ns := by
      rw [List.map_map]
      exact (List.map_congr_left ih).trans (List.map_id ns)
    by_cases hkind : kind = .concatenate <;> simp [mirror, hkind, mirrorAll_eq_map, hns]

theorem erase_forget (n : Node) : n.forget.erase = n.erase := by
  unfold erase
  induction n with
  | leaf o l => rfl
  | wrap o w n ih =>
    cases hw : w.isLookaround with
    | true => simp [forget, hw]
    | false => simp [forget, hw, mapOptions, ih]
  | many o kind ns ih =>
    simp only [forget, mapOptions, forgetAll_eq_map, mapOptionsAll_eq_map, List.map_map, Options.turn_turn,
      many.injEq, true_and]
    exact List.map_congr_left ih

theorem mapOptions_mirror (f : Options → Options) (n : Node) : n.mirror.mapOptions f = (n.mapOptions f).mirror := by
  induction n with
  | leaf o l => rfl
  | wrap o w n ih =>
    cases hw : w.isLookaround with
    | true => simp [mirror, mapOptions, hw]
    | false => simp [mirror, mapOptions, hw, ih]
  | many o kind ns ih =>
    have hns : (ns.map mirror).map (mapOptions f) = (ns.map (mapOptions f)).map mirror := by
      rw [List.map_map, List.map_map]
      exact List.map_congr_left ih
    by_cases hkind : kind = .concatenate
    · simp only [mirror, mapOptions, mirrorAll_eq_map, mapOptionsAll_eq_map, if_pos hkind, List.map_reverse, hns]
    · simp only [mirror, mapOptions, mirrorAll_eq_map, mapOptionsAll_eq_map, if_neg hkind, hns]

/-! ### Trees without a direction -/

/-- Parts in the order in which they are written, given in that in which they are matched. -/
def ordered {α : Type} (rightToLeft : Bool) (l : List α) : List α := if rightToLeft then l.reverse else l

theorem ordered_map {α β : Type} (f : α → β) (d : Bool) (l : List α) :
    (ordered d l).map f = ordered d (l.map f) := by
  cases d
  · rfl
  · exact List.map_reverse

@[simp] theorem ordered_ordered {α : Type} (d : Bool) (l : List α) : ordered d (ordered d l) = l := by
  cases d
  · rfl
  · exact List.reverse_reverse l

@[simp] theorem ordered_nil {α : Type} (d : Bool) : ordered d ([] : List α) = [] := by
  cases d <;> rfl

@[simp] theorem ordered_singleton {α : Type} (d : Bool) (a : α) : ordered d [a] = [a] := by
  cases d <;> rfl

@[simp] theorem length_ordered {α : Type} (d : Bool) (l : List α) : (ordered d l).length = l.length := by
  cases d
  · rfl
  · exact List.length_reverse

@[simp] theorem mem_ordered {α : Type} {a : α} {l : List α} : a ∈ ordered d l ↔ a ∈ l := by
  cases d
  · exact Iff.rfl
  · exact List.mem_reverse

theorem ordered_flatMap {α β : Type} (f : α → List β) (d : Bool) (l : List α) :
    ordered d (l.flatMap f) = (ordered d l).flatMap fun a => ordered d (f a) := by
  cases d
  · rfl
  · exact List.reverse_flatMap

/-- What is left of a tree of the given direction, with its sequences as they are written. -/
def straighten (rightToLeft : Bool) (n : Node) : Node := if rightToLeft then n.forget.mirror else n.forget

@[simp] theorem straighten_leaf (d : Bool) (o : Options) (l : Leaf) :
    (leaf o l).straighten d = leaf (o.turn false) l := by
  cases d <;> rfl

theorem straighten_lookaround (d : Bool) (o : Options) (hw : w.isLookaround = true) (n : Node) :
    (wrap o w n).straighten d = wrap o w n := by
  cases d <;> simp [straighten, forget, mirror, hw]

theorem straighten_wrap (d : Bool) (o : Options) (hw : w.isLookaround = false) (n : Node) :
    (wrap o w n).straighten d = wrap (o.turn false) w (n.straighten d) := by
  cases d <;> simp [straighten, forget, mirror, hw]

theorem straighten_sequence (d : Bool) (o : Options) (ns : List Node) :
    (many o .concatenate ns).straighten d =
      many (o.turn false) .concatenate (ordered d (ns.map (straighten d))) := by
  cases d <;> simp [straighten, forget, mirror, forgetAll_eq_map, mirrorAll_eq_map, ordered]

theorem straighten_many (d : Bool) (o : Options) (hkind : kind ≠ .concatenate) (ns : List Node) :
    (many o kind ns).straighten d = many (o.turn false) kind (ns.map (straighten d)) := by
  cases d <;> simp [straighten, forget, mirror, forgetAll_eq_map, mirrorAll_eq_map, hkind]

/-- Only the direction of a tree is dropped from its options. -/
theorem straighten_options (d : Bool) (n : Node) : (n.straighten d).options.turn false = n.options.turn false := by
  cases n with
  | leaf o l => simp [options]
  | wrap o w n =>
    cases hw : w.isLookaround with
    | true => rw [straighten_lookaround d o hw]
    | false => simp [straighten_wrap d o hw, options]
  | many o kind ns =>
    by_cases hkind : kind = .concatenate
    · simp [hkind, straighten_sequence, options]
    · simp [straighten_many d o hkind, options]

theorem oriented_wrap : (wrap o w n).Oriented d ↔ n.Oriented (if w.isLookaround then o.rightToLeft else d) := by
  cases w <;> rfl

theorem straighten_oriented (n : Node) (hn : n.Oriented d) : (n.straighten d).Oriented false := by
  induction n with
  | leaf o l =>
    rw [straighten_leaf]
    exact fun _ => rfl
  | wrap o w n ih =>
    cases hw : w.isLookaround with
    | true => simpa [straighten_lookaround, hw, oriented_wrap] using hn
    | false =>
      rw [oriented_wrap, hw] at hn
      simpa [straighten_wrap, hw, oriented_wrap] using ih hn
  | many o kind ns ih =>
    obtain ⟨_, hns⟩ := oriented_many.mp hn
    by_cases hkind : kind = .concatenate
    · rw [hkind, straighten_sequence]
      refine oriented_many.mpr ⟨fun _ => rfl, fun m hm => ?_⟩
      obtain ⟨n, hmem, rfl⟩ := List.mem_map.mp (mem_ordered.mp hm)
      exact ih n hmem (hns n hmem)
    · rw [straighten_many d o hkind]
      refine oriented_many.mpr ⟨fun _ => rfl, fun m hm => ?_⟩
      obtain ⟨n, hmem, rfl⟩ := List.mem_map.mp hm
      exact ih n hmem (hns n hmem)

/-- What has been straightened is straight. -/
theorem straighten_straighten (d : Bool) (n : Node) : (n.straighten d).straighten false = n.straighten d := by
  induction n with
  | leaf o l => simp
  | wrap o w n ih =>
    cases hw : w.isLookaround with
    | true => simp [straighten_lookaround, hw]
    | false => simp [straighten_wrap, hw, ih]
  | many o kind ns ih =>
    have hns : (ns.map (straighten d)).map (straighten false) = ns.map (straighten d) := by
      rw [List.map_map]
      exact List.map_congr_left ih
    by_cases hkind : kind = .concatenate
    · rw [hkind, straighten_sequence, straighten_sequence, ordered_map, hns]
      rfl
    · rw [straighten_many d o hkind, straighten_many false _ hkind, hns]
      rfl

/-! ### Literals -/

@[simp] theorem literal?_straighten (d : Bool) (n : Node) : (n.straighten d).literal? = n.literal? := by
  cases n with
  | leaf o l =>
    rw [straighten_leaf]
    cases l with
    | test t => cases t <;> rfl
    | _ => rfl
  | wrap o w n =>
    cases hw : w.isLookaround with
    | true => rw [straighten_lookaround d o hw]
    | false =>
      rw [straighten_wrap d o hw]
      rfl
  | many o kind ns =>
    by_cases hkind : kind = .concatenate
    · rw [hkind, straighten_sequence]
      rfl
    · rw [straighten_many d o hkind]
      rfl

theorem absorb?_of_none (h : n.literal? = none ∨ m.literal? = none) : n.absorb? m = none := by
  unfold absorb?
  rcases h with h | h
  · simp [h]
  · cases hn : n.literal? <;> simp [h]

theorem absorb?_of_some {a b : List Char} (hn : n.literal? = some a) (hm : m.literal? = some b) :
    n.absorb? m = if n.options = m.options then
      some (leaf n.options (.multi (if n.options.rightToLeft then b ++ a else a ++ b))) else none := by
  simp [absorb?, hn, hm]

theorem absorb?_cases {k : Node} (h : n.absorb? m = some k) :
    ∃ a b cs, n.literal? = some a ∧ m.literal? = some b ∧ n.options = m.options ∧
      k = leaf n.options (.multi cs) := by
  unfold absorb? at h
  split at h
  · split at h
    · cases h
      exact ⟨_, _, _, ‹_›, ‹_›, ‹_›, rfl⟩
    · cases h
  · cases h

/-- What absorbs a literal absorbs that literal with more after it. -/
theorem exists_absorb? {k i j : Node} (hkn : k.absorb? n = some i) (hnm : n.absorb? m = some j) :
    ∃ l, k.absorb? j = some l := by
  obtain ⟨a, b, _, ha, _, hkn, _⟩ := absorb?_cases hkn
  obtain ⟨_, _, cs, _, _, _, rfl⟩ := absorb?_cases hnm
  rw [absorb?_of_some ha rfl, options, if_pos hkn]
  exact ⟨_, rfl⟩

/-- Of three literals it does not matter which two are merged first. -/
theorem absorb?_assoc (k n m : Node) : (k.absorb? n).bind (·.absorb? m) = (n.absorb? m).bind k.absorb? := by
  cases hk : k.literal? with
  | none =>
    rw [absorb?_of_none (.inl hk)]
    cases n.absorb? m with
    | none => rfl
    | some i => exact (absorb?_of_none (.inl hk)).symm
  | some a =>
  cases hn : n.literal? with
  | none => rw [absorb?_of_none (.inr hn), absorb?_of_none (.inl hn)]; rfl
  | some b =>
  cases hm : m.literal? with
  | none =>
    rw [absorb?_of_none (n := n) (.inr hm)]
    cases k.absorb? n with
    | none => rfl
    | some i => exact absorb?_of_none (.inr hm)
  | some c =>
    rw [absorb?_of_some hk hn, absorb?_of_some hn hm]
    by_cases hkn : k.options = n.options
    · by_cases hnm : n.options = m.options
      · rw [if_pos hkn, if_pos hnm, Option.bind_some, Option.bind_some, absorb?_of_some rfl hm,
          absorb?_of_some hk rfl, options, options, if_pos (hkn.trans hnm), if_pos hkn, ← hkn]
        cases k.options.rightToLeft <;> simp
      · rw [if_pos hkn, if_neg hnm, Option.bind_some, absorb?_of_some rfl hm, options,
          if_neg (hkn ▸ hnm)]
        rfl
    · rw [if_neg hkn]
      by_cases hnm : n.options = m.options
      · rw [if_pos hnm, Option.bind_some, absorb?_of_some hk rfl, options, if_neg hkn]
        rfl
      · rw [if_neg hnm]
        rfl

theorem options_straighten_of_literal? {a : List Char} (h : n.literal? = some a) :
    (n.straighten d).options = n.options.turn false := by
  rcases literal?_cases h with ⟨c, heq, _⟩ | heq <;> rw [heq, straighten_leaf] <;> rfl

/-- Literals of one direction are merged in the other order if they are straightened. -/
theorem absorb?_straighten (hn : n.Oriented d) (hm : m.Oriented d) :
    (if d then (m.straighten d).absorb? (n.straighten d) else (n.straighten d).absorb? (m.straighten d)) =
      (n.absorb? m).map (straighten d) := by
  cases ha : n.literal? with
  | none =>
    rw [absorb?_of_none (.inl ha), absorb?_of_none (.inr (by simpa)), absorb?_of_none (.inl (by simpa)), ite_self]
    rfl
  | some a =>
  cases hb : m.literal? with
  | none =>
    rw [absorb?_of_none (.inr hb), absorb?_of_none (.inl (by simpa)), absorb?_of_none (.inr (by simpa)), ite_self]
    rfl
  | some b =>
    have hsame : n.options.turn false = m.options.turn false ↔ n.options = m.options :=
      ⟨Options.turn_inj ((hn.literal ha).trans (hm.literal hb).symm), fun h => h ▸ rfl⟩
    rw [absorb?_of_some (n := m.straighten d) (by simpa) (by simpa),
      absorb?_of_some (n := n.straighten d) (by simpa) (by simpa), absorb?_of_some ha hb,
      options_straighten_of_literal? ha, options_straighten_of_literal? hb, hn.literal ha]
    by_cases heq : n.options = m.options
    · cases d <;> simp [heq, Options.turn]
    · cases d
      · simp [hsame, heq]
      · simp [eq_comm, hsame, heq]

/-! ### Merging from either end -/

/-- Merges a literal with the one after it, if it is the first. -/
def prepend (n : Node) : List Node → List Node
  | [] => [n]
  | m :: ms => match n.absorb? m with
    | some k => k :: ms
    | none => n :: m :: ms

theorem exists_prepend (n : Node) (ms : List Node) : ∃ h t, prepend n ms = h :: t := by
  cases ms with
  | nil => exact ⟨n, [], rfl⟩
  | cons m ms =>
    cases h : n.absorb? m with
    | some k => exact ⟨k, ms, by simp [prepend, h]⟩
    | none => exact ⟨n, m :: ms, by simp [prepend, h]⟩

theorem prepend_append (n : Node) {ms : List Node} (hms : ms ≠ []) (ks : List Node) :
    prepend n (ms ++ ks) = prepend n ms ++ ks := by
  obtain ⟨m, ms, rfl⟩ := List.exists_cons_of_ne_nil hms
  simp only [List.cons_append, prepend]
  cases n.absorb? m <;> rfl

theorem mergeFrom_eq_prepend (n : Node) (ns : List Node) : mergeFrom n ns = prepend n (mergeLiterals ns) := by
  induction ns generalizing n with
  | nil => rfl
  | cons m rest ih =>
    have hassoc := absorb?_assoc n m
    rw [mergeFrom, mergeLiterals, ih m]
    cases hnm : n.absorb? m with
    | none =>
      cases mergeLiterals rest with
      | nil => simp [prepend, hnm]
      | cons h t =>
        have hassoc := hassoc h
        rw [hnm, Option.bind_none] at hassoc
        cases hmh : m.absorb? h with
        | none => simp [prepend, hmh, hnm]
        | some j =>
          rw [hmh, Option.bind_some] at hassoc
          simp [prepend, hmh, ← hassoc]
    | some k =>
      simp only [ih k]
      cases mergeLiterals rest with
      | nil => simp [prepend, hnm]
      | cons h t =>
        have hassoc := hassoc h
        rw [hnm, Option.bind_some] at hassoc
        cases hmh : m.absorb? h with
        | none =>
          rw [hmh, Option.bind_none] at hassoc
          simp [prepend, hmh, hnm, hassoc]
        | some j =>
          rw [hmh, Option.bind_some] at hassoc
          obtain ⟨l, hl⟩ := exists_absorb? hnm hmh
          simp [prepend, hmh, hassoc, hl]

theorem mergeLiterals_cons (n : Node) (ns : List Node) :
    mergeLiterals (n :: ns) = prepend n (mergeLiterals ns) :=
  mergeFrom_eq_prepend n ns

/-- Merges a literal with the one before it, if it is the last. -/
def append : List Node → Node → List Node
  | [], n => [n]
  | [m], n => match m.absorb? n with
    | some k => [k]
    | none => [m, n]
  | m :: m' :: ms, n => m :: append (m' :: ms) n

theorem mergeFrom_concat (n : Node) (ns : List Node) (m : Node) :
    mergeFrom n (ns ++ [m]) = append (mergeFrom n ns) m := by
  induction ns generalizing n with
  | nil => cases h : n.absorb? m <;> simp [mergeFrom, append, h]
  | cons next rest ih =>
    rw [List.cons_append, mergeFrom, mergeFrom]
    cases hnext : n.absorb? next with
    | some k => exact ih k
    | none =>
      obtain ⟨h, t, heq⟩ := exists_prepend next (mergeLiterals rest)
      simp only [ih next, mergeFrom_eq_prepend, heq, append]

theorem mergeLiterals_concat (ns : List Node) (m : Node) :
    mergeLiterals (ns ++ [m]) = append (mergeLiterals ns) m := by
  cases ns with
  | nil => rfl
  | cons n ns => exact mergeFrom_concat n ns m

/-- What is put before a reversed list is put behind the list. -/
theorem prepend_reverse {ms : List Node} (hms : ∀ m ∈ ms, m.Oriented true) (hn : n.Oriented true) :
    prepend (n.straighten true) (ms.map (straighten true)).reverse =
      ((append ms n).map (straighten true)).reverse := by
  fun_induction append ms n with
  | case1 => rfl
  | case2 m n k hk =>
    have habsorb := absorb?_straighten (hms m (by simp)) hn
    simp_all [prepend]
  | case3 m n hk =>
    have habsorb := absorb?_straighten (hms m (by simp)) hn
    simp_all [prepend]
  | case4 m m' ms n ih =>
    obtain ⟨_, hrest⟩ := List.forall_mem_cons.mp hms
    rw [List.map_cons, List.reverse_cons, prepend_append _ (by simp), ih hrest hn, List.map_cons, List.reverse_cons]

/-- **Literals are merged into the same texts from either end.** -/
theorem mergeLiterals_reverse (hns : ∀ n ∈ ns, n.Oriented true) :
    mergeLiterals (ns.map (straighten true)).reverse = ((mergeLiterals ns).map (straighten true)).reverse := by
  induction ns using List.reverseRecOn with
  | nil => rfl
  | append_singleton ns n ih =>
    have hmem : ∀ m ∈ ns, m.Oriented true := fun m hm => hns m (List.mem_append_left _ hm)
    rw [List.map_append, List.map_singleton, List.reverse_append, List.reverse_singleton,
      List.singleton_append, mergeLiterals_cons, ih hmem,
      prepend_reverse ((oriented_robust _).forall_mergeLiterals hmem) (hns n (by simp)), mergeLiterals_concat]

theorem mergeLiterals_straighten (hns : ∀ n ∈ ns, n.Oriented d) :
    mergeLiterals (ordered d (ns.map (straighten d))) = ordered d ((mergeLiterals ns).map (straighten d)) := by
  cases d with
  | true => exact mergeLiterals_reverse hns
  | false =>
    show mergeLiterals (ns.map (straighten false)) = (mergeLiterals ns).map (straighten false)
    induction ns with
    | nil => rfl
    | cons n ns ih =>
      obtain ⟨hn, hns⟩ := List.forall_mem_cons.mp hns
      rw [List.map_cons, mergeLiterals_cons, ih hns, mergeLiterals_cons]
      cases hms : mergeLiterals ns with
      | nil => rfl
      | cons m ms =>
        have hm : m.Oriented false := (oriented_robust _).forall_mergeLiterals hns m (by simp [hms])
        have habsorb := absorb?_straighten hn hm
        simp only [Bool.false_eq_true, if_false] at habsorb
        simp only [List.map_cons, prepend, habsorb]
        cases n.absorb? m <;> rfl

/-! ### Reduction and repetition -/

theorem alternativesOf_eq_flatMap (ns : List Node) : alternativesOf ns = ns.flatMap alternatives := by
  induction ns with
  | nil => rfl
  | cons n ns ih => rw [alternativesOf, ih, List.flatMap_cons]

theorem partsOf_eq_flatMap (d : Bool) (ns : List Node) : partsOf d ns = ns.flatMap (parts d) := by
  induction ns with
  | nil => rfl
  | cons n ns ih => rw [partsOf, ih, List.flatMap_cons]

theorem alternativesOf_map {f : Node → Node} (hns : ∀ n ∈ ns, (f n).alternatives = n.alternatives.map f) :
    alternativesOf (ns.map f) = (alternativesOf ns).map f := by
  rw [alternativesOf_eq_flatMap, alternativesOf_eq_flatMap, List.flatMap_map, List.map_flatMap]
  exact List.flatMap_congr hns

theorem alternatives_straighten (d : Bool) (n : Node) :
    (n.straighten d).alternatives = n.alternatives.map (straighten d) := by
  induction n with
  | leaf o l => cases l <;> simp [alternatives]
  | wrap o w n _ =>
    cases hw : w.isLookaround with
    | true => simp [alternatives, straighten_lookaround, hw]
    | false => simp [alternatives, straighten_wrap, hw]
  | many o kind ns ih =>
    cases kind with
    | alternate =>
      rw [straighten_many d o (by simp), alternatives, alternatives]
      exact alternativesOf_map ih
    | concatenate => simp [alternatives, straighten_sequence]
    | _ => simp [alternatives, straighten_many]

theorem partsOf_straighten
    (hns : ∀ n ∈ ns, (n.straighten d).parts false = ordered d ((n.parts d).map (straighten d))) :
    partsOf false (ordered d (ns.map (straighten d))) = ordered d ((partsOf d ns).map (straighten d)) := by
  rw [partsOf_eq_flatMap, partsOf_eq_flatMap, List.map_flatMap, ordered_flatMap, ← ordered_map, List.flatMap_map]
  exact List.flatMap_congr fun n hn => hns n (mem_ordered.mp hn)

theorem parts_straighten (n : Node) (hn : n.Oriented d) :
    (n.straighten d).parts false = ordered d ((n.parts d).map (straighten d)) := by
  induction n with
  | leaf o l => cases l <;> simp [parts]
  | wrap o w n _ =>
    cases hw : w.isLookaround with
    | true => simp [parts, straighten_lookaround, hw]
    | false => simp [parts, straighten_wrap, hw]
  | many o kind ns ih =>
    obtain ⟨hdirection, hns⟩ := oriented_many.mp hn
    cases kind with
    | concatenate =>
      rw [straighten_sequence, parts, parts, if_pos (Options.turn_rightToLeft o false), if_pos (hdirection rfl)]
      exact partsOf_straighten fun n hmem => ih n hmem (hns n hmem)
    | _ => simp [parts, straighten_many]

theorem strip_sequence_straighten (d : Bool) (o : Options) (none : Leaf) (ns : List Node) :
    (strip o .concatenate none ns).straighten d =
      strip (o.turn false) .concatenate none (ordered d (ns.map (straighten d))) := by
  rcases ns with _ | ⟨n, _ | ⟨m, ns⟩⟩
  · simp [strip]
  · simp [strip]
  · rw [strip_of_two (by simp), strip_of_two (by simp), straighten_sequence]

theorem strip_straighten (d : Bool) (o : Options) (hkind : kind ≠ .concatenate) (none : Leaf) (ns : List Node) :
    (strip o kind none ns).straighten d = strip (o.turn false) kind none (ns.map (straighten d)) := by
  rcases ns with _ | ⟨n, _ | ⟨m, ns⟩⟩
  · simp [strip]
  · simp [strip]
  · exact straighten_many d o hkind (n :: m :: ns)

theorem ungroup_of_kind (h : n.kind? ≠ some .group) : n.ungroup = n := by
  cases n with
  | many o kind ns =>
    cases kind with
    | group => exact absurd rfl h
    | _ => rfl
  | _ => rfl

theorem kind?_straighten (d : Bool) (n : Node) : (n.straighten d).kind? = n.kind? := by
  cases n with
  | leaf o l =>
    rw [straighten_leaf]
    rfl
  | wrap o w n =>
    cases hw : w.isLookaround with
    | true => rw [straighten_lookaround d o hw]
    | false =>
      rw [straighten_wrap d o hw]
      rfl
  | many o kind ns =>
    by_cases hkind : kind = .concatenate
    · rw [hkind, straighten_sequence]
      rfl
    · rw [straighten_many d o hkind]
      rfl

/-- A map that keeps the groups may be applied before a group of one part is replaced by it, or after that. -/
theorem ungroup_map {f : Node → Node} (hkind : ∀ n, (f n).kind? = n.kind?)
    (hgroup : ∀ o ns, ∃ o', f (many o .group ns) = many o' .group (ns.map f)) (n : Node) :
    f n.ungroup = (f n).ungroup := by
  have hother {n : Node} (hn : n.kind? ≠ some .group) : f n.ungroup = (f n).ungroup := by
    rw [ungroup_of_kind hn, ungroup_of_kind ((hkind n).symm ▸ hn)]
  induction n with
  | leaf | wrap => exact hother (by simp [kind?])
  | many o kind ns ih =>
    by_cases heq : kind = .group
    · obtain ⟨o', hmap⟩ := hgroup o ns
      rw [heq, hmap]
      rcases ns with _ | ⟨m, _ | ⟨m', ns⟩⟩
      · exact hmap
      · exact ih m List.mem_cons_self
      · exact hmap
    · exact hother fun h => heq (Option.some.inj h)

theorem ungroup_straighten (d : Bool) (n : Node) : n.ungroup.straighten d = (n.straighten d).ungroup :=
  ungroup_map (kind?_straighten d) (fun o ns => ⟨_, straighten_many d o (by simp) ns⟩) n

/-- **Reduction does the same in either direction.** -/
theorem reduce_straighten (n : Node) (hn : n.Oriented d) : n.reduce.straighten d = (n.straighten d).reduce := by
  cases n with
  | leaf o l => cases l <;> simp [reduce]
  | wrap o w n =>
    cases hw : w.isLookaround with
    | true => simp [reduce, straighten_lookaround, hw]
    | false => simp [reduce, straighten_wrap, hw]
  | many o kind ns =>
    obtain ⟨hdirection, hns⟩ := oriented_many.mp hn
    cases kind with
    | alternate =>
      rw [straighten_many d o (by simp), reduce, reduce, strip_straighten d o (by simp),
        alternativesOf_map fun n _ => alternatives_straighten d n]
    | concatenate =>
      have hparts : ∀ m ∈ partsOf d ns, m.Oriented d := (oriented_robust d).forall_partsOf hns
      rw [straighten_sequence, reduce, reduce, strip_sequence_straighten, hdirection rfl,
        ← mergeLiterals_straighten hparts, ← partsOf_straighten fun n hmem => parts_straighten n (hns n hmem)]
      rfl
    | group =>
      rw [straighten_many d o (by simp), reduce, reduce, ungroup_straighten, straighten_many d o (by simp)]
    | _ => simp [reduce, straighten_many]

/-- **Repetition does the same in either direction.** -/
theorem quantify_straighten (hn : n.Oriented d) (lazy : Bool) (min max : Nat) :
    (n.quantify lazy min max).straighten d = ((n.straighten d).quantify lazy min max).straighten false := by
  unfold quantify
  by_cases hzero : min = 0 ∧ max = 0
  · rw [if_pos hzero, if_pos hzero, straighten_leaf, straighten_leaf, straighten_options]
  by_cases hone : min = 1 ∧ max = 1
  · rw [if_neg hzero, if_neg hzero, if_pos hone, if_pos hone, straighten_straighten]
  rw [if_neg hzero, if_neg hzero, if_neg hone, if_neg hone]
  have hloop : (wrap n.options (.loop lazy min max) n.reduce).straighten d =
      (wrap (n.straighten d).options (.loop lazy min max) (n.straighten d).reduce).straighten false := by
    rw [straighten_wrap d _ rfl, straighten_wrap false _ rfl, straighten_options, reduce_straighten n hn,
      reduce_straighten _ (straighten_oriented n hn), straighten_straighten]
  cases n with
  | leaf o l =>
    rw [straighten_leaf] at hloop ⊢
    cases l with
    | test t => simp
    | _ => exact hloop
  | wrap o w n =>
    cases hw : w.isLookaround with
    | true => simpa [straighten_lookaround, hw] using hloop
    | false => simpa [straighten_wrap, hw] using hloop
  | many o kind ns =>
    by_cases hkind : kind = .concatenate
    · rw [hkind, straighten_sequence] at hloop
      rw [hkind, straighten_sequence]
      exact hloop
    · rw [straighten_many d o hkind] at hloop ⊢
      exact hloop

end Node
end PatternCompiler
