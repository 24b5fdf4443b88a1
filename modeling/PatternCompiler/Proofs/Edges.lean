import PatternCompiler.Proofs.Assertions
import PatternCompiler.Proofs.Meaning

/-! The anchors at the ends of a pattern hold at the ends of every match.

A part of a pattern is seen from one end of the match: it leads from the position that is
`near` that end to the one that is `far` from it. What its `Edge` says is right about the
two (`Edge.Right`) if the anchors hold at the near one and, should the next part stand at
the same end, both are the same. So the edges of a sequence, read from that end, go along a
chain of positions (`Edge.Along`), of which the first is the end of the match
(`Edge.holds_of_gather`).

`Node.edge_right` goes by induction on the tree, for both ends at once, and
`Node.anchors_sound` states what follows for the tests that a routine makes. -/
namespace PatternCompiler

/-! ### Anchors -/

namespace Anchor

/-- What an anchor asserts of a position. -/
def assertion : Anchor → Assertion
  | beginning => .beginning
  | bol => .bol
  | start => .start
  | eol => .eol
  | endZ => .endZ
  | finish => .finish
  | boundary => .boundary
  | ecmaBoundary => .ecmaBoundary

theorem assertion_of_anchor? {a : Assertion} {b : Anchor} (h : a.anchor? = some b) : b.assertion = a := by
  cases a <;> cases h <;> rfl

/-- At the position, a routine goes on from every operation that tests for the anchor. -/
def HoldsAt (a : Anchor) (x : Subject) (pos : Nat) : Prop :=
  ∀ (m : Routine) (o : Operation) (r : Runner), o.op = .assertion a.assertion → r.On x → r.pos = pos →
    m.forward o r = .ok (.following, r)

theorem holdsAt_of_holds {a : Anchor} {x : Subject} {pos : Nat} (h : x.holds pos a.assertion = true) :
    a.HoldsAt x pos := by
  rintro m o r ho hr rfl
  simp [Routine.forward, ho, hr.holds, h, bind, Except.bind]

end Anchor

/-! ### Parts of a sequence -/

namespace Edge

variable {x : Subject} {es fs : List Edge} {p q m : Nat}

/-- What the edge of a part says is right about the part between two positions. -/
structure Right (x : Subject) (e : Edge) (near far : Nat) : Prop where
  holds : ∀ a, e.anchors.contains a = true → x.holds near a.assertion = true
  stays : e.more = true → far = near

/-- An edge that says nothing is right. -/
theorem Right.silent (x : Subject) (near far : Nat) : Right x {} near far where
  holds a ha := by
    rw [AnchorSet.contains_empty] at ha
    cases ha
  stays h := by cases h

/-- A part that does not move may be passed over. -/
theorem Right.passed (h : q = p) : Right x { more := true } p q where
  holds := (Right.silent x p q).holds
  stays _ := h

/-- What follows a part may be left out. -/
theorem Right.alone {e : Edge} (h : Right x e p q) (m : Nat) : Right x { anchors := e.anchors } p m where
  holds := h.holds
  stays h := by cases h

/-- The edges of parts, one after the other between positions. -/
def Along (x : Subject) : List Edge → Nat → Nat → Prop
  | [], p, q => p = q
  | e :: es, p, q => ∃ m, Right x e p m ∧ Along x es m q

theorem Along.append (h : Along x es p m) (h' : Along x fs m q) : Along x (es ++ fs) p q := by
  induction es generalizing p with
  | nil =>
    cases h
    exact h'
  | cons e es ih =>
    obtain ⟨n, hn, hrest⟩ := h
    exact ⟨n, hn, ih hrest⟩

/-- The anchors that are gathered hold at the first position. -/
theorem holds_of_gather (h : Along x es p q) {a : Anchor} (ha : (gather es).contains a = true) :
    x.holds p a.assertion = true := by
  induction es generalizing p with
  | nil =>
    rw [gather, AnchorSet.contains_empty] at ha
    cases ha
  | cons e es ih =>
    obtain ⟨m, hright, hrest⟩ := h
    rw [gather] at ha
    split at ha
    · rename_i hmore
      rw [AnchorSet.contains_union, Bool.or_eq_true] at ha
      rcases ha with ha | ha
      · exact hright.holds a ha
      · rw [← hright.stays hmore]
        exact ih hrest ha
    · exact hright.holds a ha

end Edge

/-! ### Trees -/

namespace Outcome

/-- Of the ends of a match, the one that is looked at. -/
def near (fromEnd : Bool) (s t : Outcome) : Nat := if fromEnd then t.pos else s.pos

/-- Of the ends of a match, the other one. -/
def far (fromEnd : Bool) (s t : Outcome) : Nat := near (!fromEnd) s t

variable {fromEnd : Bool} {s t u : Outcome}

theorem near_of_pos (h : t.pos = u.pos) : near fromEnd s t = near fromEnd s u := by
  unfold near
  rw [h]

theorem near_of_stays (h : t.pos = s.pos) : near fromEnd s t = s.pos := by
  unfold near
  rw [h, ite_self]

theorem far_of_stays (h : t.pos = s.pos) : far fromEnd s t = near fromEnd s t := by
  rw [far, near_of_stays h, near_of_stays h]

end Outcome

namespace Node

open Outcome (near far)

variable {x : Subject} {k : Culture} {fails : Node → Outcome → Prop} {fromEnd : Bool}

/-- The edge of a part is right about each of its matches. -/
def EdgeSound (x : Subject) (k : Culture) (fails : Node → Outcome → Prop) (fromEnd : Bool) (n : Node) : Prop :=
  ∀ s t, n.Matches x k fails s t → Edge.Right x (n.edge fromEnd) (near fromEnd s t) (far fromEnd s t)

/-- From either end, a sequence goes along the edges of its parts. -/
theorem along_of_matchesAll {ns : List Node} (ih : ∀ n ∈ ns, EdgeSound x k fails fromEnd n) {s t : Outcome}
    (h : MatchesAll x k fails ns s t) :
    Edge.Along x (if fromEnd then (edges fromEnd ns).reverse else edges fromEnd ns)
      (near fromEnd s t) (far fromEnd s t) := by
  induction ns generalizing s with
  | nil =>
    cases h
    cases fromEnd <;> rfl
  | cons n ns ihn =>
    obtain ⟨u, hu, hrest⟩ := h
    have hhead := ih n (List.mem_cons_self ..) s u hu
    have htail := ihn (fun m hm => ih m (List.mem_cons_of_mem n hm)) hrest
    rw [edges]
    cases fromEnd with
    | false => exact ⟨u.pos, hhead, htail⟩
    | true =>
      rw [if_pos rfl, List.reverse_cons]
      exact Edge.Along.append htail ⟨s.pos, hhead, rfl⟩

theorem leaf_edgeSound (o : Options) (l : Leaf) : EdgeSound x k fails fromEnd (.leaf o l) := by
  intro s t h
  cases l with
  | assertion a =>
    have h : t.pos ∈ if x.holds s.pos a then [s.pos] else [] := h.1
    obtain ⟨hholds, hpos⟩ := List.mem_ite_nil_right.mp h
    have hpos : t.pos = s.pos := List.mem_singleton.mp hpos
    rw [Outcome.far_of_stays hpos, Outcome.near_of_stays hpos, edge]
    cases ha : a.anchor? with
    | none => exact .silent ..
    | some b =>
      refine ⟨fun c hc => ?_, fun _ => rfl⟩
      rw [AnchorSet.contains_insert, AnchorSet.contains_empty, Bool.false_or, beq_iff_eq] at hc
      rwa [← hc, Anchor.assertion_of_anchor? ha]
  | empty => exact .passed (Outcome.far_of_stays (List.mem_singleton.mp h.1))
  | _ => exact .silent ..

theorem edge_right (n : Node) : EdgeSound x k fails fromEnd n := by
  induction n with
  | leaf o l => exact leaf_edgeSound o l
  | wrap o w n ih =>
    intro s t h
    cases w with
    | loop lazy min max => exact .silent ..
    | capture number uncapture =>
      obtain ⟨u, hu, hpos, -⟩ := h
      rw [Outcome.near_of_pos hpos]
      exact (ih s u hu).alone _
    | require =>
      obtain ⟨u, -, rfl⟩ := h
      exact .passed (Outcome.far_of_stays rfl)
    | prevent =>
      obtain ⟨-, rfl⟩ := h
      exact .passed (Outcome.far_of_stays rfl)
    | greedy => exact (ih s t h).alone _
  | many o m ns ih =>
    intro s t h
    cases m with
    | concatenate =>
      refine ⟨fun a ha => Edge.holds_of_gather (along_of_matchesAll ih h) ha, fun hmore => ?_⟩
      cases hmore
    | _ => exact .silent ..

/-- **The anchors of a pattern hold at the ends of every match**: the leading ones where it starts and the
trailing ones where it ends, in the order of matching. -/
theorem anchors_sound {root : Node} {s t : Outcome} (h : root.Matches x k fails s t) :
    (∀ a, root.leadingAnchors.contains a = true → a.HoldsAt x s.pos) ∧
      ∀ a, root.trailingAnchors.contains a = true → a.HoldsAt x t.pos := by
  constructor
  · intro a ha
    have hright : Edge.Right x (root.edge false) s.pos t.pos := edge_right root s t h
    exact Anchor.holdsAt_of_holds (hright.holds a ha)
  · intro a ha
    have hright : Edge.Right x (root.edge true) t.pos s.pos := edge_right root s t h
    exact Anchor.holdsAt_of_holds (hright.holds a ha)

/-- The rest of a text after its first letter, and the search starts there. -/
def remainder : Subject := ⟨#['y', 'x'], 1, 2, 1, by decide, by decide, by decide⟩

/-- The tree of `(?=x)\A\Gx(?>\Z)(?!y)`. -/
def framed : Node :=
  .wrap {} (.capture (some 0) none) (.many {} .concatenate
    [.wrap {} .require (.leaf {} (.test (.one 'x'))), .leaf {} (.assertion .beginning),
      .leaf {} (.assertion .start), .leaf {} (.test (.one 'x')),
      .wrap {} .greedy (.leaf {} (.assertion .endZ)), .wrap {} .prevent (.leaf {} (.test (.one 'y')))])

theorem anchors_sound_framed :
    ∃ s t, framed.Matches remainder .invariant (fun m s => m.outcomes remainder .invariant s = []) s t ∧
      framed.leadingAnchors.contains .start = true ∧ Anchor.HoldsAt .start remainder s.pos ∧
      framed.trailingAnchors.contains .endZ = true ∧ Anchor.HoldsAt .endZ remainder t.pos := by
  have htest : 2 ∈ (Leaf.test (.one 'x')).landings remainder .invariant {} 1 := by decide +kernel
  have hbeginning : 1 ∈ (Leaf.assertion .beginning).landings remainder .invariant {} 1 := by decide +kernel
  have hstart : 1 ∈ (Leaf.assertion .start).landings remainder .invariant {} 1 := by decide +kernel
  have hend : 2 ∈ (Leaf.assertion .endZ).landings remainder .invariant {} 2 := by decide +kernel
  have hmatch : framed.Matches remainder .invariant (fun m s => m.outcomes remainder .invariant s = [])
      ⟨1, fun _ => []⟩ ⟨2, Groups.record (fun _ => []) 0 (1, 1)⟩ :=
    ⟨⟨2, fun _ => []⟩, ⟨⟨1, fun _ => []⟩, ⟨⟨2, fun _ => []⟩, ⟨htest, rfl⟩, rfl⟩,
      ⟨1, fun _ => []⟩, ⟨hbeginning, rfl⟩, ⟨1, fun _ => []⟩, ⟨hstart, rfl⟩, ⟨2, fun _ => []⟩, ⟨htest, rfl⟩,
      ⟨2, fun _ => []⟩, ⟨hend, rfl⟩, ⟨2, fun _ => []⟩, ⟨rfl, rfl⟩, rfl⟩, rfl, rfl⟩
  obtain ⟨hleading, htrailing⟩ := anchors_sound hmatch
  exact ⟨_, _, hmatch, by decide, hleading .start (by decide), by decide, htrailing .endZ (by decide)⟩

end Node

end PatternCompiler
