import PatternCompiler.Proofs.Histories

/-! What a pattern matches, as a relation.

`Node.Matches x k fails n s t` says that the tree `n` can match from the outcome `s` on and
end with the outcome `t`, in whichever way and without preference. Unlike `outcomes` it
tells the meaning of every tree: loops over groups make some number of rounds within their
bounds, references read what a group captured last, balancing groups take a capture back,
and conditions ask for a group or look ahead. Lookarounds and conditions do not move.

Where a negative lookaround holds depends on the order of outcomes as soon as there is an
atomic group in it, so `fails` is left open: it says where a tree has no match. With what
`outcomes` says about that, every outcome is a match (`matches_of_mem_outcomes`). -/
namespace PatternCompiler

/-- As many steps of a relation. -/
inductive Rounds {α : Type} (R : α → α → Prop) : Nat → α → α → Prop where
  | none (a : α) : Rounds R 0 a a
  | more {n : Nat} {a b c : α} (first : R a b) (rest : Rounds R n b c) : Rounds R (n + 1) a c

/-! ### Groups -/

namespace Groups

/-- What a group leaves that was entered at `a` and is left at `b`. One that takes a capture back
needs one, and captures what is between it and itself. -/
def close (g : Groups) (number uncapture : Option Nat) (a b : Nat) : Option Groups :=
  match uncapture with
  | none => some (number.elim g fun n => g.record n (interval a b))
  | some u => (g u).getLast?.map fun c =>
    let (first, last) := Runner.between (min a b, max a b) (c.1, c.1 + c.2)
    number.elim (g.forget u) fun n => (g.forget u).record n (first, last - first)

end Groups

/-! ### Leaves -/

/-- The characters of a capture as the options read them. -/
def Subject.captured (x : Subject) (k : Culture) (o : Options) (c : Nat × Nat) : List Char :=
  let cs := (x.text.toList.drop c.1).take c.2
  let cs := if o.rightToLeft then cs.reverse else cs
  if o.ignoreCase then k.lowerText cs else cs

/-- A leaf can match from one position to another. A reference to a group that has captured nothing
matches nothing, or in ECMAScript the empty text. -/
def Leaf.Reaches (x : Subject) (k : Culture) (o : Options) (g : Groups) (pos next : Nat) : Leaf → Prop
  | .ref n =>
    match (g n).getLast? with
    | some c => (x.ahead k o pos).take c.2 = x.captured k o c ∧ next = moved o pos c.2
    | none => o.ecmaScript = true ∧ next = pos
  | l => next ∈ l.landings x k o pos

/-! ### Trees -/

namespace Node

variable (x : Subject) (k : Culture) (fails : Node → Outcome → Prop)

mutual

/-- The tree can match from one outcome to another. -/
def Matches : Node → Outcome → Outcome → Prop
  | .leaf o l => fun s t => l.Reaches x k o s.groups s.pos t.pos ∧ t.groups = s.groups
  | .wrap _ (.loop _ min max) n => fun s t =>
    ∃ rounds, min ≤ rounds ∧ (rounds ≤ max ∨ max = unbounded) ∧ Rounds n.Matches rounds s t
  | .wrap _ (.capture number uncapture) n => fun s t =>
    ∃ u, n.Matches s u ∧ t.pos = u.pos ∧
      u.groups.close number uncapture s.pos u.pos = some t.groups
  | .wrap _ .require n => fun s t => ∃ u, n.Matches s u ∧ t = ⟨s.pos, u.groups⟩
  | .wrap _ .prevent n => fun s t => fails n s ∧ t = s
  | .wrap _ .greedy n => n.Matches
  | .many _ .alternate ns => MatchesAny ns
  | .many _ .concatenate ns => MatchesAll ns
  | .many _ .group ns => MatchesAll ns
  | .many _ (.testref g) (yes :: no) => fun s t =>
    (s.groups g ≠ [] ∧ yes.Matches s t) ∨ (s.groups g = [] ∧ MatchesAll no s t)
  | .many _ .testgroup (condition :: yes :: no) => fun s t =>
    (∃ u, condition.Matches s u ∧ yes.Matches ⟨s.pos, u.groups⟩ t) ∨
      (fails condition s ∧ MatchesAll no s t)
  | .many _ _ _ => Eq

/-- One of the trees can match. -/
def MatchesAny : List Node → Outcome → Outcome → Prop
  | [] => fun _ _ => False
  | n :: ns => fun s t => n.Matches s t ∨ MatchesAny ns s t

/-- The trees can match one after the other. -/
def MatchesAll : List Node → Outcome → Outcome → Prop
  | [] => Eq
  | n :: ns => fun s t => ∃ u, n.Matches s u ∧ MatchesAll ns u t

end

variable {x : Subject} {k : Culture} {fails : Node → Outcome → Prop}

theorem matchesAny_of_mem_outcomes {ns : List Node} {s t : Outcome}
    (ih : ∀ n ∈ ns, ∀ s t, t ∈ n.outcomes x k s → n.Matches x k fails s t)
    (h : t ∈ outcomesOfAny x k s ns) : MatchesAny x k fails ns s t := by
  induction ns with
  | nil => cases h
  | cons n ns ihn =>
    rw [outcomesOfAny] at h
    rcases List.mem_append.mp h with h | h
    · exact .inl (ih n (List.mem_cons_self ..) s t h)
    · exact .inr (ihn (fun m hm => ih m (List.mem_cons_of_mem n hm)) h)

theorem matchesAll_of_mem_outcomes {ns : List Node} {s t : Outcome}
    (ih : ∀ n ∈ ns, ∀ s t, t ∈ n.outcomes x k s → n.Matches x k fails s t)
    (h : t ∈ outcomesOfAll x k s ns) : MatchesAll x k fails ns s t := by
  induction ns generalizing s with
  | nil => exact (List.mem_singleton.mp h).symm
  | cons n ns ihn =>
    rw [outcomesOfAll] at h
    obtain ⟨u, hu, ht⟩ := List.mem_flatMap.mp h
    exact ⟨u, ih n (List.mem_cons_self ..) s u hu, ihn (fun m hm => ih m (List.mem_cons_of_mem n hm)) ht⟩

/-- Every outcome is a match. -/
theorem matches_of_mem_outcomes (n : Node) {s t : Outcome} (h : t ∈ n.outcomes x k s) :
    n.Matches x k (fun m s => m.outcomes x k s = []) s t := by
  induction n generalizing s t with
  | leaf o l =>
    obtain ⟨pos, hpos, rfl⟩ := List.mem_map.mp h
    refine ⟨?_, rfl⟩
    cases l with
    | ref n => cases hpos
    | _ => exact hpos
  | wrap o w n ih =>
    cases w with
    | loop lazy min max => cases h
    | capture number uncapture =>
      match number, uncapture, h with
      | some g, none, h =>
        obtain ⟨u, hu, rfl⟩ := List.mem_map.mp h
        exact ⟨u, ih hu, rfl, rfl⟩
    | require =>
      obtain ⟨u, hu, rfl⟩ := List.mem_map.mp h
      exact ⟨u, ih (List.mem_of_mem_take hu), rfl⟩
    | prevent =>
      rw [outcomes] at h
      split at h
      · exact ⟨List.isEmpty_iff.mp ‹_›, List.mem_singleton.mp h⟩
      · cases h
    | greedy => exact ih (List.mem_of_mem_take h)
  | many o m ns ih =>
    cases m with
    | alternate => exact matchesAny_of_mem_outcomes (fun n hn s t => ih n hn) h
    | concatenate | group => exact matchesAll_of_mem_outcomes (fun n hn s t => ih n hn) h
    | testref g => cases h
    | testgroup => cases h

end Node

end PatternCompiler
