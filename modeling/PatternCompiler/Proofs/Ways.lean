import PatternCompiler.Proofs.Meaning

/-! All the ways in which any tree can match, the preferred one first.

`Node.ways` is `Node.outcomes` for every tree. A loop over a group makes rounds up to its
lesser bound and from there on prefers one more round, or none if it is lazy; a round that
did not move is the last one. References read again what a group captured last, balancing
groups take a capture back, and conditions choose a branch.

A tree that reads in two directions can make rounds without end, so the rounds of a loop
are counted: `ways` lists what is reached with at most `limit` of them, for any `limit`.
On the trees that `outcomes` is about both lists are the same, whatever the limit
(`ways_eq_outcomes`), and no way leaves the bounds of the text (`inside_of_mem_ways`). -/
namespace PatternCompiler

/-- Where a leaf can end, after the given captures. A reference to a group that has captured nothing
matches nothing, or in ECMAScript the empty text. -/
def Leaf.endings (x : Subject) (k : Culture) (o : Options) (g : Groups) (pos : Nat) : Leaf → List Nat
  | .ref n =>
    match (g n).getLast? with
    | some c =>
      if c.2 ≤ (x.ahead k o pos).length ∧ (x.ahead k o pos).take c.2 = x.captured k o c then
        [moved o pos c.2]
      else []
    | none => if o.ecmaScript then [pos] else []
  | l => l.landings x k o pos

/-- The ways of a loop that has made `done` rounds, the last one from `mark` on. -/
def loopFrom (body : Outcome → List Outcome) (lazy : Bool) (min max : Nat) :
    (limit done : Nat) → (mark : Option Nat) → Outcome → List Outcome
  | 0, _, _, _ => []
  | limit + 1, done, mark, s =>
    let more := (body s).flatMap (loopFrom body lazy min max limit (done + 1) (some s.pos))
    if done < min then more
    else if (max ≠ unbounded ∧ max ≤ done) ∨ mark = some s.pos then [s]
    else if lazy then s :: more
    else more ++ [s]

namespace Node

variable (x : Subject) (k : Culture) (limit : Nat)

mutual

/-- The ways to match from an outcome on. -/
def ways (s : Outcome) : Node → List Outcome
  | .leaf o l => (l.endings x k o s.groups s.pos).map (⟨·, s.groups⟩)
  | .wrap _ (.loop lazy min max) n => loopFrom (fun t => n.ways t) lazy min max (limit + 1) 0 none s
  | .wrap _ (.capture number uncapture) n =>
    (n.ways s).filterMap fun t =>
      (t.groups.close number uncapture s.pos t.pos).map fun g => ⟨t.pos, g⟩
  | .wrap _ .require n => ((n.ways s).take 1).map fun t => ⟨s.pos, t.groups⟩
  | .wrap _ .prevent n => if (n.ways s).isEmpty then [s] else []
  | .wrap _ .greedy n => (n.ways s).take 1
  | .many _ .alternate ns => waysOfAny s ns
  | .many _ .concatenate ns => waysOfAll s ns
  | .many _ .group ns => waysOfAll s ns
  | .many _ (.testref g) (yes :: no) => if s.groups g ≠ [] then yes.ways s else waysOfAll s no
  | .many _ .testgroup (condition :: yes :: no) =>
    match (condition.ways s).head? with
    | some t => yes.ways ⟨s.pos, t.groups⟩
    | none => waysOfAll s no
  | .many _ _ _ => [s]

/-- The ways to match one of the trees. -/
def waysOfAny (s : Outcome) : List Node → List Outcome
  | [] => []
  | n :: ns => n.ways s ++ waysOfAny s ns

/-- The ways to match the trees one after the other. -/
def waysOfAll (s : Outcome) : List Node → List Outcome
  | [] => [s]
  | n :: ns => (n.ways s).flatMap (waysOfAll · ns)

end

/-! ### The bounds of the text -/

variable {x : Subject} {k : Culture} {limit : Nat}

theorem inside_of_mem_landings {o : Options} {l : Leaf} {pos next : Nat} (h : x.Inside pos)
    (hl : next ∈ l.landings x k o pos) : x.Inside next := by
  cases l with
  | test t =>
    obtain ⟨hhead, hl⟩ := List.mem_ite_nil_right.mp hl
    rw [List.mem_singleton.mp hl]
    refine x.inside_moved k o h ?_
    cases hahead : x.ahead k o pos with
    | nil => simp [hahead] at hhead
    | cons c cs => simp
  | span lazy t min max =>
    obtain ⟨count, hcount, rfl⟩ := List.mem_map.mp hl
    refine x.inside_moved k o h (Nat.le_trans (mem_spanCounts hcount).2 ?_)
    exact (List.takeWhile_prefix _).length_le
  | multi cs =>
    obtain ⟨htake, hl⟩ := List.mem_ite_nil_right.mp hl
    rw [List.mem_singleton.mp hl]
    exact x.inside_moved k o h (length_le_of_take htake)
  | ref n => cases hl
  | assertion a => rwa [List.mem_singleton.mp (List.mem_ite_nil_right.mp hl).2]
  | nothing => cases hl
  | empty => rwa [List.mem_singleton.mp hl]

theorem inside_of_mem_endings {o : Options} {l : Leaf} {g : Groups} {pos next : Nat} (h : x.Inside pos)
    (hl : next ∈ l.endings x k o g pos) : x.Inside next := by
  cases l with
  | ref n =>
    rw [Leaf.endings] at hl
    split at hl
    · obtain ⟨hread, hl⟩ := List.mem_ite_nil_right.mp hl
      rw [List.mem_singleton.mp hl]
      exact x.inside_moved k o h hread.1
    · rwa [List.mem_singleton.mp (List.mem_ite_nil_right.mp hl).2]
  | _ =>
    simp only [Leaf.endings] at hl
    exact inside_of_mem_landings h hl

/-- A body that stays within bounds does so round by round. -/
theorem inside_of_mem_loopFrom {body : Outcome → List Outcome} {lazy : Bool} {min max : Nat}
    (hbody : ∀ s, x.Inside s.pos → ∀ t ∈ body s, x.Inside t.pos) {limit done : Nat} {mark : Option Nat}
    {s t : Outcome} (h : x.Inside s.pos) (ht : t ∈ loopFrom body lazy min max limit done mark s) :
    x.Inside t.pos := by
  induction limit generalizing done mark s with
  | zero => cases ht
  | succ limit ih =>
    have hmore : t ∈ (body s).flatMap (loopFrom body lazy min max limit (done + 1) (some s.pos)) →
        x.Inside t.pos := by
      intro ht
      obtain ⟨u, hu, ht⟩ := List.mem_flatMap.mp ht
      exact ih (hbody s h u hu) ht
    rw [loopFrom] at ht
    split at ht
    · exact hmore ht
    split at ht
    · rwa [List.mem_singleton.mp ht]
    split at ht
    · rcases List.mem_cons.mp ht with rfl | ht
      · exact h
      · exact hmore ht
    · rcases List.mem_append.mp ht with ht | ht
      · exact hmore ht
      · rwa [List.mem_singleton.mp ht]

theorem inside_of_mem_waysOfAny {ns : List Node}
    (ih : ∀ n ∈ ns, ∀ s, x.Inside s.pos → ∀ t ∈ n.ways x k limit s, x.Inside t.pos) {s t : Outcome}
    (h : x.Inside s.pos) (ht : t ∈ waysOfAny x k limit s ns) : x.Inside t.pos := by
  induction ns with
  | nil => cases ht
  | cons n ns ihn =>
    rw [waysOfAny] at ht
    rcases List.mem_append.mp ht with ht | ht
    · exact ih n (List.mem_cons_self ..) s h t ht
    · exact ihn (fun m hm => ih m (List.mem_cons_of_mem n hm)) ht

theorem inside_of_mem_waysOfAll {ns : List Node}
    (ih : ∀ n ∈ ns, ∀ s, x.Inside s.pos → ∀ t ∈ n.ways x k limit s, x.Inside t.pos) {s t : Outcome}
    (h : x.Inside s.pos) (ht : t ∈ waysOfAll x k limit s ns) : x.Inside t.pos := by
  induction ns generalizing s with
  | nil => rwa [List.mem_singleton.mp ht]
  | cons n ns ihn =>
    rw [waysOfAll] at ht
    obtain ⟨u, hu, ht⟩ := List.mem_flatMap.mp ht
    exact ihn (fun m hm => ih m (List.mem_cons_of_mem n hm)) (ih n (List.mem_cons_self ..) s h u hu) ht

/-- **No way leaves the bounds of the text.** -/
theorem inside_of_mem_ways {n : Node} {s t : Outcome} (h : x.Inside s.pos) (ht : t ∈ n.ways x k limit s) :
    x.Inside t.pos := by
  induction n generalizing s t with
  | leaf o l =>
    obtain ⟨pos, hpos, rfl⟩ := List.mem_map.mp ht
    exact inside_of_mem_endings h hpos
  | wrap o w n ih =>
    cases w with
    | loop lazy min max => exact inside_of_mem_loopFrom (fun s hs t ht => ih hs ht) h ht
    | capture number uncapture =>
      obtain ⟨u, hu, ht⟩ := List.mem_filterMap.mp ht
      obtain ⟨g, _, rfl⟩ := Option.map_eq_some_iff.mp ht
      exact ih (t := u) h hu
    | require =>
      obtain ⟨u, _, rfl⟩ := List.mem_map.mp ht
      exact h
    | prevent =>
      rw [ways] at ht
      split at ht
      · rwa [List.mem_singleton.mp ht]
      · cases ht
    | greedy => exact ih h (List.mem_of_mem_take ht)
  | many o m ns ih =>
    cases m with
    | alternate => exact inside_of_mem_waysOfAny (fun n hn s hs t ht => ih n hn hs ht) h ht
    | concatenate | group => exact inside_of_mem_waysOfAll (fun n hn s hs t ht => ih n hn hs ht) h ht
    | testref g =>
      match ns, ih, ht with
      | [], ih, ht => rwa [List.mem_singleton.mp ht]
      | yes :: no, ih, ht =>
        rw [ways] at ht
        split at ht
        · exact ih yes (List.mem_cons_self ..) h ht
        · exact inside_of_mem_waysOfAll
            (fun n hn s hs t ht => ih n (List.mem_cons_of_mem yes hn) hs ht) h ht
    | testgroup =>
      match ns, ih, ht with
      | [], ih, ht => rwa [List.mem_singleton.mp ht]
      | [condition], ih, ht => rwa [List.mem_singleton.mp ht]
      | condition :: yes :: no, ih, ht =>
        rw [ways] at ht
        split at ht
        · rename_i u _
          exact ih yes (by simp) (s := ⟨s.pos, u.groups⟩) h ht
        · exact inside_of_mem_waysOfAll (fun n hn s hs t ht => ih n (by simp [hn]) hs ht) h ht

/-! ### The trees without loops, references and conditions -/

theorem waysOfAny_eq_outcomes {ns : List Node}
    (ih : ∀ n ∈ ns, ∀ s, n.ways x k limit s = n.outcomes x k s) (s : Outcome) :
    waysOfAny x k limit s ns = outcomesOfAny x k s ns := by
  induction ns with
  | nil => rfl
  | cons n ns ihn =>
    rw [waysOfAny, outcomesOfAny, ih n (List.mem_cons_self ..),
      ihn fun m hm => ih m (List.mem_cons_of_mem n hm)]

theorem waysOfAll_eq_outcomes {ns : List Node}
    (ih : ∀ n ∈ ns, ∀ s, n.ways x k limit s = n.outcomes x k s) (s : Outcome) :
    waysOfAll x k limit s ns = outcomesOfAll x k s ns := by
  induction ns generalizing s with
  | nil => rfl
  | cons n ns ihn =>
    rw [waysOfAll, outcomesOfAll, ih n (List.mem_cons_self ..)]
    exact List.flatMap_congr fun t _ => ihn (fun m hm => ih m (List.mem_cons_of_mem n hm)) t

/-- **Where `outcomes` tells the meaning of a tree, `ways` tells the same one.** -/
theorem ways_eq_outcomes {n : Node} (hn : n.Everywhere Simple) (s : Outcome) :
    n.ways x k limit s = n.outcomes x k s := by
  induction n generalizing s with
  | leaf o l =>
    cases l with
    | ref n => exact absurd (everywhere_leaf.mp hn) id
    | _ => rfl
  | wrap o w n ih =>
    obtain ⟨hhere, hbody⟩ := everywhere_wrap.mp hn
    cases w with
    | loop lazy min max => exact absurd hhere id
    | capture number uncapture =>
      obtain ⟨hnumber, rfl⟩ := hhere
      obtain ⟨g, rfl⟩ := Option.isSome_iff_exists.mp hnumber
      rw [ways, outcomes, ih hbody]
      exact congrFun List.filterMap_eq_map' _
    | require | prevent | greedy => rw [ways, outcomes, ih hbody]
  | many o m ns ih =>
    obtain ⟨hhere, hns⟩ := everywhere_many.mp hn
    cases m with
    | alternate => exact waysOfAny_eq_outcomes (fun n hn => ih n hn (hns n hn)) s
    | concatenate | group => exact waysOfAll_eq_outcomes (fun n hn => ih n hn (hns n hn)) s
    | testref | testgroup => exact absurd hhere id

end Node

end PatternCompiler
