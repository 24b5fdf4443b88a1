import PatternCompiler.Pattern.Reduce
import PatternCompiler.Proofs.ClassRanges
import PatternCompiler.Proofs.Ways

/-! Reduction keeps the meaning of a tree.

`Node.reduce` flattens, drops, merges and renames, and each of these steps leaves the list
of ways alone, with its order: the alternatives of a nested alternation are tried where it
stands, a sequence goes on from each way of what is before it, however the parts are
grouped, two literals of the same options read the same text as their concatenation in
that direction, and a class of one character accepts what a test against it accepts.
`reduce_ways` puts them together. -/
namespace PatternCompiler

/-! ### Tests -/

theorem Node.simplifyTest_accepts (t : CharTest CharClass) : (Node.simplifyTest t).accepts = t.accepts := by
  funext c
  cases t with
  | one d => rfl
  | notone d => rfl
  | set k =>
    rw [Node.simplifyTest]
    cases hone : k.singleton? with
    | some d =>
      have := CharClass.contains_of_singleton? (c := c) hone
      rw [Bool.eq_iff_iff, CharTest.accepts, CharTest.accepts, this, beq_iff_eq]
    | none =>
      cases hmissing : k.missing? with
      | some d =>
        have := CharClass.contains_of_missing? (c := c) hmissing
        rw [Bool.eq_iff_iff, CharTest.accepts, CharTest.accepts, this, bne_iff_ne]
      | none => rfl

namespace Node

variable {x : Subject} {k : Culture} {limit : Nat}

/-! ### Alternations -/

theorem waysOfAny_append (s : Outcome) (ns ms : List Node) :
    waysOfAny x k limit s (ns ++ ms) = waysOfAny x k limit s ns ++ waysOfAny x k limit s ms := by
  induction ns with
  | nil => rfl
  | cons n ns ih => rw [List.cons_append, waysOfAny, waysOfAny, ih, List.append_assoc]

theorem waysOfAny_alternativesOf {ns : List Node} {s : Outcome}
    (ih : ∀ n ∈ ns, waysOfAny x k limit s n.alternatives = n.ways x k limit s) :
    waysOfAny x k limit s (alternativesOf ns) = waysOfAny x k limit s ns := by
  induction ns with
  | nil => rfl
  | cons n ns ihn =>
    rw [alternativesOf, waysOfAny_append, waysOfAny, ih n (List.mem_cons_self ..),
      ihn fun m hm => ih m (List.mem_cons_of_mem n hm)]

/-- The alternatives of a tree are tried in the order in which the tree tries them. -/
theorem waysOfAny_alternatives (n : Node) (s : Outcome) :
    waysOfAny x k limit s n.alternatives = n.ways x k limit s := by
  have hself (n : Node) : waysOfAny x k limit s [n] = n.ways x k limit s := List.append_nil _
  induction n with
  | leaf o l =>
    cases l with
    | nothing => rfl
    | _ => exact hself _
  | wrap o w n ih => exact hself _
  | many o m ns ih =>
    cases m with
    | alternate => exact waysOfAny_alternativesOf ih
    | _ => exact hself _

/-! ### Sequences -/

theorem waysOfAll_singleton (n : Node) (s : Outcome) : waysOfAll x k limit s [n] = n.ways x k limit s :=
  List.flatMap_singleton' _

theorem waysOfAll_append (s : Outcome) (ns ms : List Node) :
    waysOfAll x k limit s (ns ++ ms) = (waysOfAll x k limit s ns).flatMap (waysOfAll x k limit · ms) := by
  induction ns generalizing s with
  | nil => exact (List.flatMap_singleton ..).symm
  | cons n ns ih =>
    rw [List.cons_append, waysOfAll, waysOfAll, List.flatMap_assoc]
    exact List.flatMap_congr fun t _ => ih t

theorem waysOfAll_partsOf {rightToLeft : Bool} {ns : List Node}
    (ih : ∀ n ∈ ns, ∀ s, waysOfAll x k limit s (n.parts rightToLeft) = n.ways x k limit s) (s : Outcome) :
    waysOfAll x k limit s (partsOf rightToLeft ns) = waysOfAll x k limit s ns := by
  induction ns generalizing s with
  | nil => rfl
  | cons n ns ihn =>
    rw [partsOf, waysOfAll_append, waysOfAll, ih n (List.mem_cons_self ..)]
    exact List.flatMap_congr fun t _ => ihn (fun m hm => ih m (List.mem_cons_of_mem n hm)) t

/-- The parts of a tree, one after the other, are the tree. -/
theorem waysOfAll_parts (rightToLeft : Bool) (n : Node) (s : Outcome) :
    waysOfAll x k limit s (n.parts rightToLeft) = n.ways x k limit s := by
  induction n generalizing s with
  | leaf o l =>
    cases l with
    | empty => rfl
    | _ => exact waysOfAll_singleton _ s
  | wrap o w n ih => exact waysOfAll_singleton _ s
  | many o m ns ih =>
    cases m with
    | concatenate =>
      rw [parts]
      split
      · exact waysOfAll_partsOf ih s
      · exact waysOfAll_singleton _ s
    | _ => exact waysOfAll_singleton _ s

/-! ### Literals -/

/-- The characters of a literal in the order in which they are read. -/
def facing (o : Options) (cs : List Char) : List Char := if o.rightToLeft then cs.reverse else cs

@[simp] theorem facing_length (o : Options) (cs : List Char) : (facing o cs).length = cs.length := by
  unfold facing
  split
  · exact List.length_reverse
  · rfl

/-- The text of two literals, the first of which is read first. -/
def adjoined (o : Options) (a b : List Char) : List Char := if o.rightToLeft then b ++ a else a ++ b

theorem adjoined_length (o : Options) (a b : List Char) : (adjoined o a b).length = a.length + b.length := by
  unfold adjoined
  split
  · rw [List.length_append, Nat.add_comm]
  · exact List.length_append

theorem facing_adjoined (o : Options) (a b : List Char) :
    facing o (adjoined o a b) = facing o a ++ facing o b := by
  by_cases hdir : o.rightToLeft <;> simp [facing, adjoined, hdir]

/-- A literal has one way at most: past its characters. -/
theorem ways_of_literal? {n : Node} {cs : List Char} (h : n.literal? = some cs) (s : Outcome) :
    n.ways x k limit s =
      if (x.ahead k n.options s.pos).take cs.length = facing n.options cs then
        [⟨moved n.options s.pos cs.length, s.groups⟩]
      else [] := by
  obtain ⟨o, ho⟩ : ∃ o, n.options = o := ⟨_, rfl⟩
  rcases literal?_cases h with ⟨c, hn, rfl⟩ | hn
  · rw [ho] at hn ⊢
    have hread : (x.ahead k o s.pos).head?.any (CharTest.accepts (.one c)) = true ↔
        (x.ahead k o s.pos).take 1 = facing o [c] := by
      cases x.ahead k o s.pos <;> simp [CharTest.accepts, facing]
    rw [hn]
    show List.map _ (if _ then _ else _) = _
    rw [apply_ite (List.map _)]
    exact if_congr hread rfl rfl
  · rw [ho] at hn ⊢
    rw [hn]
    show List.map _ (if _ then _ else _) = _
    rw [apply_ite (List.map _)]
    rfl

/-- A text begins with two literals if it begins with the one and goes on with the other. -/
theorem take_adjoined {o : Options} {a b text : List Char} :
    text.take (adjoined o a b).length = facing o (adjoined o a b) ↔
      text.take a.length = facing o a ∧ (text.drop a.length).take b.length = facing o b := by
  rw [adjoined_length, facing_adjoined, List.take_add]
  constructor
  · intro h
    have hlength := congrArg List.length h
    simp only [List.length_append, List.length_take, List.length_drop, facing_length] at hlength
    exact List.append_inj h (by rw [List.length_take, facing_length]; omega)
  · rintro ⟨ha, hb⟩
    rw [ha, hb]

/-- One literal after another is one literal. -/
theorem ways_of_absorb? {n next m : Node} (h : n.absorb? next = some m) {s : Outcome} (hs : x.Inside s.pos) :
    m.ways x k limit s = (n.ways x k limit s).flatMap (next.ways x k limit ·) := by
  unfold absorb? at h
  split at h
  · rename_i hoptions
    split at h
    · rename_i a b ha hb
      cases h
      have hboth : literal? (.leaf n.options (.multi (adjoined n.options a b))) = some (adjoined n.options a b) := rfl
      rw [← adjoined, ways_of_literal? hboth, ways_of_literal? ha]
      by_cases hread : (x.ahead k n.options s.pos).take a.length = facing n.options a
      · have hahead := x.ahead_moved k n.options hs (length_le_of_take hread)
        rw [if_pos hread, List.flatMap_singleton, ways_of_literal? hb, ← hoptions, hahead, moved_moved,
          ← adjoined_length]
        exact if_congr (take_adjoined.trans (and_iff_right hread)) rfl rfl
      · rw [if_neg hread]
        exact if_neg fun hboth => hread (take_adjoined.mp hboth).1
    · cases h
  · cases h

theorem waysOfAll_mergeFrom (n : Node) (ns : List Node) {s : Outcome} (hs : x.Inside s.pos) :
    waysOfAll x k limit s (mergeFrom n ns) = waysOfAll x k limit s (n :: ns) := by
  induction ns generalizing n s with
  | nil => rfl
  | cons next rest ih =>
    rw [mergeFrom]
    split
    · rename_i m habsorb
      rw [ih m hs, waysOfAll, waysOfAll, ways_of_absorb? habsorb hs, List.flatMap_assoc]
      rfl
    · rw [waysOfAll, waysOfAll]
      exact List.flatMap_congr fun t ht => ih next (inside_of_mem_ways hs ht)

theorem waysOfAll_mergeLiterals (ns : List Node) {s : Outcome} (hs : x.Inside s.pos) :
    waysOfAll x k limit s (mergeLiterals ns) = waysOfAll x k limit s ns := by
  cases ns with
  | nil => rfl
  | cons n ns => exact waysOfAll_mergeFrom n ns hs

/-! ### Constructs of one part, or of none -/

theorem ways_strip_alternate (o : Options) (ns : List Node) (s : Outcome) :
    (strip o .alternate .nothing ns).ways x k limit s = waysOfAny x k limit s ns := by
  match ns with
  | [] => rfl
  | [n] => exact (List.append_nil _).symm
  | _ :: _ :: _ => rfl

theorem ways_strip_concatenate (o : Options) (ns : List Node) (s : Outcome) :
    (strip o .concatenate .empty ns).ways x k limit s = waysOfAll x k limit s ns := by
  match ns with
  | [] => rfl
  | [n] => exact (waysOfAll_singleton n s).symm
  | _ :: _ :: _ => rfl

theorem ways_ungroup (n : Node) (s : Outcome) : n.ungroup.ways x k limit s = n.ways x k limit s := by
  fun_induction ungroup n with
  | case1 o n ih => rw [ih, ways, waysOfAll_singleton]
  | case2 n _ => rfl

/-! ### All trees -/

/-- **Reduction keeps the meaning of a tree**: the ways to match stay the same and in the same order,
from every position of every text and after any captures. -/
theorem reduce_ways (n : Node) (x : Subject) (k : Culture) (limit : Nat) (s : Outcome)
    (hs : x.Inside s.pos) : n.reduce.ways x k limit s = n.ways x k limit s := by
  match n with
  | .leaf o l =>
    cases l with
    | test t => simp only [reduce, ways, Leaf.endings, Leaf.landings, simplifyTest_accepts]
    | span lazy t min max =>
      simp only [reduce, ways, Leaf.endings, Leaf.landings, simplifyTest_accepts]
    | _ => rfl
  | .wrap o w n => rfl
  | .many o m ns =>
    cases m with
    | alternate =>
      rw [reduce, ways_strip_alternate, waysOfAny_alternativesOf fun n _ => waysOfAny_alternatives n s]
      rfl
    | concatenate =>
      rw [reduce, ways_strip_concatenate, waysOfAll_mergeLiterals _ hs,
        waysOfAll_partsOf (fun n _ => waysOfAll_parts _ n) s]
      rfl
    | group => exact ways_ungroup _ s
    | testref g => rfl
    | testgroup => rfl

/-- The text `ab` from right to left, in a sequence within a sequence. -/
def backwards : Node :=
  let o : Options := { rightToLeft := true }
  .many o .concatenate [.leaf o (.test (.one 'b')),
    .many o .concatenate [.leaf o .empty, .leaf o (.test (.one 'a'))]]

theorem reduce_ways_backwards :
    ∃ x : Subject, x.text = #['a', 'b'] ∧ x.Inside 2 ∧
      backwards.reduce = .leaf { rightToLeft := true } (.multi ['a', 'b']) ∧
      backwards.reduce.ways x .invariant 0 ⟨2, fun _ => []⟩ = backwards.ways x .invariant 0 ⟨2, fun _ => []⟩ ∧
      (backwards.ways x .invariant 0 ⟨2, fun _ => []⟩).map (·.pos) = [0] := by
  let x : Subject := ⟨#['a', 'b'], 0, 2, 0, by decide, by decide, by decide⟩
  have hinside : x.Inside 2 := by decide
  exact ⟨x, rfl, hinside, by rfl, reduce_ways backwards x .invariant 0 _ hinside, by decide +kernel⟩

end Node

end PatternCompiler
