import PatternCompiler.Proofs.Mirror

/-! Reading from right to left is the mirror image of reading from left to right.

A pattern is read twice, once for each direction. Both readers are always at the same place.
Inside of a lookaround they hold the same, and outside of lookarounds what they hold is the
same up to the direction (`Reader.Faces`). A round leads both to the same problem or keeps it
so (`Reader.step_faces`). The survey of groups does not look at the direction at all.

`Pattern.parse_mirrored` is what follows for a whole pattern. -/
namespace PatternCompiler

/-! ### What does not depend on the direction -/

namespace Options

theorem set_turn {flag : Options} (hflag : flag.rightToLeft = false) (o : Options) (on d : Bool) :
    (o.turn d).set flag on = (o.set flag on).turn d := by
  cases on <;> cases d <;> simp [set, union, difference, zipWith, turn, hflag]

end Options

namespace Cursor

theorem flagsFrom_turn (d : Bool) (cs : List Char) (o : Options) (on : Bool) (pos : Nat) :
    flagsFrom (o.turn d) on pos cs = ((flagsFrom o on pos cs).1.turn d, (flagsFrom o on pos cs).2) := by
  induction cs generalizing o on pos with
  | nil => rfl
  | cons ch rest ih =>
    simp only [flagsFrom]
    by_cases hminus : ch = '-'
    · simp only [if_pos hminus, ih]
    by_cases hplus : ch = '+'
    · simp only [if_neg hminus, if_pos hplus, ih]
    cases hflag : Options.ofInlineFlag? ch with
    | none => simp only [if_neg hminus, if_neg hplus]
    | some flag =>
      simp only [if_neg hminus, if_neg hplus, Options.set_turn (Options.ofInlineFlag?_rightToLeft hflag), ih]

theorem skipBlanks_turn (c : Cursor) (o : Options) (d : Bool) : c.skipBlanks (o.turn d) = c.skipBlanks o := rfl

theorem literalRun_turn (c : Cursor) (o : Options) (d : Bool) : c.literalRun (o.turn d) = c.literalRun o := rfl

theorem backslash_turn (e : Setting) (c : Cursor) (o : Options) (d : Bool) :
    c.backslash e (o.turn d) = c.backslash e o := rfl

end Cursor

/-- A group that begins in the given direction; a lookaround has its own. -/
def Opening.turn (p : Opening) (rightToLeft : Bool) : Opening :=
  if p.kind.any GroupKind.isLookaround then p else { p with options := p.options.turn rightToLeft }

namespace Cursor

theorem condition_turn (t : GroupTable) (o : Options) (c : Cursor) (d : Bool) :
    condition t (o.turn d) c = (condition t o c).map (·.turn d) := by
  unfold condition
  cases conditionReference? t c.skipOne with
  | error p => rfl
  | ok found =>
    cases found with
    | some found => rfl
    | none => cases c.checkCondition <;> rfl

theorem flagGroup_turn (o : Options) (c : Cursor) (d : Bool) :
    flagGroup (o.turn d) c = (flagGroup o c).map (·.turn d) := by
  unfold flagGroup flags
  simp only [flagsFrom_turn]
  split <;> rfl

theorem markedOpening_turn (t : GroupTable) (o : Options) (c : Cursor) (d : Bool) :
    markedOpening t (o.turn d) c = (markedOpening t o c).map (·.turn d) := by
  have hnamed (close : Char) (c : Cursor) : (captureName t close c >>= fun a =>
      .ok { kind := some a.1, options := o.turn d, cursor := a.2 } : Except Problem Opening) =
      (captureName t close c >>= fun a =>
        .ok { kind := some a.1, options := o, cursor := a.2 } : Except Problem Opening).map (·.turn d) := by
    cases h : captureName t close c with
    | error p => rfl
    | ok a =>
      obtain ⟨kind, c'⟩ := a
      simp [bind, Except.bind, Except.map, Opening.turn, captureName_isLookaround h]
  unfold markedOpening
  dsimp only
  split
  · rfl
  · rfl
  · rfl
  · rfl
  · rfl
  · split
    · rfl
    · rfl
    · rfl
    · exact hnamed _ _
  · split
    · rfl
    · exact hnamed _ _
  · exact condition_turn t o c d
  · exact flagGroup_turn o c d

theorem opening?_turn (t : GroupTable) (o : Options) (c : Cursor) (d : Bool) :
    opening? t (o.turn d) c = (opening? t o c).map (Option.map (·.turn d)) := by
  unfold opening?
  split
  · rfl
  · rename_i rest _ _
    rw [markedOpening_turn]
    cases markedOpening t o ⟨c.pos + 1, rest⟩ <;> rfl
  · rfl

end Cursor

/-! ### The survey -/

namespace Survey

/-- The survey under options of the given direction. -/
def turn (s : Survey) (rightToLeft : Bool) : Survey :=
  { s with options := s.options.turn rightToLeft, saved := s.saved.map (·.turn rightToLeft) }

theorem restore_turn (s : Survey) (d : Bool) : (s.turn d).restore = s.restore.turn d := by
  obtain ⟨c, o, saved, autocap, ignoreNext, t⟩ := s
  cases saved <;> rfl

theorem named_turn (s : Survey) (offset : Nat) (c : Cursor) (d : Bool) :
    (s.turn d).named offset c = (s.named offset c).map (·.turn d) := by
  unfold named
  split
  · rfl
  · split
    · split
      · cases c.decimal <;> rfl
      · rfl
    · rfl

theorem marked_turn (s : Survey) (offset : Nat) (c : Cursor) (d : Bool) :
    (s.turn d).marked offset c = (s.marked offset c).map (·.turn d) := by
  unfold marked
  split
  · exact named_turn { s with ignoreNext := false } offset _ d
  · exact named_turn { s with ignoreNext := false } offset _ d
  · have hflags : c.flags (s.turn d).options = ((c.flags s.options).1.turn d, (c.flags s.options).2) :=
      Cursor.flagsFrom_turn d c.rest s.options true c.pos
    simp only [hflags]
    split
    · simp [turn, Except.map]
    · rfl
    · rfl

theorem opened_turn (s : Survey) (offset : Nat) (c : Cursor) (d : Bool) :
    (s.turn d).opened offset c = (s.opened offset c).map (·.turn d) := by
  unfold opened
  dsimp only
  split
  · exact marked_turn { s with saved := s.options :: s.saved } offset _ d
  · show (if s.options.explicitCapture || s.ignoreNext then _ else _) = Except.map _ (if _ then _ else _)
    split <;> rfl

theorem construct_turn (s : Survey) (ch : Char) (c : Cursor) (d : Bool) :
    (s.turn d).construct ch c = (s.construct ch c).map (·.turn d) := by
  have hblanks : (s.turn d).cursor.skipBlanks (s.turn d).options = s.cursor.skipBlanks s.options := rfl
  have hspaces : (s.turn d).options.ignoreWhitespace = s.options.ignoreWhitespace := rfl
  unfold construct
  rw [hblanks, hspaces, restore_turn]
  split
  · rfl
  split
  · split
    · cases s.cursor.skipBlanks s.options <;> rfl
    · rfl
  split
  · cases c.skipBracket <;> rfl
  split
  · rfl
  split
  · split
    · cases s.cursor.skipBlanks s.options <;> rfl
    · exact opened_turn s s.cursor.pos c d
  · rfl

theorem run_turn (rounds : Nat) (s : Survey) (d : Bool) :
    run rounds (s.turn d) = (run rounds s).map (·.turn d) := by
  induction rounds generalizing s with
  | zero => rfl
  | succ rounds ih =>
    have hcursor : (s.turn d).cursor = s.cursor := rfl
    rw [run, run, hcursor]
    cases s.cursor.rest with
    | nil => rfl
    | cons ch rest =>
      simp only [construct_turn]
      cases s.construct ch ⟨s.cursor.pos + 1, rest⟩ with
      | error p => rfl
      | ok s' => exact ih s'

end Survey

theorem GroupTable.ofPattern_turn (pattern : List Char) (o : Options) (d : Bool) :
    ofPattern pattern (o.turn d) = ofPattern pattern o := by
  have hrun := Survey.run_turn pattern.length (Survey.start pattern o) d
  unfold ofPattern
  rw [show Survey.start pattern (o.turn d) = (Survey.start pattern o).turn d from rfl, hrun]
  cases Survey.run pattern.length (Survey.start pattern o) <;> rfl

/-! ### Two readers -/

/-- Two computations end with the same problem, or with results in the given relation. -/
inductive Agree {α β : Type} (R : α → β → Prop) : Except Problem α → Except Problem β → Prop where
  | error (p : Problem) : Agree R (.error p) (.error p)
  | ok {a : α} {b : β} (h : R a b) : Agree R (.ok a) (.ok b)

namespace Agree

variable {α β γ δ : Type} {R : α → β → Prop} {S : γ → δ → Prop} {x : Except Problem α} {y : Except Problem β}
  {f : α → Except Problem γ} {g : β → Except Problem δ}

theorem bind (h : Agree R x y) (hnext : ∀ a b, x = .ok a → R a b → Agree S (f a) (g b)) :
    Agree S (x >>= f) (y >>= g) := by
  cases h with
  | error p => exact .error p
  | ok h => exact hnext _ _ rfl h

/-- Both go on from the same result. -/
theorem bind_same {z : Except Problem α} {g : α → Except Problem δ}
    (hnext : ∀ a, z = .ok a → Agree S (f a) (g a)) : Agree S (z >>= f) (z >>= g) := by
  cases z with
  | error p => exact .error p
  | ok a => exact hnext a rfl

theorem mono {R' : α → β → Prop} (h : Agree R x y) (himp : ∀ a b, R a b → R' a b) : Agree R' x y := by
  cases h with
  | error p => exact .error p
  | ok h => exact .ok (himp _ _ h)

end Agree

/-! Inside of a lookaround the two readers hold the same, outside the one on the left reads from left to right
and the one on the right from right to left. -/

/-- The options of two readers at the same place. -/
def Options.Faces : (inside : Bool) → Options → Options → Prop
  | true, o, o' => o' = o
  | false, o, o' => o.rightToLeft = false ∧ o' = o.turn true

/-- Trees that two readers have read at the same place. -/
def Node.Faces : (inside : Bool) → Node → Node → Prop
  | true, n, n' => n' = n
  | false, n, n' => n.Oriented false ∧ n'.Oriented true ∧ n.straighten false = n'.straighten true

theorem Options.Faces.exists_turn {inside : Bool} {o o' : Options} (h : o.Faces inside o') : ∃ d, o' = o.turn d := by
  cases inside with
  | true => exact ⟨o.rightToLeft, h.trans (turn_self rfl).symm⟩
  | false => exact ⟨true, h.2⟩

namespace Node

variable {inside : Bool} {n n' : Node} {ns ns' : List Node} {o o' : Options}

theorem Faces.leaf (h : o.Faces inside o') (l : Leaf) : (Node.leaf o l).Faces inside (.leaf o' l) := by
  cases inside with
  | true => exact congrArg (Node.leaf · l) h
  | false =>
    obtain ⟨ho, rfl⟩ := h
    exact ⟨fun _ => ho, fun _ => rfl, by simp⟩

theorem eq_of_forall₂_faces (h : List.Forall₂ (Faces true) ns ns') : ns' = ns := by
  induction h with
  | nil => rfl
  | cons hn _ ih => rw [hn, ih]

theorem left_of_forall₂_faces (h : List.Forall₂ (Faces false) ns ns') : ∀ n ∈ ns, n.Oriented false := by
  induction h with
  | nil => exact List.forall_mem_nil _
  | cons hn _ ih => exact List.forall_mem_cons.mpr ⟨hn.1, ih⟩

theorem right_of_forall₂_faces (h : List.Forall₂ (Faces false) ns ns') : ∀ n ∈ ns', n.Oriented true := by
  induction h with
  | nil => exact List.forall_mem_nil _
  | cons hn _ ih => exact List.forall_mem_cons.mpr ⟨hn.2.1, ih⟩

theorem map_straighten_eq (h : List.Forall₂ (Faces false) ns ns') :
    ns.map (straighten false) = ns'.map (straighten true) := by
  induction h with
  | nil => rfl
  | cons hn _ ih => rw [List.map_cons, List.map_cons, hn.2.2, ih]

/-- Trees that face each other are mirror images without their direction. -/
theorem forget_eq_mirror (h : n.straighten false = n'.straighten true) : n'.forget = n.forget.mirror := by
  have heq : n.forget = n'.forget.mirror := h
  rw [heq, mirror_mirror]

theorem Faces.wrap {w : Wrap} (hw : w.isLookaround = false) (ho : o.Faces inside o') (hn : n.Faces inside n') :
    (Node.wrap o w n).Faces inside (.wrap o' w n') := by
  cases inside with
  | true => exact congr (congrArg (Node.wrap · w) ho) hn
  | false =>
    obtain ⟨_, rfl⟩ := ho
    obtain ⟨hn, hn', heq⟩ := hn
    refine ⟨oriented_wrap.mpr ?_, oriented_wrap.mpr ?_, ?_⟩
    · rwa [hw]
    · rwa [hw]
    · rw [straighten_wrap _ _ hw, straighten_wrap _ _ hw, heq, Options.turn_turn]

theorem Faces.many {kind : Many} (hkind : kind ≠ .concatenate) (ho : o.Faces inside o')
    (hns : List.Forall₂ (Faces inside) ns ns') : (Node.many o kind ns).Faces inside (.many o' kind ns') := by
  cases inside with
  | true => exact congr (congrArg (Node.many · kind) ho) (eq_of_forall₂_faces hns)
  | false =>
    obtain ⟨_, rfl⟩ := ho
    refine ⟨oriented_many.mpr ⟨fun h => absurd h hkind, ?_⟩, oriented_many.mpr ⟨fun h => absurd h hkind, ?_⟩, ?_⟩
    · exact left_of_forall₂_faces hns
    · exact right_of_forall₂_faces hns
    · rw [straighten_many _ _ hkind, straighten_many _ _ hkind, map_straighten_eq hns, Options.turn_turn]

theorem Faces.reduce (h : n.Faces inside n') : n.reduce.Faces inside n'.reduce := by
  cases inside with
  | true => exact congrArg Node.reduce h
  | false =>
    obtain ⟨hn, hn', heq⟩ := h
    refine ⟨(oriented_robust _).reduce n hn, (oriented_robust _).reduce n' hn', ?_⟩
    rw [reduce_straighten n hn, reduce_straighten n' hn', heq]

theorem Faces.quantify (h : n.Faces inside n') (lazy : Bool) (min max : Nat) :
    (n.quantify lazy min max).Faces inside (n'.quantify lazy min max) := by
  cases inside with
  | true => exact congrArg (·.quantify lazy min max) h
  | false =>
    obtain ⟨hn, hn', heq⟩ := h
    refine ⟨(oriented_robust _).quantify hn lazy min max, (oriented_robust _).quantify hn' lazy min max, ?_⟩
    rw [quantify_straighten hn, quantify_straighten hn', heq]

end Node

/-! ### Open groups -/

/-- A group that two readers have opened at the same place. -/
structure Frame.Faces (inside : Bool) (f f' : Frame) : Prop where
  kind : f'.kind = f.kind
  options : f.options.Faces inside f'.options
  sequence : f.seqOptions.Faces inside f'.seqOptions
  branches : List.Forall₂ (Node.Faces inside) f.branches.toList f'.branches.toList
  parts : List.Forall₂ (Node.Faces inside) f.parts.toList f'.parts.toList

namespace Frame

variable {inside : Bool} {f f' : Frame} {n n' : Node} {o o' : Options} {kind : GroupKind}

theorem Faces.eq (h : f.Faces true f') : f' = f := by
  obtain ⟨kind, options, ⟨branches⟩, seqOptions, ⟨parts⟩⟩ := f
  obtain ⟨kind', options', ⟨branches'⟩, seqOptions', ⟨parts'⟩⟩ := f'
  obtain ⟨hkind, hoptions, hsequence, hbranches, hparts⟩ := h
  cases hkind
  cases hoptions
  cases hsequence
  cases Node.eq_of_forall₂_faces hbranches
  cases Node.eq_of_forall₂_faces hparts
  rfl

theorem Faces.left (h : f.Faces false f') : f.Oriented false :=
  ⟨h.sequence.1, fun _ => h.options.1, Node.left_of_forall₂_faces h.branches, Node.left_of_forall₂_faces h.parts⟩

theorem Faces.right (h : f.Faces false f') : f'.Oriented true :=
  ⟨by simp [h.sequence.2], fun _ => by simp [h.options.2], Node.right_of_forall₂_faces h.branches,
    Node.right_of_forall₂_faces h.parts⟩

theorem opened_faces (kind : GroupKind) (ho : o.Faces inside o') : (opened kind o).Faces inside (opened kind o') :=
  ⟨rfl, ho, ho, .nil, .nil⟩

theorem Faces.add (hf : f.Faces inside f') (hn : n.Faces inside n') : (f.add n).Faces inside (f'.add n') := by
  refine ⟨hf.kind, hf.options, hf.sequence, hf.branches, ?_⟩
  simp only [Frame.add, Array.toList_push]
  exact List.rel_append hf.parts (.cons hn.reduce .nil)

theorem Faces.pushBranch (hf : f.Faces inside f') (hn : n.Faces inside n') :
    { f with branches := f.branches.push n.reduce }.Faces inside
      { f' with branches := f'.branches.push n'.reduce } := by
  refine ⟨hf.kind, hf.options, hf.sequence, ?_, hf.parts⟩
  simp only [Array.toList_push]
  exact List.rel_append hf.branches (.cons hn.reduce .nil)

/-- The current alternative as it is written. -/
theorem sequence_straighten {d : Bool} (h : f.seqOptions.rightToLeft = d) :
    f.sequence.straighten d =
      .many (f.seqOptions.turn false) .concatenate (f.parts.toList.map (Node.straighten d)) := by
  have hordered : f.sequence = .many f.seqOptions .concatenate (Node.ordered d f.parts.toList) := by
    rw [← h]
    rfl
  rw [hordered, Node.straighten_sequence, Node.ordered_map, Node.ordered_ordered]

theorem Faces.sequence_node (hf : f.Faces inside f') : Node.Faces inside f.sequence f'.sequence := by
  cases inside with
  | true => exact congrArg Frame.sequence hf.eq
  | false =>
    obtain ⟨hseq, hseq'⟩ := hf.sequence
    have hturned : f'.seqOptions.rightToLeft = true := by simp [hseq']
    refine ⟨sequence_oriented hf.left, sequence_oriented hf.right, ?_⟩
    rw [sequence_straighten hseq, sequence_straighten hturned, Node.map_straighten_eq hf.parts, hseq',
      Options.turn_turn]

theorem Faces.endBranch (hf : f.Faces inside f') (ho : o.Faces inside o') :
    (f.endBranch o).Faces inside (f'.endBranch o') := by
  obtain ⟨hkind, hoptions, _, hbranches, _⟩ := hf.pushBranch hf.sequence_node
  exact ⟨hkind, hoptions, ho, hbranches, .nil⟩

theorem Faces.node (hf : f.Faces inside f') (hkind : inside = false → f.kind.isLookaround = false) :
    Node.Faces inside f.node f'.node := by
  cases inside with
  | true => exact congrArg Frame.node hf.eq
  | false =>
    have hbody : Node.Faces false (Node.many f.options .alternate f.branches.toList).reduce
        (Node.many f'.options .alternate f'.branches.toList).reduce :=
      (Node.Faces.many (by simp) hf.options hf.branches).reduce
    have hsame := hf.kind
    have hlookaround := hkind rfl
    unfold Frame.node
    rw [hsame]
    cases hk : f.kind with
    | capture number uncapture => exact .wrap rfl hf.options hbody
    | plain => exact .many (by simp) hf.options (.cons hbody .nil)
    | greedy => exact .wrap rfl hf.options hbody
    | testref | testgroup => exact .many (by simp) hf.options hf.branches
    | require | prevent => simp [hk, GroupKind.isLookaround] at hlookaround

theorem Faces.close? (hf : f.Faces inside f') (ho : o.Faces inside o')
    (hkind : inside = false → f.kind.isLookaround = false) :
    Option.Rel (Node.Faces inside) (f.close? o) (f'.close? o') := by
  have hend := hf.endBranch ho
  have hnode := hend.node hkind
  have hlimit : (f'.endBranch o').limit? = (f.endBranch o).limit? := by
    unfold limit?
    rw [hend.kind]
  have hsize : (f'.endBranch o').branches.size = (f.endBranch o).branches.size :=
    hend.branches.length_eq.symm
  unfold Frame.close?
  dsimp only
  rw [hlimit, hsize]
  split
  · split
    · exact .none
    · exact .some hnode
  · exact .some hnode

/-- A lookaround is the same tree for whoever reads around it. -/
theorem close?_lookaround {d : Bool} (hf : f.Oriented d) (ho : o.rightToLeft = d)
    (hkind : f.kind.isLookaround = true) (h : f.close? o = some n) : n.Faces false n := by
  have horiented (d' : Bool) : n.Oriented d' := close?_oriented hf (by simp [hkind]) ho h
  obtain ⟨rfl, _⟩ := close?_eq_some h
  refine ⟨horiented false, horiented true, ?_⟩
  have hsame : (f.endBranch o).kind = f.kind := rfl
  unfold Frame.node
  rw [hsame]
  cases hk : f.kind with
  | require => exact (Node.straighten_lookaround _ _ rfl _).trans (Node.straighten_lookaround _ _ rfl _).symm
  | prevent => exact (Node.straighten_lookaround _ _ rfl _).trans (Node.straighten_lookaround _ _ rfl _).symm
  | _ => simp [hk, GroupKind.isLookaround] at hkind

/-- What a group becomes for the group around it. -/
theorem Faces.close?_within {b : Bool} (hf : f.Faces inside f') (ho : o.Faces inside o')
    (hinside : inside = (b || f.kind.isLookaround)) (horiented : f.Oriented o.rightToLeft) :
    Option.Rel (Node.Faces b) (f.close? o) (f'.close? o') := by
  cases hkind : f.kind.isLookaround with
  | false =>
    rw [hkind, Bool.or_false] at hinside
    exact hinside ▸ hf.close? ho fun _ => hkind
  | true =>
    rw [hkind, Bool.or_true] at hinside
    subst hinside
    cases hf.eq
    cases ho
    cases hclose : f.close? o with
    | none => exact .none
    | some n =>
      cases b with
      | true => exact .some rfl
      | false => exact .some (close?_lookaround horiented rfl hkind hclose)

theorem Faces.awaitsCondition (hf : f.Faces inside f') : f'.awaitsCondition = f.awaitsCondition := by
  have hempty : f'.branches.isEmpty = f.branches.isEmpty := by
    have hbranches := hf.branches
    rw [← Array.isEmpty_toList, ← Array.isEmpty_toList]
    generalize f.branches.toList = ns at hbranches ⊢
    generalize f'.branches.toList = ns' at hbranches ⊢
    cases hbranches <;> rfl
  unfold Frame.awaitsCondition
  rw [hf.kind, hempty]

end Frame

/-! ### Readers -/

/-- What is around a group of the given kind in two readers, from the inside out. A lookaround has another
direction than what is around it, and all in it is inside. -/
inductive Around : (inside : Bool) → GroupKind → List Frame → List Options → List Frame → List Options → Prop where
  | nil {kind : GroupKind} (hkind : kind.isLookaround = false) : Around false kind [] [] [] []
  | cons {inside b : Bool} {kind : GroupKind} {f f' : Frame} {o o' : Options} {outer outer' : List Frame}
      {saved saved' : List Options} (hinside : inside = (b || kind.isLookaround)) (hframe : f.Faces b f')
      (hoptions : o.Faces b o') (hrest : Around b f.kind outer saved outer' saved') :
      Around inside kind (f :: outer) (o :: saved) (f' :: outer') (o' :: saved')

namespace Reader

/-- Two readers at the same place, one for each direction. -/
structure Faces (inside : Bool) (r r' : Reader) : Prop where
  cursor : r'.cursor = r.cursor
  autocap : r'.autocap = r.autocap
  ignoreNext : r'.ignoreNext = r.ignoreNext
  afterQuantifier : r'.afterQuantifier = r.afterQuantifier
  options : r.options.Faces inside r'.options
  frame : r.frame.Faces inside r'.frame
  unit : Option.Rel (Node.Faces inside) r.unit r'.unit
  around : Around inside r.frame.kind r.outer r.saved r'.outer r'.saved

variable {inside : Bool} {r r' : Reader} {e : Setting} {n n' : Node}

theorem start_faces (pattern : List Char) {o : Options} (ho : o.rightToLeft = false) :
    (start pattern o).Faces false (start pattern (o.turn true)) :=
  ⟨rfl, rfl, rfl, rfl, ⟨ho, rfl⟩, Frame.opened_faces _ ⟨ho, rfl⟩, .none, .nil rfl⟩

theorem Faces.move (h : r.Faces inside r') (c : Cursor) (after : Bool) :
    { r with cursor := c, afterQuantifier := after }.Faces inside { r' with cursor := c, afterQuantifier := after } :=
  ⟨rfl, h.autocap, h.ignoreNext, rfl, h.options, h.frame, h.unit, h.around⟩

theorem Faces.skip (h : r.Faces inside r') (c : Cursor) :
    { r with cursor := c }.Faces inside { r' with cursor := c } :=
  ⟨rfl, h.autocap, h.ignoreNext, h.afterQuantifier, h.options, h.frame, h.unit, h.around⟩

theorem Faces.withUnit (h : r.Faces inside r') (l : Leaf) : (r.withUnit l).Faces inside (r'.withUnit l) :=
  ⟨h.cursor, h.autocap, h.ignoreNext, h.afterQuantifier, h.options, h.frame, .some (.leaf h.options l), h.around⟩

theorem Faces.add (h : r.Faces inside r') (hn : n.Faces inside n') : (r.add n).Faces inside (r'.add n') :=
  ⟨h.cursor, h.autocap, h.ignoreNext, h.afterQuantifier, h.options, h.frame.add hn, h.unit, h.around⟩

theorem Faces.placed (h : r.Faces inside r') (hn : n.Faces inside n') :
    { r.add n with unit := none }.Faces inside { r'.add n' with unit := none } :=
  ⟨h.cursor, h.autocap, h.ignoreNext, h.afterQuantifier, h.options, h.frame.add hn, .none, h.around⟩

theorem Faces.isSome_unit (h : r.Faces inside r') : r'.unit.isSome = r.unit.isSome := by
  have hrel := h.unit
  generalize r.unit = u at hrel ⊢
  generalize r'.unit = u' at hrel ⊢
  cases hrel <;> rfl

theorem Faces.unit_eq_none (h : r.Faces inside r') (hunit : r.unit = none) : r'.unit = none := by
  rw [← Option.isNone_iff_eq_none, ← Option.not_isSome, h.isSome_unit, hunit]
  rfl

theorem Faces.place (h : r.Faces inside r') : r.place.Faces inside r'.place := by
  have hunit := h.unit
  unfold Reader.place
  cases hr : r.unit <;> cases hr' : r'.unit <;> rw [hr, hr'] at hunit <;> cases hunit
  · exact h
  · exact h.placed ‹_›

theorem Faces.placeQuantified (h : r.Faces inside r') (lazy : Bool) (min max : Nat) :
    (r.placeQuantified lazy min max).Faces inside (r'.placeQuantified lazy min max) := by
  have hunit := h.unit
  unfold Reader.placeQuantified
  cases hr : r.unit <;> cases hr' : r'.unit <;> rw [hr, hr'] at hunit <;> cases hunit
  · exact h
  · rename_i hn
    exact h.placed (hn.quantify lazy min max)

theorem Faces.lower (h : r.Faces inside r') : r'.lower e = r.lower e := by
  obtain ⟨d, hd⟩ := h.options.exists_turn
  funext c
  unfold Reader.lower
  rw [hd]
  rfl

theorem Faces.addRun (h : r.Faces inside r') (run : List Char) : (r.addRun e run).Faces inside (r'.addRun e run) := by
  unfold Reader.addRun
  rw [h.lower]
  split
  · exact h
  · exact h.add (.leaf h.options _)
  · exact h.add (.leaf h.options _)

theorem Faces.addRunQuantified (h : r.Faces inside r') (run : List Char) :
    (r.addRunQuantified e run).Faces inside (r'.addRunQuantified e run) := by
  unfold Reader.addRunQuantified
  rw [h.lower]
  split
  · exact h
  · rename_i c _
    have hrun := h.addRun (e := e) run.dropLast
    exact ⟨hrun.cursor, hrun.autocap, hrun.ignoreNext, hrun.afterQuantifier, hrun.options, hrun.frame,
      .some (.leaf h.options _), hrun.around⟩

/-! ### One round -/

theorem Faces.skipBlanks (h : r.Faces inside r') (c : Cursor) : c.skipBlanks r'.options = c.skipBlanks r.options := by
  obtain ⟨d, hd⟩ := h.options.exists_turn
  rw [hd, Cursor.skipBlanks_turn]

theorem quantifier_faces (h : r.Faces inside r') : Agree (Faces inside) r.quantifier r'.quantifier := by
  unfold quantifier
  rw [h.cursor, h.skipBlanks]
  refine .bind_same fun c _ => ?_
  split
  · refine .bind_same fun bounds _ => ?_
    split
    · exact .ok (h.place.move c true)
    · rw [h.skipBlanks]
      refine .bind_same fun c' _ => ?_
      dsimp only
      split
      · exact .error _
      · exact .ok ((h.placeQuantified _ _ _).move _ true)
  · exact .ok (h.place.move c false)

/-- What follows an opening parenthesis is the same for both, but for the direction of what is no lookaround. -/
theorem Faces.opening? (h : r.Faces inside r') {p : Opening} (hp : r.cursor.opening? e.table r.options = .ok (some p)) :
    ∃ o', r'.cursor.opening? e.table r'.options = .ok (some { p with options := o' }) ∧
      p.options.Faces (inside || p.kind.any GroupKind.isLookaround) o' := by
  rw [h.cursor]
  cases inside with
  | true =>
    have hsame : r'.options = r.options := h.options
    rw [hsame]
    exact ⟨p.options, hp, rfl⟩
  | false =>
    obtain ⟨hleft, hturn⟩ : r.options.rightToLeft = false ∧ r'.options = r.options.turn true := h.options
    rw [hturn, Cursor.opening?_turn, hp]
    cases hkind : p.kind.any GroupKind.isLookaround with
    | true => exact ⟨p.options, by simp [Except.map, Opening.turn, hkind], rfl⟩
    | false =>
      refine ⟨p.options.turn true, by simp [Except.map, Opening.turn, hkind], ?_, rfl⟩
      rcases Cursor.opening?_rightToLeft hp with hsame | heq | heq
      · exact hsame.trans hleft
      · simp [heq, GroupKind.isLookaround] at hkind
      · simp [heq, GroupKind.isLookaround] at hkind

theorem Faces.unmarked (h : r.Faces inside r') :
    { r.unmarked with saved := r.options :: r.saved }.Faces inside
      { r'.unmarked with saved := r'.options :: r'.saved } := by
  have hexplicit : r'.options.explicitCapture = r.options.explicitCapture := by
    obtain ⟨d, hd⟩ := h.options.exists_turn
    rw [hd]
    rfl
  have haround (kind : GroupKind) (hkind : kind.isLookaround = false) :
      Around inside kind (r.frame :: r.outer) (r.options :: r.saved) (r'.frame :: r'.outer) (r'.options :: r'.saved) :=
    .cons (by simp [hkind]) h.frame h.options h.around
  unfold Reader.unmarked
  rw [hexplicit, h.ignoreNext, h.autocap]
  split
  all_goals
    exact ⟨h.cursor, rfl, rfl, h.afterQuantifier, h.options, Frame.opened_faces _ h.options, h.unit, haround _ rfl⟩

theorem openGroup_faces (h : r.Faces inside r') (hunit : r.unit = none) :
    Agree (fun a b => ∃ inside, a.Faces inside b) (r.openGroup e) (r'.openGroup e) := by
  obtain ⟨d, hd⟩ := h.options.exists_turn
  have hturned : r'.cursor.opening? e.table r'.options =
      (r.cursor.opening? e.table r.options).map (Option.map (·.turn d)) := by
    rw [h.cursor, hd, Cursor.opening?_turn]
  unfold openGroup
  cases hopening : r.cursor.opening? e.table r.options with
  | error p =>
    rw [hturned, hopening]
    exact .error p
  | ok opening =>
    cases opening with
    | none =>
      rw [hturned, hopening]
      exact .ok ⟨inside, h.unmarked⟩
    | some p =>
      obtain ⟨o', hopening', ho⟩ := h.opening? hopening
      rw [hopening']
      cases hkind : p.kind with
      | none =>
        rw [hkind, Option.any_none, Bool.or_false] at ho
        simp only [bind, Except.bind, hkind]
        exact .ok ⟨inside, rfl, h.autocap, rfl, h.afterQuantifier, ho, h.frame, h.unit, h.around⟩
      | some kind =>
        rw [hkind, Option.any_some] at ho
        simp only [bind, Except.bind, hkind]
        refine .ok ⟨_, rfl, h.autocap, rfl, h.afterQuantifier, ho, Frame.opened_faces kind ho, ?_,
          .cons rfl h.frame h.options h.around⟩
        rw [hunit, h.unit_eq_none hunit]
        exact .none

theorem closeGroup_faces {whole : Bool} (h : r.Faces inside r') (hr : r.Oriented whole) (hunit : r.unit = none) :
    Agree (fun a b => ∃ inside, a.Faces inside b) r.closeGroup r'.closeGroup := by
  obtain ⟨c, o, saved, autocap, ignoreNext, f, outer, unit, after⟩ := r
  obtain ⟨c', o', saved', autocap', ignoreNext', f', outer', unit', after'⟩ := r'
  obtain ⟨hcursor, hautocap, hignore, hafter, hoptions, hframe, hunits, haround⟩ := h
  have hframed := hr.within.oriented
  simp only at hcursor hautocap hignore hafter hoptions hframe hunits haround hframed hunit
  have hunits' (b : Bool) : Option.Rel (Node.Faces b) unit unit' := by
    subst hunit
    cases hunits
    exact .none
  unfold closeGroup
  cases haround with
  | nil _ =>
    rw [hcursor]
    exact .error _
  | @cons _ b _ g g' p p' outer outer' saved saved' hinside hg hp hrest =>
    have hclose := hframe.close?_within hoptions hinside hframed
    dsimp only
    rw [hg.awaitsCondition]
    cases hn : f.close? o <;> cases hn' : f'.close? o' <;> rw [hn, hn'] at hclose <;> cases hclose
    · rw [hcursor]
      exact .error _
    · rename_i n n' hnode
      dsimp only
      split
      · exact .ok ⟨b, hcursor, hautocap, hignore, hafter, hp, hg.pushBranch hnode, hunits' b, hrest⟩
      · exact .ok ⟨b, hcursor, hautocap, hignore, hafter, hp, hg, .some hnode, hrest⟩

theorem special_faces {whole : Bool} (h : r.Faces inside r') (hr : r.Oriented whole) {ch : Char} (nested : Bool)
    (hunit : Cursor.isQuantifier ch = false → r.unit = none) :
    Agree (fun a b => ∃ inside, a.Faces inside b) (r.special e ch nested) (r'.special e ch nested) := by
  obtain ⟨d, hd⟩ := h.options.exists_turn
  have hquantifier {q q' : Reader} {b : Bool} (hq : q.Faces b q') :
      Agree (fun a b => ∃ inside, a.Faces inside b) q.quantifier q'.quantifier :=
    (quantifier_faces hq).mono fun _ _ h => ⟨b, h⟩
  unfold special
  split
  · rw [h.cursor, hd]
    refine .bind_same fun a _ => ?_
    exact hquantifier ((h.withUnit _).skip a.2)
  · exact openGroup_faces h (hunit (by decide))
  · exact .ok ⟨inside, h.cursor, h.autocap, h.ignoreNext, h.afterQuantifier, h.options, h.frame.endBranch h.options,
      h.unit, h.around⟩
  · refine (closeGroup_faces h hr (hunit (by decide))).bind fun a b ha hab => ?_
    obtain ⟨inside', hab⟩ := hab
    rw [hab.isSome_unit]
    split
    · exact hquantifier hab
    · exact .ok ⟨inside', hab⟩
  · rw [h.cursor, hd, Cursor.backslash_turn]
    refine .bind_same fun a _ => ?_
    exact hquantifier ((h.withUnit a.1).skip a.2)
  · rw [hd]
    exact hquantifier (h.withUnit _)
  · rw [hd]
    exact hquantifier (h.withUnit _)
  · rw [hd]
    exact hquantifier (h.withUnit _)
  · rw [h.isSome_unit, h.cursor]
    split
    · exact hquantifier (h.skip _)
    · split
      · exact .error _
      · exact .error _

/-- **A round leads two readers to the same problem, or to the same place.** -/
theorem step_faces {whole : Bool} (h : r.Faces inside r') (hr : r.Oriented whole) (hunit : r.unit = none) :
    Agree (fun a b => ∃ inside, a.Faces inside b) (r.step e) (r'.step e) := by
  have hrun (c : Cursor) : c.literalRun r'.options = c.literalRun r.options := by
    obtain ⟨d, hd⟩ := h.options.exists_turn
    rw [hd, Cursor.literalRun_turn]
  unfold step
  rw [h.cursor, h.skipBlanks]
  refine .bind_same fun c _ => ?_
  dsimp only
  rw [h.skipBlanks, hrun, h.afterQuantifier]
  refine .bind_same fun c' _ => ?_
  have hmoved := h.move c' false
  have hr₁ : { r with cursor := c', afterQuantifier := false }.Oriented whole := ⟨hr.within, hr.unit⟩
  split
  · exact .ok ⟨inside, hmoved.addRun _⟩
  split
  · refine @special_faces inside _ _ e whole ?_ ?_ _ _ fun hquantifier => ?_
    · split
      · exact (hmoved.addRunQuantified _).skip _
      · exact (hmoved.addRun _).skip _
    · split
      · exact (addRunQuantified_oriented hr₁ _).move _
      · exact (addRun_oriented hr₁ _).move _
    · rw [if_neg (by simp [hquantifier])]
      exact (addRun_unit e _ _).trans hunit
  · exact .ok ⟨inside, hmoved.addRun _⟩

/-- **Two readers meet the same problem, or come to the end at the same place.** -/
theorem run_faces {whole : Bool} (rounds : Nat) (h : r.Faces inside r') (hr : r.Oriented whole)
    (hunit : r.unit = none) :
    Agree (fun a b => ∃ inside, a.Faces inside b) (run e rounds r) (run e rounds r') := by
  induction rounds generalizing inside r r' with
  | zero => exact .ok ⟨inside, h⟩
  | succ rounds ih =>
    rw [run, run, h.cursor]
    split
    · exact .ok ⟨inside, h⟩
    · refine (step_faces h hr hunit).bind fun a b ha hab => ?_
      obtain ⟨inside', hab⟩ := hab
      obtain ⟨hr', hunit'⟩ := (kept_oriented e whole).step hr hunit ha
      exact ih hab hr' hunit'

theorem finish_faces (h : r.Faces inside r') : Agree (Node.Faces false) r.finish r'.finish := by
  obtain ⟨c, o, saved, autocap, ignoreNext, f, outer, unit, after⟩ := r
  obtain ⟨c', o', saved', autocap', ignoreNext', f', outer', unit', after'⟩ := r'
  obtain ⟨hcursor, _, _, _, hoptions, hframe, _, haround⟩ := h
  simp only at hcursor hoptions hframe haround
  unfold finish
  rw [hcursor]
  cases haround with
  | cons _ _ _ _ => exact .error _
  | nil hkind =>
    have hclose := hframe.close? hoptions fun _ => hkind
    dsimp only
    cases hn : f.close? o <;> cases hn' : f'.close? o' <;> rw [hn, hn'] at hclose <;> cases hclose
    · exact .error _
    · exact .ok ‹_›

end Reader

namespace Pattern

theorem read_faces (pattern : List Char) {o : Options} (ho : o.rightToLeft = false) (culture : Culture) :
    Agree (fun p p' => p'.table = p.table ∧ p.root.Faces false p'.root) (read pattern o culture)
      (read pattern (o.turn true) culture) := by
  unfold read
  rw [GroupTable.ofPattern_turn]
  refine .bind_same fun table _ => ?_
  refine (Reader.run_faces pattern.length (Reader.start_faces pattern ho) (Reader.start_oriented pattern o)
    rfl).bind fun r r' _ h => ?_
  obtain ⟨inside, h⟩ := h
  exact (Reader.finish_faces h).bind fun n n' _ hroot => .ok ⟨rfl, hroot⟩

/-- **Reading from right to left is the mirror image of reading from left to right**: both fail with the same
error, or give the same groups and trees that are mirror images of each other, but for the direction outside
of lookarounds. -/
theorem parse_mirrored (text : String) (o : Options) (culture : Culture) (ho : o.rightToLeft = false) :
    (∃ fault, parse text o culture = .error fault ∧
      parse text { o with rightToLeft := true } culture = .error fault) ∨
    ∃ p p', parse text o culture = .ok p ∧ parse text { o with rightToLeft := true } culture = .ok p' ∧
      p'.table = p.table ∧ p'.root.forget = p.root.forget.mirror ∧ p'.root.erase = p.root.erase.mirror := by
  have hculture : effectiveCulture { o with rightToLeft := true } culture = effectiveCulture o culture := rfl
  have hread := read_faces text.toList ho (effectiveCulture o culture)
  unfold parse
  rw [hculture]
  change Agree _ _ (read text.toList { o with rightToLeft := true } _) at hread
  generalize read text.toList o (effectiveCulture o culture) = x at hread ⊢
  generalize read text.toList { o with rightToLeft := true } (effectiveCulture o culture) = y at hread ⊢
  cases hread with
  | error problem => exact .inl ⟨_, rfl, rfl⟩
  | ok h =>
    obtain ⟨htable, _, _, hroot⟩ := h
    have hforget := Node.forget_eq_mirror hroot
    refine .inr ⟨_, _, rfl, rfl, htable, hforget, ?_⟩
    rw [← Node.erase_forget, hforget, Node.erase, Node.mapOptions_mirror]
    exact congrArg Node.mirror (Node.erase_forget _)

theorem parse_mirrored_lookbehind :
    ∃ p p', parse "a(bc|(?<=de)[x-z]*f)" {} .invariant = .ok p ∧
      parse "a(bc|(?<=de)[x-z]*f)" { rightToLeft := true } .invariant = .ok p' ∧ p'.table = p.table ∧
      p'.root.forget = p.root.forget.mirror ∧ p'.root.erase = p.root.erase.mirror := by
  obtain ⟨p, hp, _⟩ := exists_ok_of_check (parse "a(bc|(?<=de)[x-z]*f)" {} .invariant) (fun _ => true)
    (by decide +kernel)
  rcases parse_mirrored "a(bc|(?<=de)[x-z]*f)" {} .invariant rfl with ⟨fault, hfault, _⟩ | h
  · cases hp.symm.trans hfault
  · exact h

end Pattern

end PatternCompiler
