import PatternCompiler.Proofs.Translation

/-! Lowering writes the translation of the tree.

The walk keeps the nodes it is inside of in a list, and the jumps without a target
in another. `walk_eq_node` says that it does what recursion on the tree does, and
`node_writes` that the recursion appends just the lines of the tree and leaves the
list of jumps as it was. Between the parts of a construct the list holds what the
construct has kept (`parts_alternate`), and the words before it stand but for the
targets that are set in the end. -/
namespace PatternCompiler.Draft

/-! ### Recursion instead of the walk -/

mutual

/-- Writes a tree. -/
def node (numbers : List Nat) (d : Draft) : Node → Draft
  | .leaf o l => d.leaf numbers o l
  | .wrap _ w n => ((d.before w).node numbers n).after numbers w
  | .many _ m ns => d.parts numbers m ns.length 0 ns

/-- Writes the parts of a construct from the one with number `index` on. -/
def parts (numbers : List Nat) (d : Draft) (m : Many) (count index : Nat) : List Node → Draft
  | [] => d
  | n :: ns =>
    let d := (d.beforePart numbers m count index).node numbers n
    (d.afterPart m count index).parts numbers m count (index + 1) ns

end

/-- The rest of a walk that has just written a node. -/
def walkUp (numbers : List Nat) (rounds : Nat) (d : Draft) : List (Node × Nat) → Draft
  | [] => d
  | (n, index) :: above =>
    walk numbers rounds (d.afterChild numbers n index) ⟨n, index + 1, above⟩

/-- One round up from a node whose parts are written. -/
theorem walk_up (numbers : List Nat) (k : Nat) (d : Draft) (n : Node) (i : Nat)
    (above : List (Node × Nat)) (hn : n.children[i]? = none) :
    walk numbers (k + 1) d ⟨n, i, above⟩ =
      walkUp numbers k (if n.children.isEmpty then d.childless numbers n else d) above := by
  rw [walk, round]
  cases above <;> simp [hn, walkUp]

/-- One round down to a part. -/
theorem walk_down (numbers : List Nat) (k : Nat) (d : Draft) (n m : Node) (i : Nat)
    (above : List (Node × Nat)) (hn : n.children[i]? = some m) :
    walk numbers (k + 1) d ⟨n, i, above⟩ =
      walk numbers k (d.beforeChild numbers n i) ⟨m, 0, (n, i) :: above⟩ := by
  rw [walk, round]
  simp [hn]

/-- The parts of a construct from number `done.length` on, and the way up from it. -/
theorem walk_parts (numbers : List Nat) (o : Options) (m : Many) (rest done : List Node)
    (ih : ∀ n ∈ rest, ∀ (k : Nat) (d : Draft) (above : List (Node × Nat)),
      walk numbers (n.rounds + k) d ⟨n, 0, above⟩ = walkUp numbers k (d.node numbers n) above)
    (k : Nat) (d : Draft) (above : List (Node × Nat)) :
    walk numbers (Node.roundsOf rest + 1 + k) d ⟨.many o m (done ++ rest), done.length, above⟩ =
      walkUp numbers k (d.parts numbers m (done ++ rest).length done.length rest) above := by
  induction rest generalizing done d with
  | nil =>
    rw [Node.roundsOf, Nat.zero_add, Nat.add_comm, walk_up _ _ _ _ _ _ (by simp [Node.children])]
    cases done <;> simp [Node.children, childless, parts]
  | cons n rest ihr =>
    have hrounds : Node.roundsOf (n :: rest) + 1 + k =
        n.rounds + (Node.roundsOf rest + 1 + k) + 1 := by
      rw [Node.roundsOf]
      omega
    have hstep := ihr (done ++ [n]) (fun x hx => ih x (List.mem_cons_of_mem n hx))
    rw [hrounds, walk_down _ _ _ _ n _ _ (by simp [Node.children]),
      ih n (List.mem_cons_self ..), walkUp, parts]
    simpa [beforeChild, afterChild] using hstep
      (((d.beforePart numbers m (done ++ n :: rest).length done.length).node numbers n).afterPart m
        (done ++ n :: rest).length done.length)

/-- **The walk does what recursion does**, and goes on with the nodes around. -/
theorem walk_node (numbers : List Nat) (n : Node) (k : Nat) (d : Draft)
    (above : List (Node × Nat)) :
    walk numbers (n.rounds + k) d ⟨n, 0, above⟩ = walkUp numbers k (d.node numbers n) above := by
  induction n generalizing k d above with
  | leaf o l =>
    rw [Node.rounds, Nat.add_comm, walk_up _ _ _ _ _ _ (by rfl)]
    rfl
  | wrap o w n ih =>
    have hrounds : (Node.wrap o w n).rounds + k = n.rounds + (k + 1) + 1 := by
      rw [Node.rounds]
      omega
    rw [hrounds, walk_down _ _ _ _ n _ _ (by rfl), ih, walkUp, walk_up _ _ _ _ _ _ (by rfl)]
    rfl
  | many o m ns ih => exact walk_parts numbers o m ns [] ih k d above

theorem walk_eq_node (numbers : List Nat) (n : Node) (d : Draft) :
    walk numbers n.rounds d { node := n } = d.node numbers n :=
  walk_node numbers n 0 d []

/-! ### What writing leaves as it was -/

/-- No word is taken away, and the tables stay. -/
structure Keeps (d d' : Draft) : Prop where
  size : d.words.size ≤ d'.words.size
  strings : d'.strings = d.strings
  classes : d'.classes = d.classes

theorem Keeps.refl (d : Draft) : Keeps d d := ⟨Nat.le_refl _, rfl, rfl⟩

variable {d e f d' : Draft} {ls ms : List Line} {α : Type} {ss : List (List Char)} {ks : List CharClass}
  {t : Tables} {n : Node}

theorem Keeps.trans (h : Keeps d e) (h' : Keeps e f) : Keeps d f :=
  ⟨Nat.le_trans h.size h'.size, h'.strings.trans h.strings, h'.classes.trans h.classes⟩

theorem Keeps.ite (h : Keeps d d') (p : Prop) [Decidable p] : Keeps d (if p then d' else d) := by
  split
  · exact h
  · exact Keeps.refl d

theorem emitWord_keeps (d : Draft) (h : OpcodeWord) (ws : List Int) :
    Keeps d (d.emitWord h ws) :=
  ⟨by simp [emitWord], rfl, rfl⟩

theorem emit_keeps (d : Draft) (c : Opcode) (ws : List Int) : Keeps d (d.emit c ws) :=
  d.emitWord_keeps _ ws

theorem mark_keeps (d : Draft) (offset : Nat) : Keeps d (d.mark offset) :=
  ⟨Nat.le_refl _, rfl, rfl⟩

theorem pop_keeps (d : Draft) : Keeps d d.pop :=
  ⟨Nat.le_refl _, rfl, rfl⟩

theorem emitJump_keeps (d : Draft) (c : Opcode) : Keeps d (d.emitJump c) :=
  (d.mark_keeps d.pos).trans (emit_keeps _ c [0])

theorem patch_keeps (d : Draft) (offset target : Nat) : Keeps d (d.patch offset target) :=
  ⟨by simp [patch], rfl, rfl⟩

theorem patchHere_keeps (d : Draft) : Keeps d d.patchHere :=
  d.pop_keeps.trans (patch_keeps _ _ _)

theorem patchAllHere_keeps (d : Draft) (n : Nat) : Keeps d (d.patchAllHere n) := by
  induction n generalizing d with
  | zero => exact Keeps.refl d
  | succ n ih => exact d.patchHere_keeps.trans (ih _)

theorem jumpPast_keeps (d : Draft) (c : Opcode) : Keeps d (d.jumpPast c) :=
  (d.pop_keeps.trans (emitJump_keeps _ c)).trans (patch_keeps _ _ _)

theorem beforeLoop_eq (d : Draft) (min max : Nat) :
    d.beforeLoop min max =
      let e := d.emitWord (loopHead min max).head (loopHead min max).op.operands
      let e := if min = 0 then e.emitJump .goto else e
      e.mark e.pos := by
  unfold beforeLoop loopHead
  cases counts min max <;> by_cases h : min = 0 <;> simp [h] <;> rfl

theorem afterLoop_eq (d : Draft) (lazy : Bool) (min max : Nat) :
    d.afterLoop lazy min max =
      let l := loopTest lazy min max (capped d.top)
      let e := d.pop.emitWord l.head l.op.operands
      if min = 0 then e.pop.patch e.top d.pos else e := by
  unfold afterLoop loopTest
  cases counts min max <;> rfl

theorem beforeLoop_keeps (d : Draft) (min max : Nat) : Keeps d (d.beforeLoop min max) := by
  rw [beforeLoop_eq]
  exact (emitWord_keeps _ _ _).trans (((emitJump_keeps _ _).ite _).trans (mark_keeps _ _))

theorem afterLoop_keeps (d : Draft) (lazy : Bool) (min max : Nat) :
    Keeps d (d.afterLoop lazy min max) := by
  rw [afterLoop_eq]
  exact (d.pop_keeps.trans (emitWord_keeps _ _ _)).trans
    (((pop_keeps _).trans (patch_keeps _ _ _)).ite _)

theorem before_keeps (d : Draft) (w : Wrap) : Keeps d (d.before w) := by
  cases w with
  | loop lazy min max => exact d.beforeLoop_keeps min max
  | capture number uncapture => exact emit_keeps _ _ _
  | require => exact (emit_keeps _ _ _).trans (emit_keeps _ _ _)
  | prevent => exact (emit_keeps _ _ _).trans (emitJump_keeps _ _)
  | greedy => exact emit_keeps _ _ _

theorem after_keeps (numbers : List Nat) (d : Draft) (w : Wrap) :
    Keeps d (d.after numbers w) := by
  cases w with
  | loop lazy min max => exact d.afterLoop_keeps lazy min max
  | capture number uncapture => exact emit_keeps _ _ _
  | require => exact (emit_keeps _ _ _).trans (emit_keeps _ _ _)
  | prevent =>
    exact (emit_keeps _ _ _).trans ((patchHere_keeps _).trans (emit_keeps _ _ _))
  | greedy => exact emit_keeps _ _ _

theorem beforePart_keeps (numbers : List Nat) (d : Draft) (m : Many) (count index : Nat) :
    Keeps d (d.beforePart numbers m count index) := by
  unfold beforePart
  split
  · split
    · exact emitJump_keeps _ _
    · exact Keeps.refl d
  · exact (emit_keeps _ _ _).trans
      ((emitJump_keeps _ _).trans ((emit_keeps _ _ _).trans (emit_keeps _ _ _)))
  · exact (emit_keeps _ _ _).trans ((emit_keeps _ _ _).trans (emitJump_keeps _ _))
  · exact Keeps.refl d

theorem afterPart_keeps (d : Draft) (m : Many) (count index : Nat) :
    Keeps d (d.afterPart m count index) := by
  unfold afterPart
  split
  · split
    · exact jumpPast_keeps _ _
    · exact patchAllHere_keeps _ _
  · simp only
    split
    · exact (jumpPast_keeps _ _).trans ((emit_keeps _ _ _).trans (patchHere_keeps _))
    · exact (jumpPast_keeps _ _).trans (emit_keeps _ _ _)
  · exact patchHere_keeps _
  · exact (emit_keeps _ _ _).trans (emit_keeps _ _ _)
  · simp only
    split
    · exact (jumpPast_keeps _ _).trans
        ((emit_keeps _ _ _).trans ((emit_keeps _ _ _).trans (patchHere_keeps _)))
    · exact (jumpPast_keeps _ _).trans ((emit_keeps _ _ _).trans (emit_keeps _ _ _))
  · exact patchHere_keeps _
  · exact Keeps.refl d

/-! ### Lines -/

/-- `d'` is `d` with the words of some lines after it, and has the same open jumps. -/
structure Writes (d d' : Draft) (ls : List Line) : Prop where
  words : d'.words.toList = d.words.toList ++ Line.wordsOf ls
  patches : d'.patches = d.patches

theorem Writes.refl (d : Draft) : Writes d d [] := ⟨by simp, rfl⟩

theorem Writes.trans (h : Writes d e ls) (h' : Writes e f ms) : Writes d f (ls ++ ms) :=
  ⟨by rw [h'.words, h.words, Line.wordsOf_append, List.append_assoc], h'.patches.trans h.patches⟩

theorem Writes.ite (h : Writes d d' ls) (p : Prop) [Decidable p] :
    Writes d (if p then d' else d) (if p then ls else []) := by
  split
  · exact h
  · exact Writes.refl d

theorem Writes.of_eq (h : Writes d d' ls) (hl : ls = ms) : Writes d d' ms :=
  hl ▸ h

theorem Writes.pos (h : Writes d d' ls) : d'.pos = d.pos + Line.extent ls := by
  have := congrArg List.length h.words
  simpa [Draft.pos] using this

theorem emitWord_writes (d : Draft) (l : Line) : Writes d (d.emitWord l.head l.op.operands) [l] :=
  ⟨by simp [emitWord, Line.words], rfl⟩

theorem emit_writes (d : Draft) (op : Op) : Writes d (d.emit op.opcode op.operands) [{ op }] :=
  d.emitWord_writes { op }

/-! ### Jumps -/

theorem wordOfNat_of_le {n : Nat} (h : n ≤ unbounded) : wordOfNat n = n := by
  rw [wordOfNat, Nat.min_eq_left h]

@[simp] theorem pos_emitJump (d : Draft) (c : Opcode) : (d.emitJump c).pos = d.pos + 2 := by
  simp [emitJump, emit, emitWord, mark, pos]

@[simp] theorem pos_emit (d : Draft) (c : Opcode) (ws : List Int) :
    (d.emit c ws).pos = d.pos + (ws.length + 1) := by
  simp [emit, emitWord, pos]

@[simp] theorem pos_mark (d : Draft) (offset : Nat) : (d.mark offset).pos = d.pos := rfl

theorem words_emitJump (d : Draft) (c : Opcode) :
    (d.emitJump c).words.toList = d.words.toList ++ [({ opcode := c } : OpcodeWord).word, 0] := by
  simp [emitJump, emit, emitWord, mark]

/-- Setting the target of an open jump makes it a line, and takes it off the list. -/
theorem writes_close {c : Opcode} (h : Writes (d.emitJump c) e ls)
    (op : Op) (target : Nat) (hc : op.opcode = c) (ho : op.operands = [(target : Int)])
    (hle : target ≤ unbounded) : Writes d (e.pop.patch e.top target) ({ op } :: ls) := by
  have htop : e.top = d.pos := by rw [top, h.patches]; rfl
  refine ⟨?_, ?_⟩
  · show (e.words.setIfInBounds (e.top + 1) (wordOfNat target)).toList = _
    have hpos : d.pos = d.words.toList.length := by simp [pos]
    have hline : Line.words { op } = [({ opcode := c } : OpcodeWord).word, wordOfNat target] := by
      rw [Line.words, ho, Line.head, hc, wordOfNat_of_le hle]
    rw [Array.toList_setIfInBounds, h.words, words_emitJump, htop, Line.wordsOf_cons, hline, hpos,
      List.append_assoc, List.set_append_right _ _ (by omega), Nat.add_sub_cancel_left]
    rfl
  · show e.patches.drop 1 = d.patches
    rw [h.patches]
    rfl

/-- What is kept in the list above the open jumps is there again after some lines. -/
theorem writes_unmark {offset : Nat}
    (h : Writes (d.mark offset) e ls) : e.top = offset ∧ Writes d e.pop ls := by
  refine ⟨by rw [top, h.patches]; rfl, h.words, ?_⟩
  show e.patches.drop 1 = d.patches
  rw [h.patches]
  rfl

/-- A jump past the next one can be set before that one is written. -/
theorem jumpPast_eq (d : Draft) (c : Opcode) (h : d.top + 1 < d.pos) :
    d.jumpPast c = (d.pop.patch d.top (d.pos + 2)).emitJump c := by
  have hpos : (d.pop.patch d.top (d.pos + 2)).pos = d.pop.pos := by simp [patch, pos]
  have hpop : d.pop.pos = d.pos := rfl
  simp only [jumpPast, pos_emitJump, hpop]
  simp only [emitJump, hpos]
  simp only [patch, emit, emitWord, mark, mk.injEq, and_self, and_true]
  apply Array.toList_inj.mp
  simp only [Array.toList_setIfInBounds, Array.toList_append, Array.toList_push]
  have hlen : d.top + 1 < d.pop.words.toList.length := by simpa [pos, pop] using h
  rw [List.set_append_left _ _ (by rw [List.length_append]; omega), List.set_append_left _ _ hlen]

theorem pos_jumpPast (d : Draft) (c : Opcode) : (d.jumpPast c).pos = d.pos + 2 :=
  (by simp [jumpPast, patch, pos] : (d.jumpPast c).pos = (d.pop.emitJump c).pos).trans
    (pos_emitJump d.pop c)

/-- A jump over some lines that goes on past the jump after them. -/
theorem jumpPast_writes (c : Opcode)
    (h : Writes (d.emitJump .lazybranch) e ls) (hle : e.pos + 2 ≤ unbounded) :
    ∃ f, e.jumpPast c = f.emitJump c ∧ Writes d f ({ op := .lazybranch (e.pos + 2) } :: ls) := by
  have htop : e.top = d.pos := by rw [top, h.patches]; rfl
  have hpos := h.pos
  rw [pos_emitJump] at hpos
  exact ⟨_, jumpPast_eq e c (by omega), writes_close h (.lazybranch (e.pos + 2)) _ rfl rfl hle⟩

/-! ### Tables -/

/-- Enters into a table what is new. -/
def enter {α : Type} [BEq α] (xs : List α) (x : α) : List α :=
  if xs.contains x then xs else xs ++ [x]

theorem prefix_foldl_enter {α : Type} [BEq α] (xs ys : List α) : xs <+: ys.foldl enter xs := by
  induction ys generalizing xs with
  | nil => exact List.prefix_refl xs
  | cons y ys ih =>
    refine List.IsPrefix.trans ?_ (ih (enter xs y))
    unfold enter
    split
    · exact List.prefix_refl xs
    · exact List.prefix_append xs [y]

/-- A table has each entry once, where it was met first. -/
theorem foldl_enter_eraseDups [BEq α] [LawfulBEq α] (xs ys : List α) :
    ys.foldl enter xs.eraseDups = (xs ++ ys).eraseDups := by
  induction ys generalizing xs with
  | nil => simp
  | cons y ys ih =>
    have henter : enter xs.eraseDups y = (xs ++ [y]).eraseDups := by
      rw [List.eraseDups_append, enter]
      by_cases h : y ∈ xs <;> simp [h, List.removeAll, List.eraseDups_cons]
    rw [List.foldl_cons, henter, ih, List.append_assoc, List.singleton_append]

/-- The words go on, and the tables with the literals `ss` and the classes `ks`. -/
structure Grows (d d' : Draft) (ss : List (List Char)) (ks : List CharClass) : Prop where
  size : d.words.size ≤ d'.words.size
  strings : d'.strings.toList = ss.foldl enter d.strings.toList
  classes : d'.classes.toList = ks.foldl enter d.classes.toList

theorem Keeps.grows (h : Keeps d d') : Grows d d' [] [] :=
  ⟨h.size, by rw [h.strings]; rfl, by rw [h.classes]; rfl⟩

theorem Grows.trans {ss' : List (List Char)} {ks' : List CharClass}
    (h : Grows d e ss ks) (h' : Grows e f ss' ks') : Grows d f (ss ++ ss') (ks ++ ks') :=
  ⟨Nat.le_trans h.size h'.size, by rw [h'.strings, h.strings, List.foldl_append],
    by rw [h'.classes, h.classes, List.foldl_append]⟩

theorem Grows.keeps (h : Grows d e ss ks) (h' : Keeps e f) : Grows d f ss ks := by
  simpa using h.trans h'.grows

/-- An entry of a table has the place that looking for it gives, and a new one goes to the end. -/
theorem enter_toList [BEq α] [LawfulBEq α] (xs : Array α) (x : α) :
    (enter xs.toList x).idxOf x = (xs.idxOf? x).getD xs.size ∧
      (enter xs.toList x).toArray = if (xs.idxOf? x).isSome then xs else xs.push x := by
  obtain ⟨xs⟩ := xs
  rw [List.idxOf?_toArray, enter]
  by_cases h : x ∈ xs
  · simp [h, List.idxOf_eq_getD_idxOf?]
  · have hnone : List.idxOf? x xs = none := by simpa using h
    simp [h, hnone, List.idxOf_append]

theorem string_eq (d : Draft) (cs : List Char) :
    d.string cs = (wordOfNat ((enter d.strings.toList cs).idxOf cs),
      { d with strings := (enter d.strings.toList cs).toArray }) := by
  obtain ⟨hidx, htable⟩ := enter_toList d.strings cs
  rw [string, hidx, htable]
  cases d.strings.idxOf? cs <;> simp

theorem charClass_eq (d : Draft) (k : CharClass) :
    d.charClass k = (wordOfNat ((enter d.classes.toList k).idxOf k),
      { d with classes := (enter d.classes.toList k).toArray }) := by
  obtain ⟨hidx, htable⟩ := enter_toList d.classes k
  rw [charClass, hidx, htable]
  cases d.classes.idxOf? k <;> simp

theorem testOperand_grows (d : Draft) (c : CharTest CharClass) :
    Grows d (d.testOperand c).2 [] c.classes := by
  cases c with
  | set k =>
    show Grows d (d.charClass k).2 [] [k]
    rw [charClass_eq]
    exact ⟨Nat.le_refl _, rfl, rfl⟩
  | _ => exact (Keeps.refl d).grows

theorem span_keeps (numbers : List Nat) (o : Options) (d : Draft) (lazy : Bool)
    (c : CharTest CharClass) (min max : Nat) :
    Keeps (d.testOperand c).2 (d.leaf numbers o (.span lazy c min max)) :=
  ((emitWord_keeps _ _ _).ite (0 < min)).trans ((emitWord_keeps _ _ _).ite (min < max))

theorem leaf_grows (numbers : List Nat) (o : Options) (d : Draft) (l : Leaf) :
    Grows d (d.leaf numbers o l) l.literals l.classes := by
  cases l with
  | test c => exact (d.testOperand_grows c).keeps (emitWord_keeps _ _ _)
  | span lazy c min max =>
    exact (d.testOperand_grows c).keeps (span_keeps numbers o d lazy c min max)
  | multi cs =>
    have hstring : Grows d (d.string cs).2 [cs] [] := by
      rw [string_eq]
      exact ⟨Nat.le_refl _, rfl, rfl⟩
    exact hstring.keeps (emitWord_keeps _ _ _)
  | ref n => exact (emitWord_keeps _ _ _).grows
  | assertion | nothing => exact (emit_keeps _ _ _).grows
  | empty => exact (Keeps.refl d).grows

theorem parts_grows (numbers : List Nat) (m : Many) (count : Nat) (ns : List Node)
    (ih : ∀ n ∈ ns, ∀ d : Draft, Grows d (d.node numbers n) n.literals n.classes) (d : Draft)
    (index : Nat) :
    Grows d (d.parts numbers m count index ns) (ns.flatMap Node.literals)
      (ns.flatMap Node.classes) := by
  induction ns generalizing d index with
  | nil => exact (Keeps.refl d).grows
  | cons n ns ihn =>
    have hn := ih n (List.mem_cons_self ..) (d.beforePart numbers m count index)
    have hpart := (((d.beforePart_keeps numbers m count index).grows.trans hn).keeps
      (afterPart_keeps _ m count index))
    exact hpart.trans (ihn (fun x hx => ih x (List.mem_cons_of_mem n hx)) _ (index + 1))

/-- Writing a tree enters its literals and its classes into the tables. -/
theorem node_grows (numbers : List Nat) (n : Node) (d : Draft) :
    Grows d (d.node numbers n) n.literals n.classes := by
  induction n generalizing d with
  | leaf o l => simpa [node] using leaf_grows numbers o d l
  | wrap o w n ih =>
    exact ((d.before_keeps w).grows.trans (ih _)).keeps (after_keeps numbers _ w)
  | many o m ns ih => simpa [node] using parts_grows numbers m ns.length ns ih d 0

/-- What is written so far can be numbered, and its tables are the beginning of `t`. -/
structure Within (t : Tables) (d : Draft) : Prop where
  size : d.words.size ≤ unbounded
  strings : d.strings.toList <+: t.strings
  classes : d.classes.toList <+: t.classes

theorem Grows.within (h : Grows d d' ss ks) (h' : d'.Within t) : d.Within t :=
  ⟨Nat.le_trans h.size h'.size,
    (h.strings ▸ prefix_foldl_enter _ ss).trans h'.strings,
    (h.classes ▸ prefix_foldl_enter _ ks).trans h'.classes⟩

theorem Keeps.within (h : Keeps d d') (h' : d'.Within t) : d.Within t :=
  h.grows.within h'

theorem node_within {numbers : List Nat} (h : (d.node numbers n).Within t) : d.Within t :=
  (node_grows numbers n d).within h

theorem parts_within {numbers : List Nat} {m : Many} {count index : Nat}
    {ns : List Node} (h : (d.parts numbers m count index ns).Within t) : d.Within t :=
  (parts_grows numbers m count ns (fun n _ => node_grows numbers n) d index).within h

theorem idxOf_of_begins [BEq α] [LawfulBEq α] {xs ys : List α} {x : α} (h : xs <+: ys)
    (hx : x ∈ xs) : ys.idxOf x = xs.idxOf x := by
  obtain ⟨zs, rfl⟩ := h
  rw [List.idxOf_append, if_pos hx]

theorem mem_enter {α : Type} [BEq α] [LawfulBEq α] (xs : List α) (x : α) : x ∈ enter xs x := by
  unfold enter
  split <;> simp_all

theorem string_word (d : Draft) (cs : List Char) (h : (d.string cs).2.Within t) :
    (d.string cs).1 = t.string cs := by
  have hs := h.strings
  rw [string_eq] at hs ⊢
  rw [Tables.string, idxOf_of_begins hs (mem_enter _ _)]
  rfl

theorem testOperand_word (d : Draft) (c : CharTest CharClass)
    (h : (d.testOperand c).2.Within t) : (d.testOperand c).1 = (t.test c).word := by
  cases c with
  | set k =>
    have hs : (d.charClass k).2.classes.toList <+: t.classes := h.classes
    show (d.charClass k).1 = (capped (t.classes.idxOf k) : Int)
    rw [charClass_eq] at hs ⊢
    rw [idxOf_of_begins hs (mem_enter _ _)]
    rfl
  | _ => rfl

theorem slot_word (t : Tables) (n : Nat) : slot t.numbers n = t.slot n := by
  rw [slot, Tables.slot, List.idxOf_eq_getD_idxOf?]
  rfl

theorem slot?_word (t : Tables) (n : Option Nat) :
    slot? t.numbers n = Op.slotWord (n.map t.slot) := by
  cases n with
  | none => rfl
  | some n => exact slot_word t n

/-! ### What a tree writes -/

theorem testOperand_writes (d : Draft) (c : CharTest CharClass) :
    Writes d (d.testOperand c).2 [] := by
  cases c with
  | set k =>
    show Writes d (d.charClass k).2 []
    rw [charClass_eq]
    exact ⟨by simp, rfl⟩
  | _ => exact Writes.refl d

theorem string_writes (d : Draft) (cs : List Char) : Writes d (d.string cs).2 [] := by
  rw [string_eq]
  exact ⟨by simp, rfl⟩

theorem span_writes (t : Tables) (o : Options) (d : Draft) (lazy : Bool) (c : CharTest CharClass)
    (min max : Nat) (h : (d.leaf t.numbers o (.span lazy c min max)).Within t) :
    Writes d (d.leaf t.numbers o (.span lazy c min max)) (t.leafLines o (.span lazy c min max)) := by
  have hw := d.testOperand_word c ((span_keeps t.numbers o d lazy c min max).within h)
  have hrep := emitWord_writes (d.testOperand c).2
    ⟨.rep (t.test c) (capped min), o.rightToLeft, o.ignoreCase⟩
  have hspan := fun e : Draft => e.emitWord_writes
    ⟨.span lazy (t.test c) (capped (roundsLeft min max)), o.rightToLeft, o.ignoreCase⟩
  simp only [Line.head, Op.opcode, Op.operands, Tables.test_kind] at hrep hspan
  simp only [leaf, hw, Tables.leafLines]
  exact ((d.testOperand_writes c).trans (hrep.ite (0 < min))).trans ((hspan _).ite (min < max))

theorem leaf_writes (t : Tables) (o : Options) (d : Draft) (l : Leaf)
    (h : (d.leaf t.numbers o l).Within t) : Writes d (d.leaf t.numbers o l) (t.leafLines o l) := by
  cases l with
  | test c =>
    have hw := d.testOperand_word c ((emitWord_keeps _ _ _).within h)
    have hline := emitWord_writes (d.testOperand c).2 ⟨.test (t.test c), o.rightToLeft, o.ignoreCase⟩
    simp only [leaf, hw]
    simp only [Line.head, Op.opcode, Op.operands, Tables.test_kind] at hline
    exact (d.testOperand_writes c).trans hline
  | span lazy c min max => exact span_writes t o d lazy c min max h
  | multi cs =>
    have hw := d.string_word cs ((emitWord_keeps _ _ _).within h)
    have hline := emitWord_writes (d.string cs).2 ⟨.multi (t.string cs), o.rightToLeft, o.ignoreCase⟩
    simp only [leaf, hw]
    exact (d.string_writes cs).trans hline
  | ref n =>
    have hline := d.emitWord_writes ⟨.ref (t.slot n), o.rightToLeft, o.ignoreCase⟩
    simp only [leaf, slot_word]
    exact hline
  | assertion a => exact d.emit_writes (.assertion a)
  | nothing => exact d.emit_writes .nothing
  | empty => exact Writes.refl d

/-- A tree appends its lines, wherever it is written. -/
def Faithful (t : Tables) (n : Node) : Prop :=
  ∀ d : Draft, (d.node t.numbers n).Within t →
    Writes d (d.node t.numbers n) (t.translate d.pos n)

theorem faithful_capture (ih : Faithful t n) (o : Options)
    (number uncapture : Option Nat) : Faithful t (.wrap o (.capture number uncapture) n) := by
  intro d hw
  have hmark := d.emit_writes .setmark
  have hbody := ih (d.emit .setmark []) ((after_keeps _ _ _).within hw)
  have hcapture := emit_writes ((d.emit .setmark []).node t.numbers n)
    (.capturemark (number.map t.slot) (uncapture.map t.slot))
  rw [pos_emit] at hbody
  simp only [Op.operands, ← slot?_word] at hcapture
  exact (hmark.trans hbody).trans hcapture

theorem faithful_require (ih : Faithful t n) (o : Options) : Faithful t (.wrap o .require n) := by
  intro d hw
  have hhead := (d.emit_writes .setjump).trans (emit_writes _ .setmark)
  have hbody := ih ((d.emit .setjump []).emit .setmark []) ((after_keeps _ _ _).within hw)
  rw [pos_emit, pos_emit] at hbody
  exact (hhead.trans hbody).trans ((emit_writes _ .getmark).trans (emit_writes _ .forejump))

theorem faithful_greedy (ih : Faithful t n) (o : Options) : Faithful t (.wrap o .greedy n) := by
  intro d hw
  have hhead := d.emit_writes .setjump
  have hbody := ih (d.emit .setjump []) ((after_keeps _ _ _).within hw)
  rw [pos_emit] at hbody
  exact (hhead.trans hbody).trans (emit_writes _ .forejump)

theorem faithful_prevent (ih : Faithful t n) (o : Options) : Faithful t (.wrap o .prevent n) := by
  intro d hw
  have hhead := d.emit_writes .setjump
  have hbody := ih ((d.emit .setjump []).emitJump .lazybranch) ((after_keeps _ _ _).within hw)
  have hpos : ((d.emit .setjump []).emitJump .lazybranch).pos = d.pos + 3 := by simp
  rw [hpos] at hbody
  have hback := hbody.trans (emit_writes _ .backjump)
  have htarget := hback.pos
  rw [hpos, Line.extent_append, ← Nat.add_assoc] at htarget
  have hopen := writes_close hback
    (.lazybranch (d.pos + 3 + Line.extent (t.translate (d.pos + 3) n) + 1)) _ rfl
    (congrArg (fun p : Nat => [(p : Int)]) htarget.symm)
    (((patchHere_keeps _).trans (emit_keeps _ _ _)).within hw).size
  exact ((hhead.trans hopen).trans (emit_writes _ .forejump)).of_eq (by simp [Tables.translate])

/-- The body of a loop, whose beginning is kept, and the test after it. -/
theorem loopTest_writes (h : Writes (d.mark d.pos) e ls)
    (hle : d.pos ≤ unbounded) (lazy : Bool) (min max : Nat) : let l := loopTest lazy min max (capped e.top)
    Writes d (e.pop.emitWord l.head l.op.operands) (ls ++ [loopTest lazy min max d.pos]) := by
  obtain ⟨htop, hbody⟩ := writes_unmark h
  have hcapped : capped e.top = d.pos := by rw [htop]; exact Nat.min_eq_left hle
  simp only [hcapped]
  exact hbody.trans (e.pop.emitWord_writes _)

theorem pos_beforeLoop (d : Draft) (min max : Nat) :
    (d.beforeLoop min max).pos =
      d.pos + (loopHead min max).size + if min = 0 then Opcode.goto.size else 0 := by
  have hhead := (d.emitWord_writes (loopHead min max)).pos
  rw [beforeLoop_eq]
  split
  · exact (pos_emitJump _ _).trans (congrArg (· + 2) hhead)
  · exact hhead

/-- A loop around some lines. -/
theorem loop_writes (lazy : Bool) (min max : Nat)
    (h : Writes (d.beforeLoop min max) e ls) (hle : e.pos ≤ unbounded) :
    Writes d (e.afterLoop lazy min max)
      (loopHead min max :: (if min = 0 then [{ op := .goto e.pos }] else []) ++ ls ++
        [loopTest lazy min max (d.beforeLoop min max).pos]) := by
  have hhead := d.emitWord_writes (loopHead min max)
  have hpos := h.pos
  rw [beforeLoop_eq] at h hpos ⊢
  rw [afterLoop_eq]
  by_cases hmin : min = 0
  · simp only [if_pos hmin] at h hpos ⊢
    have htest := loopTest_writes h (by rw [pos_mark] at hpos; omega) lazy min max
    exact (hhead.trans (writes_close htest (.goto e.pos) _ rfl rfl hle)).of_eq (by simp)
  · simp only [if_neg hmin] at h hpos ⊢
    have htest := loopTest_writes h (by rw [pos_mark] at hpos; omega) lazy min max
    exact (hhead.trans htest).of_eq (by simp)

theorem faithful_loop (ih : Faithful t n) (o : Options) (lazy : Bool)
    (min max : Nat) : Faithful t (.wrap o (.loop lazy min max) n) := by
  intro d hw
  have hwithin := (after_keeps t.numbers _ (.loop lazy min max)).within hw
  have hbody := ih (d.beforeLoop min max) hwithin
  have hpos := hbody.pos
  have h := loop_writes lazy min max hbody hwithin.size
  rw [hpos, pos_beforeLoop] at h
  exact h

/-- A sequence writes its parts and nothing else. -/
theorem parts_cons_sequence {m : Many} (hm : m = .concatenate ∨ m = .group) (numbers : List Nat)
    (d : Draft) (count index : Nat) (n : Node) (ns : List Node) :
    d.parts numbers m count index (n :: ns) = (d.node numbers n).parts numbers m count (index + 1) ns := by
  rcases hm with rfl | rfl <;> rfl

theorem parts_sequence (m : Many) (hm : m = .concatenate ∨ m = .group) (count : Nat)
    (ns : List Node) (ih : ∀ n ∈ ns, Faithful t n) (d : Draft) (index : Nat)
    (hw : (d.parts t.numbers m count index ns).Within t) :
    Writes d (d.parts t.numbers m count index ns) (t.sequence d.pos ns) := by
  induction ns generalizing d index with
  | nil => exact (Writes.refl d).of_eq (by simp [Tables.sequence])
  | cons n ns ihn =>
    rw [parts_cons_sequence hm] at hw ⊢
    have hn := ih n (List.mem_cons_self ..) d (parts_within hw)
    have hns := ihn (fun x hx => ih x (List.mem_cons_of_mem n hx)) _ (index + 1) hw
    rw [hn.pos] at hns
    exact hn.trans hns

/-- The sizes of alternatives do not depend on where they go on. -/
theorem extent_alternatives (t : Tables) (a finish finish' : Nat) (ns : List Node) :
    Line.extent (t.alternatives a finish ns) = Line.extent (t.alternatives a finish' ns) := by
  induction ns generalizing a with
  | nil => rfl
  | cons n ns ih =>
    cases ns with
    | nil => rfl
    | cons m ns => simp [Tables.alternatives, ih]

/-- Alternatives from number `index` on. The jumps from the ends of those before them are open,
and are set together when the last is written. -/
theorem parts_alternate (ns : List Node) (hne : ns ≠ [])
    (ih : ∀ n ∈ ns, Faithful t n) (count index : Nat) (hcount : index + ns.length = count) (d : Draft)
    (hw : (d.parts t.numbers .alternate count index ns).Within t) :
    ∃ e, d.parts t.numbers .alternate count index ns = e.patchAllHere index ∧
      Writes d e (t.alternatives d.pos (d.pos + Line.extent (t.alternatives d.pos 0 ns)) ns) := by
  induction ns generalizing d index with
  | nil => exact absurd rfl hne
  | cons n ns ihn =>
    have hn := ih n (List.mem_cons_self ..)
    cases ns with
    | nil =>
      have hlast : ¬ index + 1 < count := by simp at hcount; omega
      simp only [parts, beforePart, afterPart, if_neg hlast] at hw ⊢
      exact ⟨_, rfl, hn d ((patchAllHere_keeps _ _).within hw)⟩
    | cons m ns =>
      have hmore : index + 1 < count := by simp at hcount; omega
      rw [parts, beforePart, afterPart, if_pos hmore, if_pos hmore] at hw ⊢
      have hbranch := parts_within hw
      have hbody := hn (d.emitJump .lazybranch) ((jumpPast_keeps _ _).within hbranch)
      have hpos := hbody.pos
      rw [pos_emitJump] at hbody hpos
      have hle := hbranch.size
      rw [show (jumpPast _ .goto).words.size = _ + 2 from pos_jumpPast _ .goto] at hle
      obtain ⟨f, hf, hfirst⟩ := jumpPast_writes .goto hbody hle
      rw [hf] at hw ⊢
      obtain ⟨e, he, hrest⟩ := ihn (List.cons_ne_nil m ns) (fun x hx => ih x (List.mem_cons_of_mem n hx))
        (index + 1) (by simp at hcount ⊢; omega) _ hw
      rw [he] at hw
      refine ⟨e.patchHere, he, ?_⟩
      have hlast := (patchAllHere_keeps e (index + 1)).within hw
      have hgoto := writes_close hrest (.goto e.pos) _ rfl rfl hlast.size
      have hnext : (f.emitJump .goto).pos =
          d.pos + 2 + Line.extent (t.translate (d.pos + 2) n) + 2 := by
        rw [pos_emitJump, hfirst.pos, Line.extent_cons, Line.size_lazybranch]
        omega
      have hfinish := hrest.pos
      rw [extent_alternatives t _ _ 0, hnext] at hfinish
      have hfinish' : d.pos + Line.extent (t.alternatives d.pos 0 (n :: m :: ns)) = e.pos := by
        rw [hfinish, Tables.alternatives]
        simp only [List.cons_append, Line.extent_cons, Line.extent_append, Line.size_lazybranch,
          Line.size_goto]
        omega
      refine (hfirst.trans hgoto).of_eq ?_
      rw [hfinish', hnext, ← hfinish, hpos, Tables.alternatives]

/-- The last part of a condition, which may be missing: the jump over it goes to its end. -/
theorem parts_otherwise {m : Many} {count index : Nat}
    (hbefore : ∀ d, beforePart t.numbers d m count index = d)
    (hafter : ∀ d, afterPart d m count index = d.patchHere) (no : List Node) (hno : no.length ≤ 1)
    (ih : ∀ n ∈ no, Faithful t n) (d : Draft)
    (hw : ((if no = [] then d.patchHere else d).parts t.numbers m count index no).Within t) :
    ∃ e, (if no = [] then d.patchHere else d).parts t.numbers m count index no = e.patchHere ∧
      e.Within t ∧ Writes d e (t.sequence d.pos no) := by
  match no with
  | [] => exact ⟨d, rfl, (patchHere_keeps d).within hw, (Writes.refl d).of_eq (by simp [Tables.sequence])⟩
  | [n] =>
    simp only [List.cons_ne_nil, if_false, parts, hbefore, hafter] at hw ⊢
    have hwithin := (patchHere_keeps _).within hw
    exact ⟨_, rfl, hwithin, (ih n (List.mem_singleton_self n) d hwithin).of_eq (by simp [Tables.sequence])⟩

/-- Two ways on: after a failure in the lines `ls` go on past the jump that follows them, and
after `ls` go on past the lines that follow that jump. -/
theorem choice_writes {x y : Draft} {ks : List Line}
    (hyes : Writes (d.emitJump .lazybranch) x ls) (hclear : Writes (x.jumpPast .goto) y ks)
    (hno : Writes y e ms) (hle : e.pos ≤ unbounded) :
    Writes d e.patchHere
      ({ op := .lazybranch (x.pos + 2) } :: ls ++ { op := .goto e.pos } :: (ks ++ ms)) := by
  have hrest := hclear.trans hno
  have hpos := hrest.pos
  rw [pos_jumpPast] at hpos
  obtain ⟨f, hf, hfirst⟩ := jumpPast_writes .goto hyes (by omega)
  rw [hf] at hrest
  exact hfirst.trans (writes_close hrest (.goto e.pos) _ rfl rfl hle)

theorem faithful_testref (o : Options) (n : Nat) (yes : Node) (no : List Node)
    (hno : no.length ≤ 1) (ih : ∀ x ∈ yes :: no, Faithful t x) :
    Faithful t (.many o (.testref n) (yes :: no)) := by
  intro d hw
  have hone : (yes :: no).length = 1 ↔ no = [] := by simp
  simp only [node, parts, beforePart, afterPart, slot_word, hone] at hw ⊢
  obtain ⟨e, he, hwithin, hothers⟩ := parts_otherwise (by intro; rfl) (by intro; rfl) no hno
    (fun x hx => ih x (List.mem_cons_of_mem yes hx)) _ hw
  rw [he]
  have hclear := ((patchHere_keeps _).ite _).within (parts_within hw)
  have hyes := ih yes (List.mem_cons_self ..) _ (((jumpPast_keeps _ _).trans (emit_keeps _ _ _)).within hclear)
  have htest := (((d.emit .setjump []).emitJump .lazybranch).emit_writes (.testref (t.slot n))).trans
    ((emit_writes _ .forejump).trans hyes)
  have h := (d.emit_writes .setjump).trans
    (choice_writes htest (emit_writes _ .forejump) hothers hwithin.size)
  rw [hothers.pos] at h
  simp only [pos_emit, pos_jumpPast, hyes.pos, pos_emitJump] at h
  exact h.of_eq (by simp [Tables.translate, Nat.add_assoc])

theorem faithful_testgroup (o : Options) (condition yes : Node) (no : List Node)
    (hno : no.length ≤ 1) (ih : ∀ x ∈ condition :: yes :: no, Faithful t x) :
    Faithful t (.many o .testgroup (condition :: yes :: no)) := by
  intro d hw
  have htwo : (condition :: yes :: no).length = 2 ↔ no = [] := by simp
  simp only [node, parts, beforePart, afterPart, htwo] at hw ⊢
  obtain ⟨e, he, hwithin, hothers⟩ := parts_otherwise (by intro; rfl) (by intro; rfl) no hno
    (fun x hx => ih x (List.mem_cons_of_mem _ (List.mem_cons_of_mem _ hx))) _ hw
  rw [he]
  have hclear := ((patchHere_keeps _).ite _).within (parts_within hw)
  have hwyes := ((jumpPast_keeps _ _).trans ((emit_keeps _ _ _).trans (emit_keeps _ _ _))).within hclear
  have hyes := ih yes (List.mem_cons_of_mem _ (List.mem_cons_self ..)) _ hwyes
  have hcondition := ih condition (List.mem_cons_self ..) _
    (((emit_keeps _ _ _).trans (emit_keeps _ _ _)).within (node_within hwyes))
  have htest := hcondition.trans ((emit_writes _ .getmark).trans ((emit_writes _ .forejump).trans hyes))
  have h := ((d.emit_writes .setjump).trans (emit_writes _ .setmark)).trans
    (choice_writes htest ((emit_writes _ .getmark).trans (emit_writes _ .forejump)) hothers hwithin.size)
  rw [hothers.pos] at h
  simp only [pos_emit, pos_jumpPast, hyes.pos, hcondition.pos, pos_emitJump] at h
  exact h.of_eq (by simp [Tables.translate, Nat.add_assoc])

/-- **Each subtree appends its translation and leaves the open jumps as they were.** -/
theorem node_writes (t : Tables) (n : Node) (hn : n.Everywhere Node.Shaped) : Faithful t n := by
  induction n with
  | leaf o l => exact fun d hw => leaf_writes t o d l hw
  | wrap o w n ih =>
    have ih := ih (Node.everywhere_wrap.mp hn).2
    cases w with
    | loop lazy min max => exact faithful_loop ih o lazy min max
    | capture number uncapture => exact faithful_capture ih o number uncapture
    | require => exact faithful_require ih o
    | prevent => exact faithful_prevent ih o
    | greedy => exact faithful_greedy ih o
  | many o m ns ih =>
    obtain ⟨hshape, hparts⟩ := Node.everywhere_many.mp hn
    have ih : ∀ n ∈ ns, Faithful t n := fun n hn => ih n hn (hparts n hn)
    cases m with
    | alternate =>
      intro d hw
      by_cases hne : ns = []
      · subst hne
        exact (Writes.refl d).of_eq (by simp [Tables.translate, Tables.alternatives])
      · obtain ⟨e, he, h⟩ := parts_alternate ns hne ih ns.length 0 (Nat.zero_add _) d hw
        rw [node, he]
        exact h
    | concatenate => exact fun d hw => parts_sequence _ (.inl rfl) _ ns ih d 0 hw
    | group => exact fun d hw => parts_sequence _ (.inr rfl) _ ns ih d 0 hw
    | testref k =>
      obtain ⟨yes, no, rfl, hno⟩ := hshape.testref
      exact faithful_testref o k yes no hno ih
    | testgroup =>
      obtain ⟨condition, yes, no, rfl, hno⟩ := hshape.testgroup
      exact faithful_testgroup o condition yes no hno ih

/-! ### Whole programs -/

/-- The draft of a tree, before the end of the program is known. -/
def ofTree (numbers : List Nat) (root : Node) : Draft :=
  (({} : Draft).emit .lazybranch [0]).node numbers root

theorem ofRoot_eq (numbers : List Nat) (root : Node) :
    ofRoot numbers root = ((ofTree numbers root).patch 0 (ofTree numbers root).pos).emit .stop [] := by
  simp only [ofRoot, walk_eq_node, ofTree]

theorem ofTree_keeps (numbers : List Nat) (root : Node) :
    Keeps (ofTree numbers root) (ofRoot numbers root) := by
  rw [ofRoot_eq]
  exact (patch_keeps _ _ _).trans (emit_keeps _ _ _)

/-- The tables of a program are those of its tree. -/
theorem ofRoot_tables (numbers : List Nat) (root : Node) :
    (ofRoot numbers root).strings.toList = (root.tables numbers).strings ∧
      (ofRoot numbers root).classes.toList = (root.tables numbers).classes := by
  have hkeeps := ofTree_keeps numbers root
  have hgrows := node_grows numbers root (({} : Draft).emit .lazybranch [0])
  rw [hkeeps.strings, hkeeps.classes]
  exact ⟨hgrows.strings.trans (foldl_enter_eraseDups [] _),
    hgrows.classes.trans (foldl_enter_eraseDups [] _)⟩

theorem ofTree_within (numbers : List Nat) (root : Node)
    (hsize : (ofRoot numbers root).words.size ≤ unbounded) :
    (ofTree numbers root).Within (root.tables numbers) := by
  obtain ⟨hstrings, hclasses⟩ := ofRoot_tables numbers root
  exact (ofTree_keeps numbers root).within
    ⟨hsize, hstrings ▸ List.prefix_refl _, hclasses ▸ List.prefix_refl _⟩

/-- **The words of a program are those of its translation.** -/
theorem ofRoot_words (numbers : List Nat) (root : Node) (hroot : root.Everywhere Node.Shaped)
    (hsize : (ofRoot numbers root).words.size ≤ unbounded) :
    (ofRoot numbers root).words.toList = Line.wordsOf ((root.tables numbers).program root) := by
  have hwithin := ofTree_within numbers root hsize
  have hbody := node_writes (root.tables numbers) root hroot _ hwithin
  have hwords : (ofTree numbers root).words.toList =
      ({ opcode := .lazybranch } : OpcodeWord).word :: 0 ::
        Line.wordsOf ((root.tables numbers).translate 2 root) := hbody.words
  have hpos : (ofTree numbers root).pos =
      2 + Line.extent ((root.tables numbers).translate 2 root) := hbody.pos
  have hstop := (emit_writes ((ofTree numbers root).patch 0 (ofTree numbers root).pos) .stop).words
  have htarget := wordOfNat_of_le (show (ofTree numbers root).pos ≤ unbounded from hwithin.size)
  rw [hpos] at htarget
  rw [ofRoot_eq]
  refine hstop.trans ?_
  simp [patch, hwords, htarget, hpos, Tables.program, Line.words, Line.head, Op.operands, Op.opcode]

end PatternCompiler.Draft

namespace PatternCompiler.Pattern

/-- **Lowering writes the translation of the tree**: the words are a jump to the end for when the
tree fails, the lines of the tree with every jump at the offset of its target, and the end; the
tables hold every literal and every class of the tree once. -/
theorem code_eq_translation (p : Pattern) (hroot : p.root.WellFormed p.table.numbers)
    (hsize : p.code.words.size < 2 ^ 31) :
    p.code.words.toList = Line.wordsOf ((p.root.tables p.table.numbers).program p.root) ∧
      p.code.strings.toList = (p.root.tables p.table.numbers).strings ∧
      p.code.classes.toList = (p.root.tables p.table.numbers).classes :=
  ⟨Draft.ofRoot_words p.table.numbers p.root (hroot.imp fun _ h => h.1) (Nat.le_of_lt_succ hsize),
    Draft.ofRoot_tables p.table.numbers p.root⟩

theorem code_eq_translation_choice :
    let o : Options := {}
    let p : Pattern :=
      { root := .wrap o (.capture (some 0) none) (.many o .concatenate
          [.many o .alternate [.wrap o (.loop true 0 2) (.leaf o (.multi ['a', 'b'])), .leaf o .empty],
            .wrap o (.capture (some 7) none) (.wrap o .prevent (.leaf o (.test (.one 'c')))),
            .many o (.testref 7) [.leaf o (.ref 7)],
            .many o .testgroup [.wrap o .require (.leaf o (.multi ['a', 'b'])), .leaf o .nothing]])
        table := { groups := [(0, 0), (7, 9)] }
        options := o
        culture := .invariant }
    p.root.WellFormed p.table.numbers ∧ p.code.words.size < 2 ^ 31 ∧
      p.code.words.toList = Line.wordsOf ((p.root.tables p.table.numbers).program p.root) :=
  ⟨by decide, by decide +kernel, (code_eq_translation _ (by decide) (by decide +kernel)).1⟩

end PatternCompiler.Pattern
