import PatternCompiler.Proofs.Acceptance
import PatternCompiler.Proofs.Encoding

/-! Jumps that are written before their target is known.

A construct leaves the list of open jumps as it found it, unless it is a condition that
is an expression and has no branch: nobody takes its jump off the list again
(`patches_node`). Where every condition has a branch, each jump gets its target when
the construct that wrote it ends, and as a target is behind the jump or the body of a
loop, it is never the first word of the program (`node_settles`). So no operation of
the decoded program leads back to its entry: `Pattern.jumps_patched`. -/
namespace PatternCompiler

namespace Draft

variable {d e : Draft}

/-! ### Targets that are set -/

/-- `d'` is `d` with some lines after it, none of which leads to the first word. -/
def Settles (d d' : Draft) : Prop := ∃ ls, Writes d d' ls ∧ ∀ l ∈ ls, l.op.target? ≠ some 0

namespace Settles

theorem refl (d : Draft) : Settles d d := ⟨[], Writes.refl d, nofun⟩

theorem trans {f : Draft} (h : Settles d e) (h' : Settles e f) : Settles d f := by
  obtain ⟨ls, hw, hls⟩ := h
  obtain ⟨ms, hw', hms⟩ := h'
  exact ⟨ls ++ ms, hw.trans hw', fun l hl => (List.mem_append.mp hl).elim (hls l) (hms l)⟩

theorem ite (h : Settles d e) (p : Prop) [Decidable p] : Settles d (if p then e else d) := by
  split
  · exact h
  · exact refl d

theorem line (d : Draft) (l : Line) (hl : l.op.target? ≠ some 0) :
    Settles d (d.emitWord l.head l.op.operands) :=
  ⟨[l], d.emitWord_writes l, by simpa using hl⟩

theorem line_of_none (d : Draft) (l : Line) (hl : l.op.target? = none) :
    Settles d (d.emitWord l.head l.op.operands) :=
  line d l (by simp [hl])

theorem emit (d : Draft) (op : Op) (hop : op.target? = none) : Settles d (d.emit op.opcode op.operands) :=
  line_of_none d { op } hop

theorem patches (h : Settles d e) : e.patches = d.patches := by
  obtain ⟨ls, hw, _⟩ := h
  exact hw.patches

theorem pos_le (h : Settles d e) : d.pos ≤ e.pos := by
  obtain ⟨ls, hw, _⟩ := h
  have := hw.pos
  omega

end Settles

theorem patch_capped (d : Draft) (offset target : Nat) :
    d.patch offset (capped target) = d.patch offset target := by
  simp [patch, wordOfNat, capped]

theorem capped_ne_zero {n : Nat} (h : 0 < n) : capped n ≠ 0 := by
  simp only [capped, unbounded]
  omega

/-- An open jump is closed by a target that is not the first word. -/
theorem Settles.close {c : Opcode} (h : Settles (d.emitJump c) e) (hc : c = .lazybranch ∨ c = .goto)
    {target : Nat} (htarget : 0 < target) : Settles d (e.pop.patch e.top target) := by
  obtain ⟨ls, hw, hls⟩ := h
  have hne := capped_ne_zero htarget
  have hle : capped target ≤ unbounded := Nat.min_le_right ..
  rw [← patch_capped]
  rcases hc with rfl | rfl
  · exact ⟨_, writes_close hw (.lazybranch (capped target)) _ rfl rfl hle,
      List.forall_mem_cons.mpr ⟨by simpa [Op.target?] using hne, hls⟩⟩
  · exact ⟨_, writes_close hw (.goto (capped target)) _ rfl rfl hle,
      List.forall_mem_cons.mpr ⟨by simpa [Op.target?] using hne, hls⟩⟩

theorem Settles.patchHere {c : Opcode} (h : Settles (d.emitJump c) e) (hc : c = .lazybranch ∨ c = .goto) :
    Settles d e.patchHere := by
  have hpos := h.pos_le
  rw [pos_emitJump] at hpos
  exact h.close hc (by omega)

theorem Settles.jumpPast (h : Settles (d.emitJump .lazybranch) e) (c : Opcode) :
    ∃ f, e.jumpPast c = f.emitJump c ∧ Settles d f := by
  have htop : e.top = d.pos := by rw [top, h.patches]; rfl
  have hpos := h.pos_le
  rw [pos_emitJump] at hpos
  exact ⟨_, jumpPast_eq e c (by omega), h.close (.inl rfl) (by omega)⟩

/-! ### Leaves -/

theorem testOperand_settles (d : Draft) (c : CharTest CharClass) :
    ∃ c' : CharTest Nat, c'.kind = c.kind ∧ (d.testOperand c).1 = c'.word ∧
      Settles d (d.testOperand c).2 := by
  have hsettles : Settles d (d.testOperand c).2 := ⟨[], d.testOperand_writes c, nofun⟩
  cases c with
  | one c => exact ⟨.one c, rfl, rfl, hsettles⟩
  | notone c => exact ⟨.notone c, rfl, rfl, hsettles⟩
  | set k =>
    refine ⟨.set (capped ((enter d.classes.toList k).idxOf k)), rfl, ?_, hsettles⟩
    exact congrArg Prod.fst (charClass_eq d k)

theorem leaf_settles (numbers : List Nat) (o : Options) (d : Draft) (l : Leaf) :
    Settles d (d.leaf numbers o l) := by
  cases l with
  | test c =>
    obtain ⟨c', hkind, hword, hc⟩ := d.testOperand_settles c
    have hline := Settles.line_of_none (d.testOperand c).2 ⟨.test c', o.rightToLeft, o.ignoreCase⟩ rfl
    simp only [Line.head, Op.opcode, Op.operands, hkind, ← hword] at hline
    exact hc.trans hline
  | span lazy c min max =>
    obtain ⟨c', hkind, hword, hc⟩ := d.testOperand_settles c
    have hrep (e : Draft) := Settles.line_of_none e ⟨.rep c' (capped min), o.rightToLeft, o.ignoreCase⟩ rfl
    have hspan (e : Draft) :=
      Settles.line_of_none e ⟨.span lazy c' (capped (roundsLeft min max)), o.rightToLeft, o.ignoreCase⟩ rfl
    simp only [Line.head, Op.opcode, Op.operands, hkind, ← hword] at hrep hspan
    exact (hc.trans ((hrep _).ite (0 < min))).trans ((hspan _).ite (min < max))
  | multi cs =>
    have hstring : Settles d (d.string cs).2 := ⟨[], d.string_writes cs, List.forall_mem_nil _⟩
    have hline := Settles.line_of_none (d.string cs).2
      ⟨.multi (capped ((enter d.strings.toList cs).idxOf cs)), o.rightToLeft, o.ignoreCase⟩ rfl
    have hword : (d.string cs).1 = (capped ((enter d.strings.toList cs).idxOf cs) : Nat) :=
      congrArg Prod.fst (string_eq d cs)
    simp only [Line.head, Op.opcode, Op.operands, ← hword] at hline
    exact hstring.trans hline
  | ref n =>
    exact Settles.line_of_none d ⟨.ref (capped ((numbers.idxOf? n).getD numbers.length)), o.rightToLeft, o.ignoreCase⟩ rfl
  | assertion a => exact Settles.emit d (.assertion a) rfl
  | nothing => exact Settles.emit d .nothing rfl
  | empty => exact .refl d

/-! ### Constructs around one part -/

/-- The body of a loop, whose beginning is kept, and the test after it. -/
theorem loopTest_settles (hpos : 0 < d.pos) (h : Settles (d.mark d.pos) e) (lazy : Bool) (min max : Nat) :
    let l := loopTest lazy min max (capped e.top)
    Settles d (e.pop.emitWord l.head l.op.operands) := by
  obtain ⟨ls, hw, hls⟩ := h
  obtain ⟨htop, hbody⟩ := writes_unmark hw
  refine Settles.trans ⟨ls, hbody, hls⟩ (Settles.line _ _ ?_)
  rw [Tables.loopTest_target, htop]
  exact fun heq => capped_ne_zero hpos (Option.some_inj.mp heq)

theorem loop_settles (lazy : Bool) (min max : Nat) (h : Settles (d.beforeLoop min max) e) :
    Settles d (e.afterLoop lazy min max) := by
  have hhead := Settles.line d (loopHead min max) (by simp [Tables.loopHead_target])
  have hfirst : 0 < (d.emitWord (loopHead min max).head (loopHead min max).op.operands).pos := by
    rw [pos, emitWord, Array.size_append, Array.size_push]
    omega
  have hpos := h.pos_le
  rw [beforeLoop_eq] at h hpos
  rw [afterLoop_eq]
  by_cases hmin : min = 0
  · simp only [if_pos hmin] at h hpos ⊢
    have hbody := Nat.lt_of_lt_of_le hfirst (Nat.le_trans (Nat.le_add_right _ 2) (pos_emitJump _ .goto).ge)
    have htest := loopTest_settles hbody h lazy min max
    exact hhead.trans (htest.close (.inr rfl) (Nat.lt_of_lt_of_le hbody hpos))
  · simp only [if_neg hmin] at h ⊢
    exact hhead.trans (loopTest_settles hfirst h lazy min max)

/-- A tree appends lines that do not lead to the first word, wherever it is written. -/
def Settled (numbers : List Nat) (n : Node) : Prop := ∀ d : Draft, Settles d (d.node numbers n)

variable {numbers : List Nat}

theorem wrap_settled {n : Node} (ih : Settled numbers n) (o : Options) (w : Wrap) :
    Settled numbers (.wrap o w n) := by
  intro d
  cases w with
  | loop lazy min max => exact loop_settles lazy min max (ih _)
  | capture number uncapture =>
    let t : Tables := ⟨numbers, [], []⟩
    have hcapture (e : Draft) :=
      Settles.emit e (.capturemark (number.map t.slot) (uncapture.map t.slot)) rfl
    simp only [Op.operands, ← slot?_word] at hcapture
    exact ((Settles.emit d .setmark rfl).trans (ih _)).trans (hcapture _)
  | require =>
    have hhead := (Settles.emit d .setjump rfl).trans (Settles.emit _ .setmark rfl)
    exact (hhead.trans (ih _)).trans ((Settles.emit _ .getmark rfl).trans (Settles.emit _ .forejump rfl))
  | prevent =>
    have hbody := (ih ((d.emit .setjump []).emitJump .lazybranch)).trans (Settles.emit _ .backjump rfl)
    exact (Settles.emit d .setjump rfl).trans
      ((hbody.patchHere (.inl rfl)).trans (Settles.emit _ .forejump rfl))
  | greedy => exact ((Settles.emit d .setjump rfl).trans (ih _)).trans (Settles.emit _ .forejump rfl)

/-! ### Constructs over several parts -/

theorem parts_settle_sequence (m : Many) (hm : m = .concatenate ∨ m = .group) (count : Nat) (ns : List Node)
    (ih : ∀ n ∈ ns, Settled numbers n) (d : Draft) (index : Nat) :
    Settles d (d.parts numbers m count index ns) := by
  induction ns generalizing d index with
  | nil => exact .refl d
  | cons n ns ihn =>
    rw [parts_cons_sequence hm]
    exact (ih n (List.mem_cons_self ..) d).trans
      (ihn (fun x hx => ih x (List.mem_cons_of_mem n hx)) _ (index + 1))

/-- Alternatives from number `index` on. The jumps from the ends of those before them are open,
and are set together when the last is written. -/
theorem parts_settle_alternate (ns : List Node) (hne : ns ≠ []) (ih : ∀ n ∈ ns, Settled numbers n)
    (count index : Nat) (hcount : index + ns.length = count) (d : Draft) :
    ∃ e, d.parts numbers .alternate count index ns = e.patchAllHere index ∧ Settles d e := by
  induction ns generalizing d index with
  | nil => exact absurd rfl hne
  | cons n ns ihn =>
    have hn := ih n (List.mem_cons_self ..)
    rw [List.length_cons] at hcount
    cases ns with
    | nil =>
      have hlast : ¬ index + 1 < count := by
        rw [← hcount]
        exact Nat.lt_irrefl _
      simp only [parts, beforePart, afterPart, if_neg hlast]
      exact ⟨_, rfl, hn d⟩
    | cons m ns =>
      rw [List.length_cons] at hcount
      have hmore : index + 1 < count := by omega
      rw [parts, beforePart, afterPart, if_pos hmore, if_pos hmore]
      obtain ⟨f, hf, hfirst⟩ := (hn (d.emitJump .lazybranch)).jumpPast .goto
      rw [hf]
      obtain ⟨e, he, hrest⟩ := ihn (List.cons_ne_nil m ns) (fun x hx => ih x (List.mem_cons_of_mem n hx))
        (index + 1) (by simp at hcount ⊢; omega) (f.emitJump .goto)
      exact ⟨e.patchHere, he, hfirst.trans (hrest.patchHere (.inr rfl))⟩

/-- The branch of a condition, past its jump over the other branch, and that one, if there is one. -/
theorem choice_settles {m : Many} {count index : Nat} {x y : Draft}
    (hbefore : ∀ d, beforePart numbers d m count index = d)
    (hafter : ∀ d, afterPart d m count index = d.patchHere) (no : List Node) (hno : no.length ≤ 1)
    (ih : ∀ n ∈ no, Settled numbers n) (hyes : Settles (d.emitJump .lazybranch) x)
    (hclear : Settles (x.jumpPast .goto) y) :
    Settles d ((if no = [] then y.patchHere else y).parts numbers m count index no) := by
  obtain ⟨f, hf, hfirst⟩ := hyes.jumpPast .goto
  rw [hf] at hclear
  match no with
  | [] => exact hfirst.trans (hclear.patchHere (.inr rfl))
  | [n] =>
    simp only [List.cons_ne_nil, if_false, parts, hbefore, hafter]
    exact hfirst.trans ((hclear.trans (ih n (List.mem_singleton_self n) y)).patchHere (.inr rfl))

theorem testref_settled (o : Options) (n : Nat) (yes : Node) (no : List Node) (hno : no.length ≤ 1)
    (ih : ∀ x ∈ yes :: no, Settled numbers x) : Settled numbers (.many o (.testref n) (yes :: no)) := by
  intro d
  have hone : (yes :: no).length = 1 ↔ no = [] := by simp
  simp only [node, parts, beforePart, afterPart, hone]
  have htest := (Settles.emit ((d.emit .setjump []).emitJump .lazybranch)
    (.testref (capped ((numbers.idxOf? n).getD numbers.length))) rfl).trans
      ((Settles.emit _ .forejump rfl).trans (ih yes (List.mem_cons_self ..) _))
  exact (Settles.emit d .setjump rfl).trans
    (choice_settles (by intro; rfl) (by intro; rfl) no hno (fun x hx => ih x (List.mem_cons_of_mem yes hx))
      htest (Settles.emit _ .forejump rfl))

theorem testgroup_settled (o : Options) (condition yes : Node) (no : List Node) (hno : no.length ≤ 1)
    (ih : ∀ x ∈ condition :: yes :: no, Settled numbers x) :
    Settled numbers (.many o .testgroup (condition :: yes :: no)) := by
  intro d
  have htwo : (condition :: yes :: no).length = 2 ↔ no = [] := by simp
  simp only [node, parts, beforePart, afterPart, htwo]
  have htest := (ih condition (List.mem_cons_self ..)
      (((d.emit .setjump []).emit .setmark []).emitJump .lazybranch)).trans
    ((Settles.emit _ .getmark rfl).trans ((Settles.emit _ .forejump rfl).trans
      (ih yes (List.mem_cons_of_mem _ (List.mem_cons_self ..)) _)))
  exact ((Settles.emit d .setjump rfl).trans (Settles.emit _ .setmark rfl)).trans
    (choice_settles (by intro; rfl) (by intro; rfl) no hno
      (fun x hx => ih x (List.mem_cons_of_mem _ (List.mem_cons_of_mem _ hx))) htest
      ((Settles.emit _ .getmark rfl).trans (Settles.emit _ .forejump rfl)))

/-- **Each subtree sets the targets of all its jumps**, none of them to the first word, and leaves the
open jumps as they were. -/
theorem node_settles (numbers : List Nat) (n : Node) (hn : n.Everywhere Node.Shaped) : Settled numbers n := by
  induction n with
  | leaf o l => exact fun d => leaf_settles numbers o d l
  | wrap o w n ih => exact wrap_settled (ih (Node.everywhere_wrap.mp hn).2) o w
  | many o m ns ih =>
    obtain ⟨hshape, hparts⟩ := Node.everywhere_many.mp hn
    have ih : ∀ n ∈ ns, Settled numbers n := fun n hn => ih n hn (hparts n hn)
    cases m with
    | alternate =>
      intro d
      by_cases hne : ns = []
      · subst hne
        exact .refl d
      · obtain ⟨e, he, h⟩ := parts_settle_alternate ns hne ih ns.length 0 (Nat.zero_add _) d
        rw [node, he]
        exact h
    | concatenate => exact fun d => parts_settle_sequence _ (.inl rfl) _ ns ih d 0
    | group => exact fun d => parts_settle_sequence _ (.inr rfl) _ ns ih d 0
    | testref k =>
      obtain ⟨yes, no, rfl, hno⟩ := hshape.testref
      exact testref_settled o k yes no hno ih
    | testgroup =>
      obtain ⟨condition, yes, no, rfl, hno⟩ := hshape.testgroup
      exact testgroup_settled o condition yes no hno ih

end Draft

namespace Node

/-- The number of conditions in a tree that are expressions and have no branch. -/
def strays (n : Node) : Nat := n.subtrees.countP fun s => !decide s.Branched

@[simp] theorem strays_leaf (o : Options) (l : Leaf) : (leaf o l).strays = 0 := rfl

@[simp] theorem strays_wrap (o : Options) (w : Wrap) (n : Node) : (wrap o w n).strays = n.strays := rfl

theorem countP_subtreesOf (p : Node → Bool) (ns : List Node) :
    (subtreesOf ns).countP p = (ns.map fun n => n.subtrees.countP p).sum := by
  induction ns with
  | nil => rfl
  | cons n ns ih => rw [subtreesOf, List.countP_append, ih, List.map_cons, List.sum_cons]

theorem strays_many {o : Options} {m : Many} {ns : List Node} (h : (many o m ns).Branched) :
    (many o m ns).strays = (ns.map strays).sum := by
  rw [strays, subtrees, List.countP_cons, countP_subtreesOf, if_neg (by simp [h])]
  rfl

theorem strays_condition (o : Options) (n : Node) : (many o .testgroup [n]).strays = n.strays + 1 := by
  rw [strays, subtrees, List.countP_cons, countP_subtreesOf, if_pos (by simp [Branched]), List.map_singleton,
    List.sum_singleton]
  rfl

theorem strays_eq_zero_iff {n : Node} : n.strays = 0 ↔ n.Everywhere Branched := by
  simp [strays, List.countP_eq_zero, Everywhere]

end Node

namespace Draft

variable {numbers : List Nat}

/-! ### Jumps that stay open -/

@[simp] theorem patches_emit (d : Draft) (c : Opcode) (ws : List Int) : (d.emit c ws).patches = d.patches :=
  rfl

@[simp] theorem patches_emitJump (d : Draft) (c : Opcode) : (d.emitJump c).patches = d.pos :: d.patches := rfl

@[simp] theorem patches_patchHere (d : Draft) : d.patchHere.patches = d.patches.drop 1 := rfl

@[simp] theorem patches_jumpPast (d : Draft) (c : Opcode) :
    (d.jumpPast c).patches = d.pos :: d.patches.drop 1 := rfl

@[simp] theorem patches_patchAllHere (d : Draft) (n : Nat) :
    (d.patchAllHere n).patches = d.patches.drop n := by
  induction n generalizing d with
  | zero => rfl
  | succ n ih => rw [patchAllHere, ih, patches_patchHere, List.drop_drop, Nat.add_comm]

/-- What a construct around one part keeps in the list before its part, it takes off after it. -/
theorem after_patches_length (d e : Draft) (w : Wrap) (k : Nat)
    (h : e.patches.length = (d.before w).patches.length + k) :
    (e.after numbers w).patches.length = d.patches.length + k := by
  cases w with
  | loop lazy min max =>
    rw [before, beforeLoop_eq] at h
    rw [after, afterLoop_eq]
    by_cases hmin : min = 0
    · simp only [if_pos hmin, emitWord, mark, emitJump, emit, List.length_cons] at h
      simp only [if_pos hmin, pop, patch, emitWord, List.length_drop]
      omega
    · simp only [if_neg hmin, emitWord, mark, List.length_cons] at h
      simp only [if_neg hmin, pop, emitWord, List.length_drop]
      omega
  | prevent =>
    simp only [before, patches_emitJump, patches_emit, List.length_cons] at h
    simp only [after, patches_emit, patches_patchHere, List.length_drop]
    omega
  | capture | require | greedy => exact h

/-- Writing the tree adds as many open jumps as it has conditions without a branch. -/
def Adds (numbers : List Nat) (n : Node) : Prop :=
  ∀ d : Draft, (d.node numbers n).patches.length = d.patches.length + n.strays

theorem parts_length_sequence (m : Many) (hm : m = .concatenate ∨ m = .group) (count : Nat) (ns : List Node)
    (ih : ∀ n ∈ ns, Adds numbers n) (d : Draft) (index : Nat) :
    (d.parts numbers m count index ns).patches.length = d.patches.length + (ns.map Node.strays).sum := by
  induction ns generalizing d index with
  | nil => rfl
  | cons n ns ihn =>
    rw [parts_cons_sequence hm, ihn (fun x hx => ih x (List.mem_cons_of_mem n hx)), ih n (List.mem_cons_self ..),
      List.map_cons, List.sum_cons, Nat.add_assoc]

/-- The jumps from the ends of the alternatives before number `index` are taken off together. -/
theorem parts_length_alternate (ns : List Node) (hne : ns ≠ []) (ih : ∀ n ∈ ns, Adds numbers n)
    (count index : Nat) (hcount : index + ns.length = count) (d : Draft) (hindex : index ≤ d.patches.length) :
    (d.parts numbers .alternate count index ns).patches.length + index =
      d.patches.length + (ns.map Node.strays).sum := by
  induction ns generalizing d index with
  | nil => exact absurd rfl hne
  | cons n ns ihn =>
    have hn := ih n (List.mem_cons_self ..)
    rw [List.length_cons] at hcount
    cases ns with
    | nil =>
      have hlast : ¬ index + 1 < count := by
        rw [← hcount]
        exact Nat.lt_irrefl _
      simp only [parts, beforePart, afterPart, if_neg hlast, patches_patchAllHere, List.length_drop, hn d,
        List.map_cons, List.map_nil, List.sum_cons, List.sum_nil]
      omega
    | cons m ns =>
      rw [List.length_cons] at hcount
      have hmore : index + 1 < count := by omega
      rw [parts, beforePart, afterPart, if_pos hmore, if_pos hmore]
      have hbranch := hn (d.emitJump .lazybranch)
      rw [patches_emitJump, List.length_cons] at hbranch
      have hrest := ihn (List.cons_ne_nil m ns) (fun x hx => ih x (List.mem_cons_of_mem n hx)) (index + 1)
        (by rw [List.length_cons]; omega) (((d.emitJump .lazybranch).node numbers n).jumpPast .goto)
        (by rw [patches_jumpPast, List.length_cons, List.length_drop]; omega)
      simp only [patches_jumpPast, List.length_cons, List.length_drop, List.map_cons, List.sum_cons] at hrest ⊢
      omega

/-- The jump over the other branch of a condition is taken off after that branch, if there is one. -/
theorem choice_patches_length {m : Many} {count index : Nat}
    (hbefore : ∀ d, beforePart numbers d m count index = d)
    (hafter : ∀ d, afterPart d m count index = d.patchHere) (no : List Node) (hno : no.length ≤ 1)
    (ih : ∀ n ∈ no, Adds numbers n) {x y : Draft} {k : Nat} (hyes : x.patches.length = k + 1)
    (hclear : y.patches = (x.jumpPast .goto).patches) :
    ((if no = [] then y.patchHere else y).parts numbers m count index no).patches.length =
      k + (no.map Node.strays).sum := by
  have hopen : y.patches.length = k + 1 := by
    rw [hclear, patches_jumpPast, List.length_cons, List.length_drop, hyes, Nat.add_sub_cancel]
  match no with
  | [] =>
    rw [if_pos rfl, parts, patches_patchHere, List.length_drop, hopen]
    rfl
  | [n] =>
    rw [if_neg (List.cons_ne_nil n []), parts, parts, hbefore, hafter, patches_patchHere, List.length_drop,
      ih n (List.mem_singleton_self n), hopen, List.map_singleton, List.sum_singleton]
    omega

theorem testref_adds (o : Options) (n : Nat) (yes : Node) (no : List Node) (hno : no.length ≤ 1)
    (ih : ∀ x ∈ yes :: no, Adds numbers x) : Adds numbers (.many o (.testref n) (yes :: no)) := by
  intro d
  have hone : (yes :: no).length = 1 ↔ no = [] := by simp
  have hyes (e : Draft) := ih yes (List.mem_cons_self ..) e
  have hbranched : (Node.many o (.testref n) (yes :: no)).Branched := trivial
  rw [Node.strays_many hbranched, List.map_cons, List.sum_cons, ← Nat.add_assoc]
  simp only [node, parts, beforePart, afterPart, hone]
  refine choice_patches_length (by intro; rfl) (by intro; rfl) no hno
    (fun x hx => ih x (List.mem_cons_of_mem yes hx)) ((hyes _).trans ?_) rfl
  simp only [patches_emit, patches_emitJump, List.length_cons]
  omega

theorem testgroup_adds (o : Options) (condition yes : Node) (no : List Node) (hno : no.length ≤ 1)
    (ih : ∀ x ∈ condition :: yes :: no, Adds numbers x) :
    Adds numbers (.many o .testgroup (condition :: yes :: no)) := by
  intro d
  have htwo : (condition :: yes :: no).length = 2 ↔ no = [] := by simp
  have hcondition (e : Draft) := ih condition (List.mem_cons_self ..) e
  have hyes (e : Draft) := ih yes (List.mem_cons_of_mem _ (List.mem_cons_self ..)) e
  have hbranched : (Node.many o .testgroup (condition :: yes :: no)).Branched := by simp [Node.Branched]
  rw [Node.strays_many hbranched, List.map_cons, List.sum_cons, List.map_cons, List.sum_cons, ← Nat.add_assoc,
    ← Nat.add_assoc]
  simp only [node, parts, beforePart, afterPart, htwo]
  refine choice_patches_length (by intro; rfl) (by intro; rfl) no hno
    (fun x hx => ih x (List.mem_cons_of_mem _ (List.mem_cons_of_mem _ hx))) ((hyes _).trans ?_) rfl
  simp only [patches_emit, hcondition, patches_emitJump, List.length_cons]
  omega

/-- Without a branch nobody takes the jump of a condition off the list. -/
theorem testgroup_adds_one (o : Options) (condition : Node) (ih : Adds numbers condition) :
    Adds numbers (.many o .testgroup [condition]) := by
  intro d
  have hcondition (e : Draft) := ih e
  rw [Node.strays_condition, ← Nat.add_assoc]
  simp only [node, parts, beforePart, afterPart, patches_emit, hcondition, patches_emitJump, List.length_cons]
  omega

/-- **A tree of a pattern leaves the list of open jumps as it was**, but for one jump of each condition
that is an expression and has no branch. -/
theorem node_patches_length (numbers : List Nat) {t : GroupTable} {next : Nat} (n : Node)
    (hn : n.Everywhere (Node.Sound t next)) : Adds numbers n := by
  induction n with
  | leaf o l => exact fun d => congrArg List.length (leaf_settles numbers o d l).patches
  | wrap o w n ih => exact fun d => after_patches_length d _ w _ (ih (Node.everywhere_wrap.mp hn).2 _)
  | many o m ns ih =>
    obtain ⟨hshape, hparts⟩ := Node.everywhere_many.mp hn
    have ih : ∀ n ∈ ns, Adds numbers n := fun n hn => ih n hn (hparts n hn)
    cases m with
    | alternate =>
      have hbranched : (Node.many o .alternate ns).Branched := trivial
      intro d
      rw [Node.strays_many hbranched]
      by_cases hne : ns = []
      · subst hne
        rfl
      · exact parts_length_alternate ns hne ih ns.length 0 (Nat.zero_add _) d (Nat.zero_le _)
    | concatenate =>
      have hbranched : (Node.many o .concatenate ns).Branched := trivial
      intro d
      rw [Node.strays_many hbranched]
      exact parts_length_sequence _ (.inl rfl) _ ns ih d 0
    | group =>
      have hbranched : (Node.many o .group ns).Branched := trivial
      intro d
      rw [Node.strays_many hbranched]
      exact parts_length_sequence _ (.inr rfl) _ ns ih d 0
    | testref k =>
      match ns, hshape with
      | yes :: no, ⟨_, _, hno⟩ => exact testref_adds o k yes no (Nat.le_of_succ_le_succ hno) ih
    | testgroup =>
      match ns, hshape with
      | [condition], _ => exact testgroup_adds_one o condition (ih condition (List.mem_singleton_self _))
      | condition :: yes :: no, ⟨_, hno⟩ =>
        exact testgroup_adds o condition yes no (Nat.le_of_succ_le_succ (Nat.le_of_succ_le_succ hno)) ih

/-! ### Whole programs -/

/-- The words of a program are lines that do not lead to the first word. -/
theorem ofRoot_settles (numbers : List Nat) (root : Node) (hroot : root.Everywhere Node.Shaped) :
    ∃ ls, (ofRoot numbers root).words.toList = Line.wordsOf ls ∧ ls ≠ [] ∧
      ∀ l ∈ ls, l.op.target? ≠ some 0 := by
  obtain ⟨ls, hw, hls⟩ := node_settles numbers root hroot (({} : Draft).emit .lazybranch [0])
  have hpos : 0 < (ofTree numbers root).pos := by
    rw [ofTree, hw.pos, pos_emit]
    omega
  have hwords : (ofTree numbers root).words.toList =
      ({ opcode := .lazybranch } : OpcodeWord).word :: 0 :: Line.wordsOf ls := hw.words
  have hstop := (emit_writes ((ofTree numbers root).patch 0 (ofTree numbers root).pos) .stop).words
  refine ⟨{ op := .lazybranch (capped (ofTree numbers root).pos) } :: ls ++ [{ op := .stop }], ?_,
    by simp, ?_⟩
  · rw [ofRoot_eq]
    refine hstop.trans ?_
    simp [patch, hwords, Line.words, Line.head, Op.operands, Op.opcode, wordOfNat, capped]
  · have hentry := capped_ne_zero hpos
    intro l hl
    simp only [List.cons_append, List.mem_cons, List.mem_append, List.not_mem_nil, or_false] at hl
    rcases hl with rfl | hl | rfl
    · simpa [Op.target?] using hentry
    · exact hls l hl
    · rintro ⟨⟩

theorem ofRoot_patches (numbers : List Nat) (root : Node) :
    (ofRoot numbers root).patches = (ofTree numbers root).patches := by
  rw [ofRoot_eq]
  rfl

end Draft

/-- Only the first word leads to the first operation. -/
theorem Line.idxOf_offsets_ne_zero {ls : List Line} (hne : ls ≠ []) {x : Nat} (hx : x ≠ 0) :
    (offsets 0 ls).idxOf x ≠ 0 := by
  obtain ⟨l, rest, rfl⟩ := List.exists_cons_of_ne_nil hne
  rw [offsets, List.idxOf_cons_ne _ (Ne.symm hx)]
  exact Nat.succ_ne_zero _

namespace Pattern

variable {o : Options} {culture : Culture} {p : Pattern}

/-- **Which jumps get their target.** After the whole tree there are as many open jumps as it has
conditions that are expressions and come without a branch. If there are none, every jump has a target
that is not the first word, and no operation of the program leads back to its entry. -/
theorem jumps_patched {text : String} (h : parse text o culture = .ok p) :
    (Draft.ofRoot p.table.numbers p.root).patches.length = p.root.strays ∧
      (p.root.Everywhere Node.Branched →
        (Draft.ofRoot p.table.numbers p.root).patches = [] ∧
          (∃ ls, p.code.words.toList = Line.wordsOf ls ∧ ∀ l ∈ ls, l.op.target? ≠ some 0) ∧
          ∀ program, p.program = .ok program → ∀ op ∈ program.operations, op.op.target? ≠ some 0) := by
  obtain ⟨culture', hread⟩ := parse_read h
  obtain ⟨_, r, hrun, hfinish, hholds⟩ := read_sound hread
  obtain ⟨o', body, hroot, hbody, hzero⟩ := read_root hread hfinish hholds
  have hlength : (Draft.ofRoot p.table.numbers p.root).patches.length = p.root.strays := by
    have hadds := Draft.node_patches_length p.table.numbers body hbody
    rw [Draft.ofRoot_patches, Draft.ofTree, hroot, Node.strays_wrap]
    exact (Draft.after_patches_length _ _ _ _ (hadds _)).trans (Nat.zero_add _)
  refine ⟨hlength, fun hbranched => ?_⟩
  have hshaped : p.root.Everywhere Node.Shaped := by
    rw [hroot, Node.everywhere_wrap] at hbranched ⊢
    exact ⟨trivial, fun s hs => (hbody s hs).shaped (hbranched.2 s hs)⟩
  obtain ⟨ls, hwords, hne, hls⟩ := Draft.ofRoot_settles p.table.numbers p.root hshaped
  have hreads := Line.program_reads p.code ls hne hwords
  refine ⟨?_, ⟨ls, hwords, hls⟩, fun program hprogram op hop htarget => ?_⟩
  · rw [Node.strays_eq_zero_iff.mpr hbranched] at hlength
    exact List.length_eq_zero_iff.mp hlength
  · have hprogram' := hreads.ok (hreads.isOk_iff.mp ⟨program, hprogram⟩)
    cases Except.ok.inj (hprogram.symm.trans hprogram')
    obtain ⟨l, hl, hop⟩ := Line.exists_of_mem_operations (List.mem_toArray.mp hop)
    rw [hop, Op.target?_retarget] at htarget
    obtain ⟨x, hx, hfirst⟩ := Option.map_eq_some_iff.mp htarget
    exact Line.idxOf_offsets_ne_zero hne (fun hzero => hls l hl (hzero ▸ hx)) hfirst

theorem jumps_patched_nested :
    ∃ p program, parse "(?:(?(?=a)b|c)|(?:x(?!y))*?)+" {} .invariant = .ok p ∧
      p.root.Everywhere Node.Branched ∧ (Draft.ofRoot p.table.numbers p.root).patches = [] ∧
      p.program = .ok program ∧ ∀ op ∈ program.operations, op.op.target? ≠ some 0 := by
  obtain ⟨p, hp, hcheck⟩ := exists_ok_of_check (parse "(?:(?(?=a)b|c)|(?:x(?!y))*?)+" {} .invariant)
    (fun p => decide (p.root.Everywhere Node.Branched) && p.program.toOption.any fun _ => true)
    (by decide +kernel)
  obtain ⟨hbranched, hsome⟩ := Bool.and_eq_true_iff.mp hcheck
  have hbranched := of_decide_eq_true hbranched
  obtain ⟨program, hprogram, _⟩ := exists_ok_of_check p.program _ hsome
  obtain ⟨hempty, _, htargets⟩ := (jumps_patched hp).2 hbranched
  exact ⟨p, program, hp, hbranched, hempty, hprogram, htargets program hprogram⟩

/-- The flags are read where the condition should be and open no group, so what follows them is all
that the condition holds. Its jump stays open and leads to the entry. -/
theorem stray_jump_flags :
    ∃ p program, parse "(?(?i)a)" {} .invariant = .ok p ∧
      (Draft.ofRoot p.table.numbers p.root).patches ≠ [] ∧ p.program = .ok program ∧
      ∃ op ∈ program.operations, op.op.target? = some 0 := by
  obtain ⟨p, hp, hcheck⟩ := exists_ok_of_check (parse "(?(?i)a)" {} .invariant)
    (fun p => decide ((Draft.ofRoot p.table.numbers p.root).patches ≠ []) &&
      p.program.toOption.any fun program => program.operations.toList.any (·.op.target? = some 0))
    (by decide +kernel)
  obtain ⟨hopen, hsome⟩ := Bool.and_eq_true_iff.mp hcheck
  obtain ⟨program, hprogram, hany⟩ := exists_ok_of_check p.program _ hsome
  obtain ⟨op, hop, htarget⟩ := List.any_eq_true.mp hany
  exact ⟨p, program, hp, of_decide_eq_true hopen, hprogram, op, Array.mem_toList_iff.mp hop,
    of_decide_eq_true htarget⟩

end Pattern

end PatternCompiler
