import PatternCompiler.Pattern.Parse
import PatternCompiler.Proofs.Numbering

/-! Reading back what was written.

The reader is followed over the text of a tree. Between two constructs it `Stands` before
what is ahead, with the parts of the current branch behind it. Literal characters are not
taken one by one but in runs, when the next construct comes, so a text is gone over from
one place `At` which some characters may still be pending to another. Such texts are put
together: `Takes` for the parts of a branch, `Offers` for a part that a quantifier may
follow, `Fills` for the branches of a group, each whatever stands before and after.

By induction over the tree, its text is taken for its parts and fills a group with its
branches (`returns_of_normal`). With the survey's table, that gives back the whole tree
(`parse_render`). -/
namespace PatternCompiler

open Node (ofChars joined)

/-! ### Groups that are being read -/

/-- The tree of a group without options that has the given branches. -/
def GroupKind.node (kind : GroupKind) (branches : List Node) : Node :=
  Frame.node { kind := kind, options := {}, branches := branches.toArray, seqOptions := {} }

/-- The kind of group as which a construct is written, where the next group gets the number `a`. -/
def Wrap.groupKind (a : Nat) : Wrap → GroupKind
  | .loop _ _ _ => .plain
  | .capture _ _ => .capture (some a) none
  | .require => .require
  | .prevent => .prevent
  | .greedy => .greedy

namespace Frame

/-- The group of which the given branches have been read, and the given parts of the next one. -/
structure Keeps (f : Frame) (kind : GroupKind) (branches done : List Node) : Prop where
  kind : f.kind = kind
  branches : f.branches.toList = branches
  options : f.options = {}
  seqOptions : f.seqOptions = {}
  parts : ∀ n ∈ f.parts.toList, n.Part
  spelled : f.parts.toList.flatMap Node.spell = done

variable {f : Frame} {kind : GroupKind} {branches done : List Node}

theorem opened_keeps (kind : GroupKind) : (opened kind {}).Keeps kind [] [] :=
  ⟨rfl, rfl, rfl, rfl, nofun, rfl⟩

theorem Keeps.add (h : f.Keeps kind branches done) {n m : Node} (hm : n.reduce = m) (hpart : m.Part) :
    (f.add n).Keeps kind branches (done ++ m.spell) := by
  subst hm
  refine ⟨h.kind, h.branches, h.options, h.seqOptions, forall_mem_push h.parts hpart, ?_⟩
  rw [Frame.add, Array.toList_push, List.flatMap_append, List.flatMap_singleton, h.spelled]

/-- The parts that have been read make a branch. -/
theorem Keeps.sequence_reduce (h : f.Keeps kind branches done) : f.sequence.reduce = joined done := by
  have hsequence : f.sequence = .many {} .concatenate f.parts.toList := by
    rw [sequence, h.seqOptions]
    rfl
  have hparts : Node.partsOf false f.parts.toList = f.parts.toList :=
    Node.partsOf_eq fun n hn => (h.parts n hn).parts
  rw [hsequence, Node.reduce, hparts, ← Node.mergeLiterals_spell h.parts, h.spelled, joined]

theorem Keeps.endBranch (h : f.Keeps kind branches done) :
    (f.endBranch {}).Keeps kind (branches ++ [joined done]) [] := by
  refine ⟨h.kind, ?_, h.options, rfl, nofun, rfl⟩
  rw [Frame.endBranch, Array.toList_push, h.branches, h.sequence_reduce]

theorem Keeps.node_eq (h : f.Keeps kind branches done) : f.node = kind.node branches := by
  unfold GroupKind.node node
  rw [h.kind, h.options, h.branches]

/-- The branches of a condition on a group are at most two. -/
theorem Keeps.close? (h : f.Keeps kind branches done) (hkind : kind ≠ .testgroup)
    (hlimit : ∀ k, kind = .testref k → branches.length < 2) :
    f.close? {} = some (kind.node (branches ++ [joined done])) := by
  have hend := h.endBranch
  rw [Frame.close?, ← hend.node_eq]
  have hsize : (f.endBranch {}).branches.size = branches.length + 1 := by
    rw [← Array.length_toList, hend.branches, List.length_append, List.length_singleton]
  cases kind with
  | testref k =>
    have hlt := hlimit k rfl
    have : (f.endBranch {}).limit? = some 2 := by rw [limit?, hend.kind]
    simp only [this, hsize]
    rw [if_neg (by omega)]
  | testgroup => exact absurd rfl hkind
  | _ =>
    have : (f.endBranch {}).limit? = none := by rw [limit?, hend.kind]
    simp only [this]

end Frame

/-! ### Where the reader stands -/

/-- What the reader knows about the groups that are open. -/
structure Context where
  kind : GroupKind
  branches : List Node
  outer : List Frame
  saved : List Options
  autocap : Nat

namespace Reader

/-- The reader stands before the text `ahead`, with the parts `done` of the current branch behind it
and perhaps a part that may still be quantified. -/
structure Stands (r : Reader) (x : Context) (done : List Node) (unit : Option Node) (ahead : List Char) :
    Prop where
  ahead : r.cursor.rest = ahead
  options : r.options = {}
  condition : r.ignoreNext = false
  unit : r.unit = unit
  frame : r.frame.Keeps x.kind x.branches done
  kind : x.kind ≠ .testgroup
  outer : r.outer = x.outer
  saved : r.saved = x.saved
  autocap : r.autocap = x.autocap

/-- The same, where the last parts may be literal characters that the reader has not taken yet. -/
def At (r : Reader) (x : Context) (done : List Node) (ahead : List Char) : Prop :=
  ∃ before run, r.Stands x before none (run ++ ahead) ∧ (∀ c ∈ run, Cursor.isSpecial c = false) ∧
    done = before ++ ofChars run

variable {r r' : Reader} {e : Setting} {x : Context} {done : List Node} {unit : Option Node}
  {ahead rest : List Char} {c : Char} {n m : Node} {lazy : Bool} {min max : Nat} {t : CharTest CharClass}
  {mark : List Char} {kind : GroupKind} {branches : List Node} {w : Wrap} {o : Options}

theorem Stands.at (h : r.Stands x done none ahead) : r.At x done ahead :=
  ⟨done, [], h, nofun, (List.append_nil done).symm⟩

/-- A literal character needs no step. -/
theorem At.literal (h : r.At x done (c :: ahead)) (hc : Cursor.isSpecial c = false) :
    r.At x (done ++ ofChars [c]) ahead := by
  obtain ⟨before, run, hr, hrun, rfl⟩ := h
  refine ⟨before, run ++ [c], ?_, ?_, ?_⟩
  · rw [List.append_assoc]
    exact hr
  · simpa [or_imp, forall_and] using ⟨hrun, hc⟩
  · rw [Node.ofChars_append, List.append_assoc]

theorem At.length_le (h : r.At x done ahead) : ahead.length ≤ r.cursor.rest.length := by
  obtain ⟨before, run, hr, _⟩ := h
  rw [hr.ahead, List.length_append]
  exact Nat.le_add_left ..

/-! ### Placing parts -/

theorem Stands.move (h : r.Stands x done unit ahead) (c : Cursor) :
    { r with cursor := c }.Stands x done unit c.rest :=
  { h with ahead := rfl }

theorem Stands.after (h : r.Stands x done unit ahead) (quantifier : Bool) :
    { r with afterQuantifier := quantifier }.Stands x done unit ahead :=
  { h with }

theorem Stands.add (h : r.Stands x done unit ahead) (hm : n.reduce = m) (hpart : m.Part) :
    (r.add n).Stands x (done ++ m.spell) unit ahead :=
  { h with frame := h.frame.add hm hpart }

theorem Stands.place (h : r.Stands x done unit ahead) (hn : unit = some n) (hm : n.reduce = m)
    (hpart : m.Part) : r.place.Stands x (done ++ m.spell) none ahead := by
  rw [Reader.place, h.unit, hn]
  exact { h.add hm hpart with unit := rfl }

theorem Stands.placeQuantified (h : r.Stands x done unit ahead)
    (hn : unit = some n) (hm : (n.quantify lazy min max).reduce = m) (hpart : m.Part) :
    (r.placeQuantified lazy min max).Stands x (done ++ m.spell) none ahead := by
  rw [Reader.placeQuantified, h.unit, hn]
  exact { h.add hm hpart with unit := rfl }

/-- A part that no quantifier follows. -/
theorem Stands.quantifier_none (h : r.Stands x done (some n) rest) (hfresh : Cursor.Fresh rest)
    (hm : n.reduce = m) (hpart : m.Part) :
    ∃ r', r.quantifier = .ok r' ∧ r'.Stands x (done ++ m.spell) none rest := by
  have hskip : r.cursor.skipBlanks r.options = .ok r.cursor := by
    rw [h.options]
    exact Cursor.Fresh.skipBlanks (h.ahead ▸ hfresh)
  have hnone : Cursor.startsQuantifier r.cursor.rest = false := by
    rw [h.ahead]
    exact hfresh.startsQuantifier
  refine ⟨_, ?_, h.ahead ▸ ((h.place rfl hm hpart).move r.cursor).after false⟩
  simp only [quantifier, hskip, bind, Except.bind, hnone]
  rfl

/-- A part that is repeated. -/
theorem Stands.quantifier_count
    (h : r.Stands x done (some n) (renderCount lazy min max ++ rest)) (hfresh : Cursor.Fresh rest)
    (hmin : min ≤ max) (hmax : max ≤ unbounded) (hm : (n.quantify lazy min max).reduce = m) (hpart : m.Part) :
    ∃ r', r.quantifier = .ok r' ∧ r'.Stands x (done ++ m.spell) none rest := by
  have hskip : r.cursor.skipBlanks r.options = .ok r.cursor := by
    rw [h.options]
    refine Cursor.skipBlanks_none fun cs hcs => ?_
    rw [h.ahead, Cursor.renderCount_eq] at hcs
    cases hcs
  have hstarts : Cursor.startsQuantifier r.cursor.rest = true := by
    rw [h.ahead]
    exact Cursor.startsQuantifier_count lazy min max rest
  obtain ⟨pos, hbounds⟩ := Cursor.bounds?_count hmin hmax h.ahead
  obtain ⟨hlazyskip, hlazy, pos', hmark⟩ := Cursor.skipChar_lazy (c := ⟨pos, _⟩) lazy hfresh rfl
  refine ⟨_, ?_, ((h.placeQuantified rfl hm hpart).move ⟨pos', rest⟩).after true⟩
  rw [h.options] at hskip
  simp only [quantifier, h.options, hskip, bind, Except.bind, hstarts, hbounds, hlazyskip, hlazy, hmark,
    if_neg (Nat.not_lt.mpr hmin), if_true]

/-! ### Rounds -/

theorem literalRunFrom_run {run : List Char} (hrun : ∀ c ∈ run, Cursor.isSpecial c = false)
    (hrest : ∀ c cs, rest = c :: cs → Cursor.endsRun false c cs = true) :
    Cursor.literalRunFrom false (run ++ rest) = run := by
  induction run with
  | nil =>
    cases rest with
    | nil => rfl
    | cons c cs => rw [List.nil_append, Cursor.literalRunFrom, if_pos (hrest c cs rfl)]
  | cons c run ih =>
    have hc : Cursor.endsRun false c (run ++ rest) = false := by
      rw [Cursor.endsRun, hrun c List.mem_cons_self]
      rfl
    rw [List.cons_append, Cursor.literalRunFrom, hc, ih fun d hd => hrun d (List.mem_cons_of_mem _ hd)]
    rfl

theorem literalRun_run {c : Cursor} {run : List Char} (hrun : ∀ d ∈ run, Cursor.isSpecial d = false)
    (hrest : ∀ d cs, rest = d :: cs → Cursor.endsRun false d cs = true) (hc : c.rest = run ++ rest) :
    c.literalRun {} = (run, ⟨c.pos + run.length, rest⟩) := by
  show (Cursor.literalRunFrom false c.rest, c.drop (Cursor.literalRunFrom false c.rest).length) = _
  rw [hc, literalRunFrom_run hrun hrest, Cursor.drop, hc, List.drop_left]

/-- A text that begins with literal characters or a construct has no blanks to skip. -/
theorem skipBlanks_run {c : Cursor} {run : List Char} (hrun : ∀ d ∈ run, Cursor.isSpecial d = false)
    (hrest : ∀ cs, rest = '(' :: cs → cs.take 2 ≠ ['?', '#']) (hc : c.rest = run ++ rest) :
    c.skipBlanks {} = .ok c := by
  refine Cursor.skipBlanks_none fun cs hcs => ?_
  cases run with
  | nil => exact hrest cs (hc.symm.trans hcs)
  | cons d run =>
    have hd := hrun d List.mem_cons_self
    rw [(List.cons.inj (hc.symm.trans hcs)).1] at hd
    cases hd

theorem Stands.addRun (h : r.Stands x done unit ahead) (e : Setting) (run : List Char) :
    (r.addRun e run).Stands x (done ++ ofChars run) unit ahead := by
  have hlower : run.map (r.lower e) = run := by
    have hid : r.lower e = id := by
      funext c
      rw [lower, h.options]
      rfl
    rw [hid, List.map_id]
  unfold Reader.addRun
  rw [hlower]
  rcases run with _ | ⟨c, _ | ⟨d, cs⟩⟩
  · rwa [ofChars, List.map_nil, List.append_nil]
  · exact h.add (by rw [leaf, h.options]; rfl)
      (Node.part_leaf (l := .test (.one c)) (by rintro ⟨⟩) (by rintro _ ⟨⟩))
  · have hpart : (Node.leaf {} (.multi (c :: d :: cs))).Part := by
      refine Node.part_leaf (by rintro ⟨⟩) ?_
      rintro _ ⟨⟩
      exact Nat.le_add_left ..
    exact h.add (by rw [leaf, h.options]; rfl) hpart

/-- One round, if the run of literal characters and what is after it are known. -/
theorem step_eq {run : List Char} (e : Setting) (ho : r.options = {})
    (hrun : ∀ d ∈ run, Cursor.isSpecial d = false)
    (hends : ∀ d cs, rest = d :: cs → Cursor.endsRun false d cs = true)
    (hblank : ∀ cs, rest = '(' :: cs → cs.take 2 ≠ ['?', '#']) (hc : r.cursor.rest = run ++ rest) :
    r.step e =
      match rest with
      | [] =>
        let before : Reader := { r with
          cursor := ⟨r.cursor.pos + run.length, []⟩
          afterQuantifier := false }
        .ok (before.addRun e run)
      | c :: cs =>
        let before : Reader := { r with
          cursor := ⟨r.cursor.pos + run.length, c :: cs⟩
          afterQuantifier := false }
        if Cursor.isSpecial c then
          let taken := if Cursor.isQuantifier c then before.addRunQuantified e run else before.addRun e run
          let past : Reader := { taken with cursor := ⟨r.cursor.pos + run.length + 1, cs⟩ }
          past.special e c (r.afterQuantifier && run.isEmpty)
        else .ok (before.addRun e run) := by
  have hfirst := skipBlanks_run hrun hblank hc
  have hliteral := literalRun_run hrun hends hc
  have hsecond : Cursor.skipBlanks ⟨r.cursor.pos + run.length, rest⟩ {} = .ok _ :=
    skipBlanks_run (List.forall_mem_nil _) hblank rfl
  simp only [step, ho, hfirst, hliteral, hsecond, bind, Except.bind]
  cases rest <;> rfl

/-- A construct that begins with a special character, after the literal characters before it. -/
theorem At.step_special (h : r.At x done (c :: rest)) (e : Setting)
    (hc : Cursor.isSpecial c = true) (hquantifier : Cursor.isQuantifier c = false)
    (hfresh : Cursor.Fresh (c :: rest)) :
    ∃ (r' : Reader) (nested : Bool), r.step e = r'.special e c nested ∧ r'.Stands x done none rest := by
  obtain ⟨before, run, hr, hrun, rfl⟩ := h
  have hends : ∀ d cs, c :: rest = d :: cs → Cursor.endsRun false d cs = true := by
    rintro _ _ ⟨⟩
    have hbrace : c ≠ '\x7b' := fun heq => by rw [heq] at hquantifier; cases hquantifier
    rw [Cursor.endsRun, hc, beq_false_of_ne hbrace]
    rfl
  have hblank : ∀ cs, c :: rest = '(' :: cs → cs.take 2 ≠ ['?', '#'] := fun cs hcs => (hfresh _ _ hcs).2 rfl
  have hbefore := (hr.move ⟨r.cursor.pos + run.length, c :: rest⟩).after false
  have hafter := (hbefore.addRun e run).move ⟨r.cursor.pos + run.length + 1, rest⟩
  refine ⟨_, r.afterQuantifier && run.isEmpty, ?_, hafter⟩
  rw [step_eq e hr.options hrun hends hblank hr.ahead]
  simp only [hc, hquantifier, if_true]
  rfl

theorem At.step_mark (h : r.At x done (c :: rest)) (e : Setting) (hc : Cursor.isSpecial c = true)
    (hquantifier : Cursor.isQuantifier c = false) (hparen : c ≠ '(') :
    ∃ (r' : Reader) (nested : Bool), r.step e = r'.special e c nested ∧ r'.Stands x done none rest :=
  h.step_special e hc hquantifier (Cursor.fresh_cons hquantifier hparen)

theorem Stands.addRunQuantified (h : r.Stands x done none ahead) (e : Setting) (run : List Char)
    (c : Char) : (r.addRunQuantified e (run ++ [c])).Stands x (done ++ ofChars run)
    (some (.leaf {} (.test (.one c))))
      ahead := by
  have hlower : r.leaf (.test (.one (r.lower e c))) = .leaf {} (.test (.one c)) := by
    rw [leaf, lower, h.options]
    rfl
  unfold Reader.addRunQuantified
  rw [List.getLast?_concat, List.dropLast_concat]
  exact { h.addRun e run with unit := congrArg some hlower }

/-- A literal character that a count follows is taken from the end of its run. -/
theorem At.step_brace (h : r.At x done (c :: '\x7b' :: rest)) (e : Setting)
    (hc : Cursor.isSpecial c = false) (hcount : Cursor.startsCount rest = true) :
    ∃ (r' : Reader) (nested : Bool), r.step e = r'.special e '\x7b' nested ∧
      r'.Stands x done (some (.leaf {} (.test (.one c)))) rest := by
  obtain ⟨before, run, hr, hrun, rfl⟩ := h
  have hends : ∀ d cs, '\x7b' :: rest = d :: cs → Cursor.endsRun false d cs = true := by
    rintro _ _ ⟨⟩
    rw [Cursor.endsRun, hcount]
    rfl
  have hahead : r.cursor.rest = (run ++ [c]) ++ '\x7b' :: rest := by
    rw [hr.ahead, List.append_assoc, List.singleton_append]
  have hplain : ∀ d ∈ run ++ [c], Cursor.isSpecial d = false := by
    simpa [or_imp, forall_and] using ⟨hrun, hc⟩
  have hbefore := (hr.move ⟨r.cursor.pos + (run ++ [c]).length, '\x7b' :: rest⟩).after false
  refine ⟨_, r.afterQuantifier && (run ++ [c]).isEmpty, ?_,
    (hbefore.addRunQuantified e run c).move ⟨r.cursor.pos + (run ++ [c]).length + 1, rest⟩⟩
  rw [step_eq e hr.options hplain hends (by rintro _ ⟨⟩) hahead]
  rfl

/-- A literal character that is repeated. -/
theorem At.step_count (h : r.At x done (c :: (renderCount lazy min max ++ rest))) (e : Setting)
    (hc : Cursor.isSpecial c = false) (hcount : Repeats min max) (hfresh : Cursor.Fresh rest) :
    ∃ r', r.step e = .ok r' ∧ r'.Stands x (done ++ [.leaf {} (.span lazy (.one c) min max)]) none rest := by
  have hstarts := Cursor.startsQuantifier_count lazy min max rest
  obtain ⟨cs, hcs⟩ : ∃ cs, renderCount lazy min max ++ rest = '\x7b' :: cs := ⟨_, Cursor.renderCount_eq ..⟩
  rw [hcs] at h hstarts
  obtain ⟨r₁, nested, hstep, hr₁⟩ := h.step_brace e hc hstarts
  have hback := hr₁.move ⟨r₁.cursor.pos - 1, '\x7b' :: r₁.cursor.rest⟩
  rw [hr₁.ahead, ← hcs] at hback
  have hspan : ((Node.leaf {} (.test (.one c))).quantify lazy min max).reduce =
      .leaf {} (.span lazy (.one c) min max) := by
    rw [Node.quantify_test hcount]
    rfl
  obtain ⟨r', hread, hr'⟩ :=
    hback.quantifier_count hfresh hcount.1 hcount.2.1 hspan (Node.part_leaf nofun nofun)
  refine ⟨r', ?_, hr'⟩
  rw [hstep, ← hread]
  show (if r₁.unit.isSome = true then _ else _) = _
  rw [if_pos (by rw [hr₁.unit]; rfl), hr₁.ahead, hcs]

/-! ### Runs -/

/-- The reader comes from one state to another, round by round. -/
inductive Reads (e : Setting) : Reader → Reader → Prop where
  | refl (r : Reader) : Reads e r r
  | step {r r₁ r' : Reader} (hstep : r.step e = .ok r₁)
      (hless : r₁.cursor.rest.length < r.cursor.rest.length) (hreads : Reads e r₁ r') : Reads e r r'

theorem Reads.trans {r₁ : Reader} (h : Reads e r r₁) (h' : Reads e r₁ r') : Reads e r r' := by
  induction h with
  | refl => exact h'
  | step hstep hless _ ih => exact .step hstep hless (ih h')

/-- Once nothing is ahead, the run is over. -/
theorem Reads.run_eq (h : Reads e r r') (hend : r'.cursor.rest = []) {rounds : Nat}
    (hrounds : r.cursor.rest.length ≤ rounds) : run e rounds r = .ok r' := by
  induction h generalizing rounds with
  | refl r =>
    cases rounds with
    | zero => rfl
    | succ rounds => rw [run, hend]
  | @step r r₁ r' hstep hless _ ih =>
    obtain ⟨k, rfl⟩ : ∃ k, rounds = k + 1 := ⟨rounds - 1, by omega⟩
    obtain ⟨c, cs, hcs⟩ := List.exists_cons_of_length_pos (Nat.zero_lt_of_lt hless)
    rw [run, hcs]
    simp only [hstep]
    exact ih hend (by omega)

/-- A round from the place `At` to another. -/
theorem At.reads (h : r.At x done ahead) (hstep : r.step e = .ok r') {x' : Context} {done' : List Node}
    (hr' : r'.Stands x' done' unit rest) (hless : rest.length < ahead.length) : Reads e r r' :=
  .step hstep (by have := h.length_le; rw [hr'.ahead]; omega) (.refl r')

/-- Literal characters at the end of the text. -/
theorem At.settle (h : r.At x done []) (e : Setting) : ∃ r', Reads e r r' ∧ r'.Stands x done none [] := by
  obtain ⟨before, run, hr, hrun, rfl⟩ := h
  cases run with
  | nil => exact ⟨r, .refl r, by simpa [ofChars] using hr⟩
  | cons c cs =>
    have hbefore := (hr.move ⟨r.cursor.pos + (c :: cs).length, []⟩).after false
    have hstep := step_eq e hr.options hrun (by rintro _ _ ⟨⟩) (by rintro _ ⟨⟩) hr.ahead
    refine ⟨_, .step hstep ?_ (.refl _), hbefore.addRun e (c :: cs)⟩
    rw [(hbefore.addRun e (c :: cs)).ahead, hr.ahead]
    exact Nat.succ_pos _

/-! ### Texts -/

/-- Over this text the reader comes to have read the given parts more, and to number groups from `b` on
instead of `a`. -/
def Takes (e : Setting) (a b : Nat) (text : List Char) (parts : List Node) : Prop :=
  ∀ ⦃r : Reader⦄ ⦃x : Context⦄ ⦃done : List Node⦄ ⦃rest : List Char⦄, r.At x done (text ++ rest) →
    x.autocap = a → Cursor.Fresh rest →
      ∃ r', Reads e r r' ∧ r'.At { x with autocap := b } (done ++ parts) rest

/-- Over this text the reader comes to a part that may still be quantified. -/
def Offers (e : Setting) (a b : Nat) (text : List Char) (n : Node) : Prop :=
  ∀ ⦃r : Reader⦄ ⦃x : Context⦄ ⦃done : List Node⦄ ⦃rest : List Char⦄, r.At x done (text ++ rest) →
    x.autocap = a → ∃ r₁ r₂ : Reader, Reads e r r₁ ∧ r₁.step e = r₂.quantifier ∧
      rest.length < r₁.cursor.rest.length ∧ r₂.Stands { x with autocap := b } done (some n) rest

variable {a b d : Nat} {text : List Char} {parts : List Node} {n m : Node}

theorem takes_nil (e : Setting) (a : Nat) : Takes e a a [] [] := by
  rintro r x done rest h rfl _
  exact ⟨r, .refl r, by simpa using h⟩

theorem Takes.append {text' : List Char} {parts' : List Node} (h : Takes e a b text parts)
    (h' : Takes e b d text' parts') (hfresh : ∀ rest, Cursor.Fresh rest → Cursor.Fresh (text' ++ rest)) :
    Takes e a d (text ++ text') (parts ++ parts') := by
  intro r x done rest hr hx hrest
  rw [List.append_assoc] at hr
  obtain ⟨r₁, hreads, hr₁⟩ := h hr hx (hfresh rest hrest)
  obtain ⟨r₂, hreads', hr₂⟩ := h' hr₁ rfl hrest
  refine ⟨r₂, hreads.trans hreads', ?_⟩
  rw [← List.append_assoc]
  exact hr₂

/-- A part that is not quantified. -/
theorem Offers.takes (h : Offers e a b text n) (hm : n.reduce = m) (hpart : m.Part) :
    Takes e a b text m.spell := by
  intro r x done rest hr hx hrest
  obtain ⟨r₁, r₂, hreads, hstep, hless, hr₂⟩ := h hr hx
  obtain ⟨r', hread, hr'⟩ := hr₂.quantifier_none hrest hm hpart
  refine ⟨r', hreads.trans (.step (hstep.trans hread) ?_ (.refl r')), hr'.at⟩
  rw [hr'.ahead]
  exact hless

/-- A part that is repeated. -/
theorem Offers.takes_count (h : Offers e a b text n)
    (hcount : Repeats min max) (hm : (n.quantify lazy min max).reduce = m) (hpart : m.Part) :
    Takes e a b (text ++ renderCount lazy min max) m.spell := by
  intro r x done rest hr hx hrest
  rw [List.append_assoc] at hr
  obtain ⟨r₁, r₂, hreads, hstep, hless, hr₂⟩ := h hr hx
  obtain ⟨r', hread, hr'⟩ := hr₂.quantifier_count hrest hcount.1 hcount.2.1 hm hpart
  refine ⟨r', hreads.trans (.step (hstep.trans hread) ?_ (.refl r')), hr'.at⟩
  rw [List.length_append] at hless
  rw [hr'.ahead]
  omega

/-! ### Leaves -/

theorem Stands.withUnit (h : r.Stands x done none ahead) (l : Leaf) (c : Cursor) :
    { r.withUnit l with cursor := c }.Stands x done (some (.leaf {} l)) c.rest :=
  { h with ahead := rfl, unit := by rw [Reader.withUnit, leaf, h.options] }

/-- An escape. -/
theorem offers_escape {l : Leaf}
    (h : ∀ c : Cursor, ∀ rest, c.rest = text ++ rest → ∃ pos, c.backslash e {} = .ok (l, ⟨pos, rest⟩)) :
    Offers e a a ('\\' :: text) (.leaf {} l) := by
  rintro r x done rest hr rfl
  obtain ⟨r₁, nested, hstep, hr₁⟩ := hr.step_mark e (by decide) (by decide) (by decide)
  obtain ⟨pos, hread⟩ := h r₁.cursor rest hr₁.ahead
  refine ⟨r, _, .refl r, ?_, ?_, hr₁.withUnit l ⟨pos, rest⟩⟩
  · rw [hstep]
    show (r₁.cursor.backslash e r₁.options >>= fun a =>
      { r₁.withUnit a.1 with cursor := a.2 }.quantifier) = _
    rw [hr₁.options, hread]
    rfl
  · have hlen := hr.length_le
    rw [List.cons_append, List.length_cons, List.length_append] at hlen
    omega

/-- A class. -/
theorem offers_bracket {k : CharClass}
    (h : ∀ (c : Cursor) (m : Cursor.BracketMode), ∀ rest, m.ignoreCase = false → c.rest = text ++ rest →
      ∃ pos, c.bracket m = .ok (k, ⟨pos, rest⟩)) :
    Offers e a a ('[' :: text) (.leaf {} (.test (.set k))) := by
  rintro r x done rest hr rfl
  obtain ⟨r₁, nested, hstep, hr₁⟩ := hr.step_mark e (by decide) (by decide) (by decide)
  obtain ⟨pos, hread⟩ := h r₁.cursor ⟨false, false, e.culture⟩ rest rfl hr₁.ahead
  refine ⟨r, _, .refl r, ?_, ?_, hr₁.withUnit (.test (.set k)) ⟨pos, rest⟩⟩
  · rw [hstep]
    show (r₁.cursor.bracket ⟨r₁.options.ignoreCase, r₁.options.ecmaScript, e.culture⟩ >>= fun a =>
      { r₁.withUnit (.test (.set a.1)) with cursor := a.2 }.quantifier) = _
    rw [hr₁.options, hread]
    rfl
  · have hlen := hr.length_le
    rw [List.cons_append, List.length_cons, List.length_append] at hlen
    omega

/-- A test is a literal character, or it is read as a unit that is simplified to it. -/
theorem offers_test (e : Setting) (a : Nat) (ht : t.Normal) :
    (∃ c, t = .one c ∧ Cursor.isSpecial c = false) ∨
      ∃ t', Node.simplifyTest t' = t ∧ Offers e a a t.render (.leaf {} (.test t')) := by
  cases t with
  | one c =>
    cases hc : Cursor.isSpecial c with
    | false => exact .inl ⟨c, rfl, hc⟩
    | true =>
      refine .inr ⟨.one c, rfl, ?_⟩
      rw [CharTest.render, renderChar, if_pos hc]
      exact offers_escape fun cursor rest hcursor => ⟨_, Cursor.backslash_special e hc hcursor⟩
  | notone c =>
    refine .inr ⟨_, Cursor.simplifyTest_notone c, offers_bracket fun cursor m rest hm hcursor => ?_⟩
    exact Cursor.bracket_notone hm (by simpa using hcursor)
  | set k =>
    refine .inr ⟨_, Cursor.simplifyTest_set ht, offers_bracket fun cursor m rest hm hcursor => ?_⟩
    exact Cursor.bracket_set hm ht (by simpa using hcursor)

theorem takes_test (e : Setting) (a : Nat) (ht : t.Normal) : Takes e a a t.render [.leaf {} (.test t)] := by
  rcases offers_test e a ht with ⟨c, rfl, hc⟩ | ⟨t', rfl, hoffers⟩
  · rintro r x done rest hr rfl _
    rw [CharTest.render, renderChar, if_neg (by rw [hc]; nofun)] at hr
    exact ⟨r, .refl r, hr.literal hc⟩
  · exact hoffers.takes rfl (Node.part_leaf nofun nofun)

theorem takes_span (e : Setting) (a : Nat) (ht : t.Normal) (hcount : Repeats min max) :
    Takes e a a (t.render ++ renderCount lazy min max) [.leaf {} (.span lazy t min max)] := by
  rcases offers_test e a ht with ⟨c, rfl, hc⟩ | ⟨t', rfl, hoffers⟩
  · rintro r x done rest hr rfl hrest
    rw [CharTest.render, renderChar, if_neg (by rw [hc]; nofun), List.append_assoc] at hr
    obtain ⟨r', hstep, hr'⟩ := hr.step_count e hc hcount hrest
    refine ⟨r', hr.reads hstep hr' ?_, hr'.at⟩
    simp only [List.length_append, List.length_singleton]
    omega
  · have hspan : ((Node.leaf {} (.test t')).quantify lazy min max).reduce =
        .leaf {} (.span lazy (Node.simplifyTest t') min max) := by
      rw [Node.quantify_test hcount]
      rfl
    exact hoffers.takes_count hcount hspan (Node.part_leaf nofun nofun)

theorem takes_chars (e : Setting) (a : Nat) (cs : List Char) :
    Takes e a a (cs.flatMap renderChar) (ofChars cs) := by
  induction cs with
  | nil => exact takes_nil e a
  | cons c cs ih =>
    have hc : Takes e a a (renderChar c) [.leaf {} (.test (.one c))] := takes_test e a (t := .one c) trivial
    exact hc.append ih fun rest hrest => Cursor.fresh_leaf (.multi cs) hrest

/-- A leaf comes back from its text. -/
theorem takes_leaf {l : Leaf} {groups : Nat} (hl : l.Normal groups)
    (he : ∀ k, k ≤ groups → e.table.contains k = true) : Takes e a a l.render (Node.leaf {} l).spelled := by
  cases l with
  | test t => exact takes_test e a hl
  | span lazy t min max => exact takes_span e a hl.1 hl.2
  | multi cs =>
    have hspelled : (Node.leaf {} (.multi cs)).spelled = ofChars cs := by
      simp [Node.spelled, Node.parts, Node.spell, ofChars]
    rw [hspelled]
    exact takes_chars e a cs
  | ref k =>
    have hoffers : Offers e a a (Leaf.ref k).render (.leaf {} (.ref k)) :=
      offers_escape fun c rest hc => Cursor.backslash_reference hl.2 (he k hl.1) (by simpa using hc)
    exact hoffers.takes rfl (Node.part_leaf (by rintro ⟨⟩) (by rintro _ ⟨⟩))
  | assertion o =>
    obtain ⟨letter, hletter⟩ := Option.isSome_iff_exists.mp hl
    have hoffers : Offers e a a (Leaf.assertion o).render (.leaf {} (.assertion o)) := by
      rw [Leaf.render, hletter]
      exact offers_escape fun c rest hc => ⟨_, Cursor.backslash_assertion e hletter hc⟩
    exact hoffers.takes rfl (Node.part_leaf (by rintro ⟨⟩) (by rintro _ ⟨⟩))
  | nothing => exact hl.elim
  | empty => exact takes_nil e a

/-! ### Groups -/

/-- With this mark after its parenthesis a group of the given kind is opened, and the next group without
a number gets `b`. -/
structure Opens (e : Setting) (a b : Nat) (mark : List Char) (kind : GroupKind) : Prop where
  known : kind ≠ .testgroup
  fresh : ∀ rest, Cursor.Fresh rest → Cursor.Fresh ('(' :: (mark ++ rest))
  reads : ∀ ⦃r : Reader⦄ ⦃x : Context⦄ ⦃done : List Node⦄ ⦃rest : List Char⦄,
    r.Stands x done none (mark ++ rest) → x.autocap = a → Cursor.Fresh rest →
      ∃ r', r.openGroup e = .ok r' ∧ r'.Stands ⟨kind, [], r.frame :: x.outer, {} :: x.saved, b⟩ [] none rest

theorem opens_capture (e : Setting) (a : Nat) : Opens e a (a + 1) [] (.capture (some a) none) := by
  refine ⟨nofun, fun rest hrest => hrest.paren, ?_⟩
  rintro r x done rest hr rfl hrest
  have hnone : r.cursor.opening? e.table r.options = .ok none := by
    refine Cursor.opening?_unmarked e.table r.options ?_
    rw [hr.ahead]
    exact hrest.head_ne
  have hopen : r.openGroup e = .ok { r.unmarked with saved := r.options :: r.saved } := by
    simp only [openGroup, hnone, bind, Except.bind]
  have hunmarked : (r.options.explicitCapture || r.ignoreNext) = false := by
    rw [hr.options, hr.condition]
    rfl
  rw [unmarked, if_neg (by rw [hunmarked]; nofun), hr.options, hr.autocap] at hopen
  exact ⟨_, hopen, hr.ahead, rfl, rfl, hr.unit, Frame.opened_keeps _, nofun, congrArg _ hr.outer,
    congrArg _ hr.saved, rfl⟩

/-- A group that is told by what follows its parenthesis. -/
theorem opens_marked (hkind : kind ≠ .testgroup) (hfresh : ∀ rest, Cursor.Fresh ('(' :: (mark ++ rest)))
    (h : ∀ (c : Cursor) (rest : List Char), c.rest = mark ++ rest →
      ∃ pos, c.opening? e.table {} = .ok (some { kind := some kind, options := {}, cursor := ⟨pos, rest⟩ })) :
    Opens e a a mark kind := by
  refine ⟨hkind, fun rest _ => hfresh rest, ?_⟩
  rintro r x done rest hr rfl _
  obtain ⟨pos, hopening⟩ := h r.cursor rest hr.ahead
  have hopen : r.openGroup e = .ok { r with
      cursor := ⟨pos, rest⟩, options := {}, ignoreNext := false, frame := .opened kind {}
      outer := r.frame :: r.outer, saved := {} :: r.saved } := by
    simp only [openGroup, hr.options, hopening, bind, Except.bind]
  exact ⟨_, hopen, rfl, rfl, rfl, hr.unit, Frame.opened_keeps _, hkind, congrArg _ hr.outer,
    congrArg _ hr.saved, hr.autocap⟩

theorem opens_mark (e : Setting) (a : Nat) (mark : Char) (kind : GroupKind)
    (h : (mark, kind) ∈ Cursor.groupMarks) :
    Opens e a a ['?', mark] kind := by
  have hmark : mark ≠ '#' ∧ kind ≠ .testgroup := by
    simp only [Cursor.groupMarks, List.mem_cons, Prod.mk.injEq, List.not_mem_nil, or_false] at h
    rcases h with ⟨rfl, rfl⟩ | ⟨rfl, rfl⟩ | ⟨rfl, rfl⟩ | ⟨rfl, rfl⟩ <;> exact ⟨by decide, by decide⟩
  refine opens_marked hmark.2 (fun rest => Cursor.fresh_paren fun heq => hmark.1 ?_) fun c rest hc =>
    ⟨_, Cursor.opening?_mark e.table h hc⟩
  exact (List.cons.inj (List.cons.inj heq).2).1

theorem opens_condition (e : Setting) (a : Nat) {k : Nat} (hk : k ≤ unbounded)
    (he : e.table.contains k = true) :
    Opens e a a ('?' :: '(' :: renderNumber k ++ [')']) (.testref k) :=
  opens_marked nofun (fun rest => Cursor.fresh_paren nofun) fun c rest hc =>
    Cursor.opening?_condition hk he (by simpa using hc)

/-- Closing a group. -/
theorem Stands.closeGroup {before : List Node} {f : Frame}
    (h : r.Stands ⟨kind, branches, f :: x.outer, {} :: x.saved, b⟩ done none ahead)
    (hf : f.Keeps x.kind x.branches before) (hx : x.kind ≠ .testgroup)
    (hlimit : ∀ k, kind = .testref k → branches.length < 2) :
    ∃ r', r.closeGroup = .ok r' ∧
      r'.Stands { x with autocap := b } before (some (kind.node (branches ++ [joined done]))) ahead := by
  have hclose : r.frame.close? r.options = _ := h.options ▸ h.frame.close? h.kind hlimit
  have hawaits : f.awaitsCondition = false := by
    rw [Frame.awaitsCondition, hf.kind, beq_false_of_ne hx]
    rfl
  have hclosed : r.closeGroup = .ok { r with
      options := {}, saved := x.saved, frame := f, outer := x.outer
      unit := some (kind.node (branches ++ [joined done])) } := by
    simp only [Reader.closeGroup, h.outer, hclose, hawaits, restore, h.saved]
    rfl
  exact ⟨_, hclosed, h.ahead, rfl, h.condition, rfl, hf, hx, rfl, rfl, h.autocap⟩

/-- Over this text the reader comes to have read the given branches of a group, up to the end of the
last one. -/
def Fills (e : Setting) (a b : Nat) (text : List Char) (branches : List Node) : Prop :=
  ∀ ⦃r : Reader⦄ ⦃x : Context⦄ ⦃rest : List Char⦄, r.At x [] (text ++ rest) → x.autocap = a →
    x.branches = [] → Cursor.Fresh rest → ∃ r' before done, Reads e r r' ∧
      r'.At { x with branches := before, autocap := b } done rest ∧ before ++ [joined done] = branches

/-- A group comes back from its text, ready to be quantified. -/
theorem offers_group {c : Nat} (hopens : Opens e a b mark kind) (hfills : Fills e b c text branches)
    (hfresh : ∀ rest, Cursor.Fresh rest → Cursor.Fresh (text ++ rest))
    (hlimit : ∀ k, kind = .testref k → branches.length ≤ 2) :
    Offers e a c ('(' :: mark ++ text ++ [')']) (kind.node branches) := by
  intro r x done rest hr hx
  have hclose : Cursor.Fresh (')' :: rest) := Cursor.fresh_cons (by decide) (by decide)
  have htext : '(' :: mark ++ text ++ [')'] ++ rest = '(' :: (mark ++ (text ++ ')' :: rest)) := by simp
  rw [htext] at hr
  -- The opening parenthesis and its mark.
  have hfirst := hopens.fresh _ (hfresh _ hclose)
  obtain ⟨r₁, nested, hstep₁, hr₁⟩ := hr.step_special e (by decide) (by decide) hfirst
  obtain ⟨r₂, hopen, hr₂⟩ := hopens.reads hr₁ hx (hfresh _ hclose)
  have hreads₂ : Reads e r r₂ := hr.reads (hstep₁.trans hopen) hr₂ (by
    simp only [List.length_cons, List.length_append]
    omega)
  -- What is in the group.
  obtain ⟨r₃, before, last, hreads₃, hr₃, hbranches⟩ := hfills hr₂.at rfl rfl hclose
  have hlen : before.length + 1 = branches.length := by
    rw [← hbranches, List.length_append, List.length_singleton]
  -- The closing parenthesis.
  obtain ⟨r₄, nested', hstep₄, hr₄⟩ := hr₃.step_mark e (by decide) (by decide) (by decide)
  obtain ⟨r₅, hclosed, hr₅⟩ := hr₄.closeGroup (x := x) hr₁.frame hr₁.kind fun k hk => by
    have := hlimit k hk
    omega
  rw [hbranches] at hr₅
  refine ⟨r₃, r₅, hreads₂.trans hreads₃, ?_, hr₃.length_le, hr₅⟩
  rw [hstep₄]
  show (do
    let r ← r₄.closeGroup
    if r.unit.isSome then r.quantifier else .ok r) = _
  rw [hclosed]
  show (if r₅.unit.isSome = true then _ else _) = _
  rw [if_pos (by rw [hr₅.unit]; rfl)]

/-- A bar ends a branch. -/
theorem At.step_bar (h : r.At x done ('|' :: rest)) (e : Setting) :
    ∃ r', r.step e = .ok r' ∧
      r'.Stands { x with branches := x.branches ++ [joined done] } [] none rest := by
  obtain ⟨r₁, nested, hstep, hr₁⟩ := h.step_mark e (by decide) (by decide) (by decide)
  refine ⟨{ r₁ with frame := r₁.frame.endBranch r₁.options }, hstep, ?_⟩
  rw [hr₁.options]
  exact { hr₁ with options := rfl, frame := hr₁.frame.endBranch }

/-! ### Trees -/

/-- Consecutive numbers, cut in two. -/
theorem range'_split {ks ls : List Nat} (h : ks ++ ls = List.range' a (ks ++ ls).length) :
    ks = List.range' a ks.length ∧ ls = List.range' (a + ks.length) ls.length := by
  rw [List.length_append, ← List.range'_append_1] at h
  exact List.append_inj h (by simp)

/-- A tree comes back from its text as a part of a sequence, if its groups are numbered from where the
reader is. -/
def Returns (e : Setting) (n : Node) : Prop :=
  ∀ a, n.groups = List.range' a n.groups.length → Takes e a (a + n.groups.length) (n.render true) n.spelled

/-- A tree comes back from its text as the content of a group. -/
def Enclosed (e : Setting) (n : Node) : Prop :=
  ∀ a, n.groups = List.range' a n.groups.length →
    Fills e a (a + n.groups.length) (n.render false) n.alternatives

variable {ns : List Node} {groups : Nat}

/-- The branches after the first one. -/
theorem takes_bars (hns : ∀ n ∈ ns, Returns e n) (hnormal : ∀ n ∈ ns, n.Everywhere (Node.NormalAt groups))
    (hgroups : ns.flatMap Node.groups = List.range' a (ns.flatMap Node.groups).length)
    (h : r.At x done (Node.renderBranches ns ++ rest)) (hx : x.autocap = a) (hrest : Cursor.Fresh rest) :
    ∃ r' before last, Reads e r r' ∧
      r'.At { x with branches := before, autocap := a + (ns.flatMap Node.groups).length } last rest ∧
      before ++ [joined last] = x.branches ++ joined done :: ns := by
  induction ns generalizing r x done a with
  | nil => exact ⟨r, x.branches, done, .refl r, by subst hx; exact h, rfl⟩
  | cons n ns ih =>
    rw [List.flatMap_cons] at hgroups
    obtain ⟨hfirst, hlater⟩ := range'_split hgroups
    rw [Node.renderBranches, List.cons_append, List.append_assoc] at h
    obtain ⟨r₁, hstep, hr₁⟩ := h.step_bar e
    have hfresh := Cursor.fresh_branches ns hrest
    obtain ⟨r₂, hreads₂, hr₂⟩ := hns n List.mem_cons_self a hfirst hr₁.at hx hfresh
    obtain ⟨r₃, before, last, hreads₃, hr₃, hbranches⟩ := ih (fun m hm => hns m (List.mem_cons_of_mem _ hm))
      (fun m hm => hnormal m (List.mem_cons_of_mem _ hm)) hlater hr₂ rfl
    refine ⟨r₃, before, last, ((h.reads hstep hr₁ ?_).trans hreads₂).trans hreads₃, ?_, ?_⟩
    · exact Nat.lt_succ_self _
    · rw [List.flatMap_cons, List.length_append, ← Nat.add_assoc]
      exact hr₃
    · rw [hbranches, List.nil_append, Node.joined_spelled (hnormal n List.mem_cons_self)]
      simp

theorem fills_branches (hne : ns ≠ []) (hns : ∀ n ∈ ns, Returns e n)
    (hnormal : ∀ n ∈ ns, n.Everywhere (Node.NormalAt groups))
    (hgroups : ns.flatMap Node.groups = List.range' a (ns.flatMap Node.groups).length) :
    Fills e a (a + (ns.flatMap Node.groups).length) (Node.renderBranches ns).tail ns := by
  intro r x rest hr hx hbranches hrest
  obtain ⟨n, ns, rfl⟩ := List.exists_cons_of_ne_nil hne
  rw [List.flatMap_cons] at hgroups
  obtain ⟨hfirst, hlater⟩ := range'_split hgroups
  rw [Node.renderBranches, List.tail_cons, List.append_assoc] at hr
  obtain ⟨r₁, hreads₁, hr₁⟩ := hns n List.mem_cons_self a hfirst hr hx (Cursor.fresh_branches ns hrest)
  obtain ⟨r₂, before, last, hreads₂, hr₂, hlast⟩ :=
    takes_bars (fun m hm => hns m (List.mem_cons_of_mem _ hm))
      (fun m hm => hnormal m (List.mem_cons_of_mem _ hm)) hlater hr₁ rfl hrest
  refine ⟨r₂, before, last, hreads₁.trans hreads₂, ?_, ?_⟩
  · rw [List.flatMap_cons, List.length_append, ← Nat.add_assoc]
    exact hr₂
  · have hjoined := Node.joined_spelled (hnormal n List.mem_cons_self)
    rw [hlast, hbranches, List.nil_append, List.nil_append, hjoined]

theorem takes_parts (hns : ∀ n ∈ ns, Returns e n)
    (hgroups : ns.flatMap Node.groups = List.range' a (ns.flatMap Node.groups).length) :
    Takes e a (a + (ns.flatMap Node.groups).length) (Node.renderParts ns) (ns.flatMap Node.spelled) := by
  induction ns generalizing a with
  | nil => exact takes_nil e a
  | cons n ns ih =>
    rw [List.flatMap_cons] at hgroups
    obtain ⟨hfirst, hlater⟩ := range'_split hgroups
    have hparts := ih (fun m hm => hns m (List.mem_cons_of_mem _ hm)) hlater
    rw [List.flatMap_cons, List.length_append, ← Nat.add_assoc, Node.renderParts, List.flatMap_cons]
    exact (hns n List.mem_cons_self a hfirst).append hparts fun rest hrest =>
      Cursor.fresh_render (.many {} .concatenate ns) true hrest

/-- A tree that is no alternation is a single branch. -/
theorem Returns.enclosed (h : Returns e n) (hn : n.Everywhere (Node.NormalAt groups))
    (hkind : n.kind? ≠ some .alternate) : Enclosed e n := by
  intro a hgroups r x rest hr hx hbranches hrest
  rw [Node.render_of_ne hkind] at hr
  obtain ⟨r', hreads, hr'⟩ := h a hgroups hr hx hrest
  refine ⟨r', [], n.spelled, hreads, hbranches ▸ hr', ?_⟩
  rw [Node.joined_spelled hn, hn.here.alternatives hkind, List.nil_append]

/-- A group around a tree. -/
theorem offers_enclosed (hopens : Opens e a b mark kind) (hkind : ∀ k, kind ≠ .testref k) (hn : Enclosed e n)
    (hgroups : n.groups = List.range' b n.groups.length) :
    Offers e a (b + n.groups.length) ('(' :: mark ++ n.render false ++ [')']) (kind.node n.alternatives) :=
  offers_group hopens (hn b hgroups) (fun _ => Cursor.fresh_render n false) fun k hk => absurd hk (hkind k)

theorem opens_wrap (e : Setting) (a : Nat) (hw : w.Normal) :
    Opens e a (a + w.number?.toList.length) w.mark (w.groupKind a) := by
  cases w with
  | loop => exact opens_mark e a ':' .plain (by decide)
  | capture number uncapture =>
    obtain ⟨k, hk⟩ := Option.isSome_iff_exists.mp hw.1
    rw [Wrap.number?, hk]
    exact opens_capture e a
  | require => exact opens_mark e a '=' .require (by decide)
  | prevent => exact opens_mark e a '!' .prevent (by decide)
  | greedy => exact opens_mark e a '>' .greedy (by decide)

theorem node_plain (hn : n.Everywhere (Node.NormalAt groups)) :
    GroupKind.plain.node n.alternatives = .many {} .group [n] := by
  have hbody := Node.reduce_alternatives hn
  rw [GroupKind.node, Frame.node]
  simp only [hbody]

/-- The group of a construct, before a quantifier makes it a repetition. -/
theorem node_wrap (hw : w.Normal) (hnumber : ∀ k, w.number? = some k → k = a)
    (hloop : ∀ lazy min max, w ≠ .loop lazy min max) (hn : n.Everywhere (Node.NormalAt groups)) :
    (w.groupKind a).node n.alternatives = .wrap {} w n := by
  have hbody := Node.reduce_alternatives hn
  rw [GroupKind.node, Frame.node]
  cases w with
  | loop lazy min max => exact absurd rfl (hloop lazy min max)
  | capture number uncapture =>
    obtain ⟨k, rfl⟩ := Option.isSome_iff_exists.mp hw.1
    obtain rfl := hnumber k rfl
    obtain rfl := hw.2
    simp only [Wrap.groupKind, hbody]
  | _ => simp only [Wrap.groupKind, hbody]

theorem returns_wrap (hw : (Node.wrap o w n).NormalAt groups)
    (hn : n.Everywhere (Node.NormalAt groups)) (ih : Enclosed e n) : Returns e (.wrap o w n) := by
  obtain ⟨rfl, hw⟩ := hw
  intro a hgroups
  rw [Node.groups_wrap] at hgroups ⊢
  obtain ⟨hfirst, hinner⟩ := range'_split hgroups
  have hnumber : ∀ k, w.number? = some k → k = a := by
    intro k hk
    rw [hk] at hfirst
    exact (List.cons.inj hfirst).1
  have hkind : ∀ k, w.groupKind a ≠ .testref k := by cases w <;> exact nofun
  have hoffers := offers_enclosed (opens_wrap e a hw) hkind ih hinner
  have hpart : (Node.wrap {} w n).Part := ⟨rfl, rfl, nofun⟩
  rw [List.length_append, ← Nat.add_assoc]
  by_cases hloop : ∃ lazy min max, w = .loop lazy min max
  · obtain ⟨lazy, min, max, rfl⟩ := hloop
    have hquantify : ((GroupKind.plain.node n.alternatives).quantify lazy min max).reduce =
        .wrap {} (.loop lazy min max) n := by
      rw [node_plain hn, Node.quantify_group hw, Node.ungroup, hn.here.ungroup]
      rfl
    exact hoffers.takes_count hw hquantify hpart
  · have hsuffix : w.suffix = [] := by
      cases w with
      | loop lazy min max => exact absurd ⟨lazy, min, max, rfl⟩ hloop
      | _ => rfl
    have hnode := node_wrap hw hnumber (fun lazy min max h => hloop ⟨lazy, min, max, h⟩) hn
    rw [Node.render, hsuffix, List.append_nil]
    exact hoffers.takes (by rw [hnode]; rfl) hpart

theorem enclosed_alternate (h : (Node.many o .alternate ns).Everywhere (Node.NormalAt groups))
    (ih : ∀ n ∈ ns, Returns e n) : Enclosed e (.many o .alternate ns) := by
  obtain ⟨⟨rfl, hlen, hkinds⟩, hns⟩ := Node.everywhere_many.mp h
  have halternatives : Node.alternativesOf ns = ns :=
    Node.alternativesOf_eq fun n hn => (hns n hn).here.alternatives (hkinds n hn)
  intro a hgroups
  rw [Node.groups_many] at hgroups ⊢
  rw [Node.alternatives, halternatives]
  exact fills_branches (List.ne_nil_of_length_pos (by omega)) ih hns hgroups

theorem returns_alternate (h : (Node.many o .alternate ns).Everywhere (Node.NormalAt groups))
    (henclosed : Enclosed e (.many o .alternate ns)) : Returns e (.many o .alternate ns) := by
  have hpart : (Node.many o .alternate ns).Part := h.here.part (by rintro ⟨⟩) rfl
  have hungroup : (GroupKind.plain.node (Node.many o .alternate ns).alternatives).reduce =
      .many o .alternate ns := by
    rw [node_plain h, Node.reduce, Node.ungroup, h.here.ungroup]
  intro a hgroups
  have hopens := opens_mark e a ':' .plain (by decide)
  exact (offers_enclosed hopens (by rintro _ ⟨⟩) henclosed hgroups).takes hungroup hpart

theorem returns_concatenate (h : (Node.many o .concatenate ns).Everywhere (Node.NormalAt groups))
    (ih : ∀ n ∈ ns, Returns e n) : Returns e (.many o .concatenate ns) := by
  obtain ⟨hn, hns⟩ := Node.everywhere_many.mp h
  obtain ⟨hparts, hself⟩ := hn.parts_concatenate fun n hn => (hns n hn).here
  have hspelled : (Node.many o .concatenate ns).spelled = ns.flatMap Node.spelled := by
    rw [Node.spelled, hself]
    exact List.flatMap_congr fun n hn => (Node.spelled_part (hparts n hn)).symm
  intro a hgroups
  rw [Node.groups_many] at hgroups ⊢
  rw [hspelled]
  exact takes_parts ih hgroups

theorem returns_testref {k : Nat}
    (h : (Node.many o (.testref k) ns).Everywhere (Node.NormalAt groups)) (he : e.table.contains k = true)
    (ih : ∀ n ∈ ns, Returns e n) : Returns e (.many o (.testref k) ns) := by
  have hpart := h.here.part nofun rfl
  obtain ⟨⟨rfl, hlen, hk⟩, hns⟩ := Node.everywhere_many.mp h
  intro a hgroups
  rw [Node.groups_many] at hgroups ⊢
  have hfills := fills_branches (List.ne_nil_of_length_pos (by omega)) ih hns hgroups
  have hoffers := offers_group (opens_condition e a hk.2 he) hfills
    (fun _ hrest => Cursor.fresh_render (.many {} .alternate ns) false hrest) fun _ _ => by omega
  exact hoffers.takes rfl hpart

/-- Every normal tree comes back from its text. -/
theorem returns_of_normal (he : ∀ k, k ≤ groups → e.table.contains k = true)
    (h : n.Everywhere (Node.NormalAt groups)) : Returns e n ∧ Enclosed e n := by
  -- Only an alternation is enclosed in another way than it is returned.
  have hboth : ∀ {n : Node}, n.Everywhere (Node.NormalAt groups) → n.kind? ≠ some .alternate → Returns e n →
      Returns e n ∧ Enclosed e n := fun hn hkind hreturns => ⟨hreturns, hreturns.enclosed hn hkind⟩
  induction n with
  | leaf o l =>
    obtain ⟨rfl, hl⟩ := h.here
    exact hboth h nofun fun a _ => takes_leaf hl he
  | wrap o w n ih =>
    obtain ⟨hw, hn⟩ := Node.everywhere_wrap.mp h
    exact hboth h nofun (returns_wrap hw hn (ih hn).2)
  | many o kind ns ih =>
    have hreturns : ∀ n ∈ ns, Returns e n := fun n hn => (ih n hn ((Node.everywhere_many.mp h).2 n hn)).1
    cases kind with
    | alternate =>
      have henclosed := enclosed_alternate h hreturns
      exact ⟨returns_alternate h henclosed, henclosed⟩
    | concatenate => exact hboth h nofun (returns_concatenate h hreturns)
    | testref k => exact hboth h nofun (returns_testref h (he k h.here.2.2.1) hreturns)
    | group | testgroup => exact h.here.elim

/-! ### Patterns -/

theorem start_stands (pattern : List Char) :
    (start pattern {}).Stands ⟨.capture (some 0) none, [], [], [], 1⟩ [] none pattern :=
  ⟨rfl, rfl, rfl, rfl, Frame.opened_keeps _, nofun, rfl, rfl, rfl⟩

theorem Stands.finish {saved : List Options} {a : Nat}
    (h : r.Stands ⟨kind, branches, [], saved, a⟩ done none ahead) (hlimit : ∀ k, kind ≠ .testref k) :
    r.finish = .ok (kind.node (branches ++ [joined done])) := by
  have hclose := h.frame.close? h.kind fun k hk => absurd hk (hlimit k)
  rw [Reader.finish, h.outer, h.options]
  simp only [hclose]

/-- The reader goes over the text of a tree to its end. -/
theorem run_render {t : Node} (ht : t.Normal) (he : ∀ k, k ≤ t.groups.length → e.table.contains k = true) :
    ∃ r, run e (t.render false).length (start (t.render false) {}) = .ok r ∧
      r.finish = .ok (.wrap {} (.capture (some 0) none) t) := by
  have hstart := (start_stands (t.render false)).at
  rw [← List.append_nil (t.render false)] at hstart
  obtain ⟨r₁, before, last, hreads₁, hr₁, hbranches⟩ :=
    (returns_of_normal he ht.everywhere).2 1 ht.numbered hstart rfl rfl Cursor.fresh_nil
  obtain ⟨r₂, hreads₂, hr₂⟩ := hr₁.settle e
  rw [List.append_nil] at hreads₁
  refine ⟨r₂, (hreads₁.trans hreads₂).run_eq hr₂.ahead (Nat.le_refl _), ?_⟩
  have hroot : (GroupKind.capture (some 0) none).node t.alternatives =
      .wrap {} (.capture (some 0) none) t :=
    node_wrap (w := .capture (some 0) none) ⟨rfl, rfl⟩ (by rintro _ ⟨⟩; rfl) nofun ht.everywhere
  rw [hr₂.finish nofun, hbranches, hroot]

end Reader

namespace Pattern

/-- **Every normal tree comes back from its text**: read under no options and in any culture, the text
is a pattern whose tree is the one that was written, in the group of the whole match. -/
theorem parse_render {t : Node} (ht : t.Normal) (culture : Culture) :
    ∃ p, Pattern.parse (String.ofList (t.render false)) {} culture = .ok p ∧
      p.root = .wrap {} (.capture (some 0) none) t := by
  obtain ⟨table, htable, hcontains⟩ := GroupTable.ofPattern_render ht.everywhere
  obtain ⟨r, hrun, hfinish⟩ := Reader.run_render (e := ⟨culture, table⟩) ht hcontains
  refine ⟨⟨.wrap {} (.capture (some 0) none) t, table, {}, culture⟩, ?_, rfl⟩
  have hread : Pattern.read (t.render false) {} (effectiveCulture {} culture) =
      .ok ⟨.wrap {} (.capture (some 0) none) t, table, {}, culture⟩ := by
    show Pattern.read (t.render false) {} culture = _
    simp only [Pattern.read, htable, hrun, hfinish, bind, Except.bind]
  rw [parse, String.toList_ofList, hread]

/-- A tree with something of everything. -/
def mixed : Node :=
  .many {} .concatenate
    [.leaf {} (.multi ['a', '*']),
      .wrap {} (.loop true 2 unbounded) (.wrap {} (.capture (some 1) none)
        (.many {} .alternate [.leaf {} .empty, .leaf {} (.span false (.one 'b') 0 3)])),
      .many {} (.testref 1) [.leaf {} (.test (.set ⟨#[⟨'0', '9'⟩, .single '😀']⟩)), .leaf {} (.ref 1)],
      .wrap {} .prevent (.leaf {} (.test (.notone ','))),
      .many {} .alternate [.leaf {} (.test (.one '|')), .wrap {} .greedy (.leaf {} (.multi ['u', 'v']))],
      .leaf {} (.assertion .endZ)]

def mixedText : String :=
  "a\\*(?:(|b\x7b0,3\x7d))\x7b2,\x7d?(?(1)[\\u0030-\\u0039😀]|\\k<1>)(?![^\\u002c])(?:\\||(?>uv))\\Z"

theorem parse_render_mixed :
    mixed.Normal ∧
      ∃ p, Pattern.parse mixedText {} .invariant = .ok p ∧
        p.root = .wrap {} (.capture (some 0) none) mixed := by
  have hnormal : mixed.Normal := by decide +kernel
  have htext : String.ofList (mixed.render false) = mixedText := by decide +kernel
  rw [← htext]
  exact ⟨hnormal, parse_render hnormal .invariant⟩

end Pattern
end PatternCompiler
