import PatternCompiler.Proofs.Layout
import PatternCompiler.Proofs.Tags

/-! Putting the source together from buffers.

The operations are passed once, and what each does is written as it comes: its code into the arm
that is open, and the code of each of its resumptions into a buffer of its own, for which the one
that is being written has to wait. Then the cases are sorted by their tags and put into the
dispatcher, the routine into its function, and the function into the module. `Program.assemble` does
all this by opening and closing scopes by hand, and gives up at any misuse: a scope that is closed
without having been opened, a buffer that is put somewhere or finished with a scope still open, a
case within a case, a case that was not begun, a look-up past the end of a table.

None of these happens: `Code.program_assembles`. -/
namespace PatternCompiler

open Source Buffer

/-! ### Look-ups -/

/-- The class that a test looks up. -/
def CharTest.class? : CharTest Nat → Option Nat
  | .set k => some k
  | _ => none

theorem CharTest.lt_of_valid (t : CharTest Nat) {n k : Nat} (h : t.Valid n) (hk : k ∈ t.class?) : k < n := by
  cases t with
  | set k' => exact Option.mem_some.mp hk ▸ h
  | _ => cases hk

namespace Op

/-- The string that an operation looks up. -/
def string? : Op → Option Nat
  | multi i => some i
  | _ => none

/-- The class that an operation looks up. -/
def class? : Op → Option Nat
  | rep t _ => t.class?
  | span _ t _ => t.class?
  | test t => t.class?
  | _ => none

end Op

/-! ### Emission -/

inductive EmitFault where
  | buffer (f : BufferFault)
  /-- A case is begun within another. -/
  | nested
  /-- A case is ended that was not begun. -/
  | notBegun
  /-- There is nothing at an index. -/
  | outOfRange
deriving DecidableEq

inductive EmitStep where
  | write (s : BufferStep)
  /-- Looks something up in a table. -/
  | lookUp (size index : Nat)
  /-- Begins the case of a resumption in a new buffer. -/
  | beginCase
  /-- Ends the case and goes on with the buffer from before. -/
  | endCase (tag : Nat)

/-- What is being written while the operations are passed. -/
structure Emitter where
  current : Buffer := {}
  /-- The buffer that waits for the end of a case. -/
  waiting : Option Buffer := none
  /-- The cases so far, with their tags. -/
  cases : List (Nat × Buffer) := []

namespace Emitter

def perform (e : Emitter) : EmitStep → Except EmitFault Emitter
  | .write s => ((e.current.perform s).mapError .buffer).map ({ e with current := · })
  | .lookUp size index => if index < size then .ok e else .error .outOfRange
  | .beginCase => match e.waiting with
    | none => .ok { e with current := {}, waiting := some e.current }
    | some _ => .error .nested
  | .endCase tag => match e.waiting with
    | some outer => .ok ⟨outer, none, e.cases ++ [(tag, e.current)]⟩
    | none => .error .notBegun

def performAll (e : Emitter) (steps : List EmitStep) : Except EmitFault Emitter := steps.foldlM perform e

end Emitter

namespace Routine

/-- What is done for one operation. Of two resumptions the one that tries again comes first. -/
def emissionOf (m : Routine) (o : Operation) : List EmitStep :=
  o.op.string?.toList.map (.lookUp m.program.code.strings.size) ++
    o.op.class?.toList.map (.lookUp m.program.code.classes.size) ++
    (Stmt.stepsOf (.comment o.describe :: m.forwardCode o)).map .write ++
    ([false, true].filter (· ∈ o.op.resumptions)).flatMap fun second =>
      .beginCase :: ((Stmt.stepsOf (m.resumeCode o second)).map .write ++ [.endCase (m.tag o second)])

/-- Leaves the arm that is open, if one is, for the next one. -/
def leaveArm (isOpen terminated : Bool) (next : Option Nat) : List BufferStep :=
  if isOpen then
    (if terminated then []
      else match next with
        | some id => [.stmt ("state = " ++ toString id)]
        | none => Stmt.stepsOf Source.stop) ++ [.close]
  else []

/-- Passes the operations. The flags tell whether an arm is open and whether control has left it. -/
def emissionFrom (m : Routine) (isOpen terminated : Bool) : List Operation → List EmitStep
  | [] => (leaveArm isOpen terminated none).map .write
  | o :: rest =>
    let isLabel := m.program.isLabel o.id
    (if isLabel then
        (leaveArm isOpen terminated (some o.id) ++ [BufferStep.openScope (toString o.id ++ " =>")]).map .write
      else []) ++
      m.emissionOf o ++ emissionFrom m (isOpen || isLabel) o.op.terminates rest

/-- What the routine does before its loop. -/
def entryCode : List Stmt :=
  [.code "r.ensure_storage();", .declare "beg" (.plain "r.text_beg"), .declare "end" (.plain "r.text_end"),
    .declare "start" (.plain "r.text_start"), .declareMut "pos" (.plain "r.text_pos"),
    .code "let mut state: usize = 0;"]

/-- The beginning of the routine, up to the first arm. -/
def enterLoop : List BufferStep :=
  Stmt.stepsOf entryCode ++ [.openScope "'run: loop", .openScope "match state"]

/-- The dispatcher, into which the cases are put. -/
def dispatchSteps (cases : List (Nat × Buffer)) : List BufferStep :=
  .openScope "BACKTRACK => match r.track_pop()" ::
    ((cases.flatMap fun c => [.openScope (toString c.1 ++ " =>"), .append c.2, .close]) ++
      [.line "_ => unreachable!(\"unknown backtrack tag\"),"] ++ [.closeWith ","])

/-- The end of the routine, from the last arm on. -/
def leaveLoop (cases : List (Nat × Buffer)) : List BufferStep :=
  dispatchSteps cases ++ [.line "_ => unreachable!(\"unknown state\"),"] ++ [.close, .close]

/-- The body of the match routine. -/
def assemble (m : Routine) : Except EmitFault Buffer := do
  let e ← Emitter.performAll {} (enterLoop.map .write ++ m.emissionFrom false false m.operations.toList)
  (e.current.performAll (leaveLoop (e.cases.mergeSort fun c d => c.1 ≤ d.1))).mapError .buffer

end Routine

namespace Program

def functionSteps (header : String) (body : Buffer) : List BufferStep :=
  [.openScope header, .append body, .close]

/-- A function without arguments besides the matcher. -/
def constantSteps (name type value : String) : List BufferStep :=
  [.openScope ("fn " ++ name ++ "(&self) -> " ++ type), .line value, .close]

/-- What the type does as a matcher. -/
def memberSteps (p : Program) (start attempt : Buffer) : List BufferStep :=
  .line "#[allow(unused_variables)]" ::
    (functionSteps "fn find_first_char(&self, r: &mut Runner) -> bool" start ++ .blank ::
    .line ("#[allow(unused_variables, unused_mut, unused_assignments, unreachable_code, " ++
      "unused_labels, clippy::all)]") ::
    (functionSteps "fn go(&self, r: &mut Runner)" attempt ++ .blank ::
    (constantSteps "track_count" "usize" (toString p.code.trackCount) ++ .blank ::
    (constantSteps "capture_numbers" "&'static [u32]" "CAPTURE_NUMBERS" ++ .blank ::
    (constantSteps "group_names" "&'static [&'static str]" "GROUP_NAMES" ++ .blank ::
    constantSteps "right_to_left" "bool" (toString p.code.rightToLeft))))))

/-- The matcher, around the bodies of its two functions. -/
def implSteps (p : Program) (structName : String) (start attempt : Buffer) : List BufferStep :=
  .line ("pub struct " ++ structName ++ ";") :: .blank ::
    .openScope ("impl Matcher for " ++ structName) :: (p.memberSteps start attempt ++ [.close])

/-- The module around the matcher, if there is to be one. -/
def wrapSteps (config : SourceConfig) : List BufferStep :=
  config.getModule.toList.map (.wrapModule · ["#[allow(dead_code)]"])

/-- The whole source. -/
def assemble (p : Program) (config : SourceConfig) : Except EmitFault String := do
  let m := Routine.ofProgram p
  let start ← (({} : Buffer).performAll (Stmt.stepsOf p.startCode)).mapError .buffer
  let routine ← m.assemble
  let attempt ← (({} : Buffer).append routine).mapError .buffer
  let b ← (({} : Buffer).performAll
    (Stmt.stepsOf (p.headCode config.getRuntimePath (p.startCode ++ m.code)) ++
      p.implSteps config.getStructName start attempt ++
      wrapSteps config)).mapError .buffer
  b.finish.mapError .buffer

end Program

/-! ### Emitted rows and cases -/

namespace Emitter

variable {e e' : Emitter} {xs ys : List EmitStep} {rows : List Row} {cases : List (Nat × Buffer)}

theorem performAll_append (h : e.performAll xs = .ok e') (ys : List EmitStep) :
    e.performAll (xs ++ ys) = e'.performAll ys := by
  rw [performAll] at h
  rw [performAll, List.foldlM_append, h]
  rfl

theorem performAll_cons (s : EmitStep) (h : e.perform s = .ok e') (ys : List EmitStep) :
    e.performAll (s :: ys) = e'.performAll ys := by
  rw [performAll, List.foldlM_cons, h]
  rfl

theorem performAll_write {steps : List BufferStep} {b : Buffer} (h : e.current.performAll steps = .ok b) :
    e.performAll (steps.map .write) = .ok { e with current := b } := by
  induction steps generalizing e with
  | nil =>
    obtain rfl := Except.ok.inj h
    rfl
  | cons s steps ih =>
    obtain ⟨b₁, hs, hsteps⟩ := exists_ok_of_bind h
    have hwrite : e.perform (.write s) = .ok { e with current := b₁ } := by rw [perform, hs]; rfl
    rw [List.map_cons, performAll_cons _ hwrite]
    exact ih hsteps

/-- The steps write these lines and make these cases, and close what they open. -/
def Emits (steps : List EmitStep) (rows : List Row) (cases : List (Nat × Buffer)) : Prop :=
  ∀ e : Emitter, e.waiting = none →
    e.performAll steps = .ok ⟨e.current.addRows rows, none, e.cases ++ cases⟩

namespace Emits

theorem nil : Emits [] [] [] := by
  rintro ⟨b, _, cs⟩ rfl
  rw [addRows_nil, List.append_nil]
  rfl

theorem append {more : List Row} {cases' : List (Nat × Buffer)} (hx : Emits xs rows cases)
    (hy : Emits ys more cases') : Emits (xs ++ ys) (rows ++ more) (cases ++ cases') := by
  intro e he
  rw [performAll_append (hx e he), hy _ rfl, addRows_addRows, List.append_assoc]

theorem write {steps : List BufferStep} (h : Writes steps rows) : Emits (steps.map .write) rows [] := by
  rintro ⟨b, _, cs⟩ rfl
  rw [performAll_write (h b), List.append_nil]

theorem lookUp {size index : Nat} (h : index < size) : Emits [.lookUp size index] [] [] := by
  rintro ⟨b, _, cs⟩ rfl
  have hfound : Emitter.perform ⟨b, none, cs⟩ (.lookUp size index) = .ok ⟨b, none, cs⟩ := if_pos h
  rw [performAll_cons _ hfound]
  exact nil _ rfl

/-- What is written as a case goes into a buffer of its own. -/
theorem case {steps : List BufferStep} (h : Writes steps rows) (tag : Nat) :
    Emits (.beginCase :: (steps.map .write ++ [.endCase tag])) [] [(tag, ({} : Buffer).addRows rows)] := by
  rintro ⟨b, _, cs⟩ rfl
  rw [performAll_cons .beginCase rfl, performAll_append (performAll_write (h _)),
    performAll_cons (.endCase tag) rfl, addRows_nil]
  rfl

theorem scope (h : Emits xs rows cases) (header : String) :
    Emits (.write (.openScope header) :: (xs ++ [.write .close])) (Row.scope header rows "") cases := by
  rintro ⟨b, _, cs⟩ rfl
  have hclose := Buffer.performAll_cons .close (b.closeWith_openScope header rows "") []
  rw [performAll_cons _ rfl, performAll_append (h _ rfl)]
  exact performAll_write (e := ⟨_, none, _⟩) hclose

theorem flatMap {α : Type} {xs : List α} {f : α → List EmitStep} {rows : α → List Row}
    {cases : α → List (Nat × Buffer)} (h : ∀ x ∈ xs, Emits (f x) (rows x) (cases x)) :
    Emits (xs.flatMap f) (xs.flatMap rows) (xs.flatMap cases) := by
  induction xs with
  | nil => exact nil
  | cons x xs ih =>
    simp only [List.flatMap_cons]
    exact (h x (List.mem_cons_self ..)).append (ih fun y hy => h y (List.mem_cons_of_mem _ hy))

theorem lookUps {size : Nat} {index : Option Nat} (h : ∀ i ∈ index, i < size) :
    Emits (index.toList.map (.lookUp size)) [] [] := by
  cases index with
  | none => exact nil
  | some i => exact lookUp (h i rfl)

end Emits

end Emitter

namespace Routine

open Emitter

variable {m : Routine}

/-- All that the operations look up is there. -/
def InRange (m : Routine) (ops : List Operation) : Prop :=
  ∀ o ∈ ops, (∀ i ∈ o.op.string?, i < m.program.code.strings.size) ∧
    ∀ k ∈ o.op.class?, k < m.program.code.classes.size

/-- The case of a resumption. -/
def caseOf (m : Routine) (o : Operation) (second : Bool) : DispatchCase :=
  ⟨m.tag o second, m.resumeCode o second⟩

/-- The cases of an operation, in the order in which they are begun. -/
def begunCases (m : Routine) (o : Operation) : List DispatchCase :=
  ([false, true].filter (· ∈ o.op.resumptions)).map (m.caseOf o)

/-- A case in a buffer of its own. -/
def caseBuffer (c : DispatchCase) : Nat × Buffer := (c.tag, ({} : Buffer).addRows (Stmt.rowsOf c.body))

theorem emissionOf_emits (m : Routine) (o : Operation)
    (hstring : ∀ i ∈ o.op.string?, i < m.program.code.strings.size)
    (hclass : ∀ k ∈ o.op.class?, k < m.program.code.classes.size) :
    Emits (m.emissionOf o) (Stmt.rowsOf (.comment o.describe :: m.forwardCode o))
      ((m.begunCases o).map caseBuffer) := by
  have hforward : Emits _ (Stmt.rowsOf (.comment o.describe :: m.forwardCode o)) [] :=
    .write (Stmt.writes_stepsOf _)
  have hcases : ∀ seconds : List Bool, Emits (seconds.flatMap fun second => .beginCase ::
      ((Stmt.stepsOf (m.resumeCode o second)).map .write ++ [.endCase (m.tag o second)]))
      [] ((seconds.map (m.caseOf o)).map caseBuffer) := by
    intro seconds
    induction seconds with
    | nil => exact .nil
    | cons second rest ih => exact (Emits.case (Stmt.writes_stepsOf _) (m.tag o second)).append ih
  have hall := (((Emits.lookUps hstring).append (.lookUps hclass)).append hforward).append
    (hcases ([false, true].filter (· ∈ o.op.resumptions)))
  rw [emissionOf, begunCases]
  simpa only [List.nil_append, List.append_nil] using hall

/-- Operations at which no state begins are written into the arm that is open. -/
theorem emissionFrom_inner {seg : List Operation} (hinner : ∀ x ∈ seg, m.program.isLabel x.id = false)
    (terminated : Bool) (rest : List Operation) :
    m.emissionFrom true terminated (seg ++ rest) = seg.flatMap m.emissionOf ++
      m.emissionFrom true ((seg.getLast?.map (·.op.terminates)).getD terminated) rest := by
  induction seg generalizing terminated with
  | nil => rfl
  | cons o seg ih =>
    obtain ⟨ho, hseg⟩ := List.forall_mem_cons.mp hinner
    rw [List.cons_append, emissionFrom, Bool.true_or, ih hseg, List.getLast?_cons]
    simp [ho, Option.getD_map]

/-- Before an operation at which a state begins, and at the end, the open arm is left. -/
theorem emissionFrom_leave {ops : List Operation} (hnext : ∀ x ∈ ops.head?, m.program.isLabel x.id = true)
    (isOpen terminated : Bool) :
    m.emissionFrom isOpen terminated ops =
      (leaveArm isOpen terminated (ops.head?.map (·.id))).map .write ++ m.emissionFrom false terminated ops := by
  cases ops with
  | nil => simp [emissionFrom, leaveArm]
  | cons o rest => simp [emissionFrom, hnext o rfl, leaveArm]

theorem leaveArm_eq (last : Operation) (next : Option Nat) :
    leaveArm true last.op.terminates next = Stmt.stepsOf (armEnd last next) ++ [.close] := by
  cases h : last.op.terminates <;> cases next <;> simp [leaveArm, armEnd, h, Stmt.stepsOf, Stmt.steps]

/-- **Passing the operations writes the arms**, and makes the cases on the side. -/
theorem emissionFrom_emits {segs : List (List Operation)} (h : Segmented m.program.isLabel segs)
    (hfirst : ∀ k ∈ firstLabel? segs, m.program.isLabel k = true) (hrange : m.InRange segs.flatten)
    (terminated : Bool) :
    Emits (m.emissionFrom false terminated segs.flatten) (Stmt.rowsOf ((m.armsOf segs).map armCode))
      (segs.flatten.flatMap fun o => (m.begunCases o).map caseBuffer) := by
  induction h generalizing terminated with
  | nil => exact .nil
  | @cons o seg rest hinner hnext htail ih =>
    obtain ⟨hseg, hrest⟩ := List.forall_mem_append.mp hrange
    have hlabel : m.program.isLabel o.id = true := hfirst o.id rfl
    have hnext' : ∀ x ∈ rest.flatten.head?, m.program.isLabel x.id = true := by
      intro x hx
      refine hnext x.id ?_
      rw [htail.firstLabel?_eq, Option.mem_def.mp hx]
      rfl
    -- The operations of the segment, and how their arm ends.
    have hops : Emits ((o :: seg).flatMap m.emissionOf) (Stmt.rowsOf (m.operationsCode (o :: seg)))
        ((o :: seg).flatMap fun o => (m.begunCases o).map caseBuffer) := by
      rw [operationsCode, Stmt.rowsOf_flatMap]
      exact .flatMap fun x hx => m.emissionOf_emits x (hseg x hx).1 (hseg x hx).2
    have hend := Emits.write (Stmt.writes_stepsOf (armEnd ((o :: seg).getLast?.getD o) (firstLabel? rest)))
    have harm := (hops.append hend).scope (toString o.id ++ " =>")
    have hsteps : m.emissionFrom false terminated ((o :: seg) :: rest).flatten =
        .write (.openScope (toString o.id ++ " =>")) :: (((o :: seg).flatMap m.emissionOf ++
          (Stmt.stepsOf (armEnd ((o :: seg).getLast?.getD o) (firstLabel? rest))).map .write) ++
          [.write .close]) ++ m.emissionFrom false ((o :: seg).getLast?.getD o).op.terminates rest.flatten := by
      rw [List.flatten_cons, List.cons_append, emissionFrom, hlabel, Bool.false_or, emissionFrom_inner hinner,
        emissionFrom_leave hnext', Option.getD_map, List.getLast?_cons, Option.getD_some, leaveArm_eq,
        htail.firstLabel?_eq]
      simp [leaveArm]
    have hall := harm.append (ih hnext hrest ((o :: seg).getLast?.getD o).op.terminates)
    rw [hsteps, List.flatten_cons, List.flatMap_append, armsOf, List.map_cons, Stmt.rowsOf, armCode,
      Stmt.rows_block, Stmt.rowsOf_append]
    rwa [List.append_nil] at hall

/-! ### The cases in order -/

theorem casesFrom_append (m : Routine) (tag : Nat) (xs ys : List Resumption) :
    m.casesFrom tag (xs ++ ys) = m.casesFrom tag xs ++ m.casesFrom (tag + xs.length) ys := by
  simp [casesFrom_eq, List.mapIdx_append, Nat.add_assoc, Nat.add_comm xs.length]

end Routine

namespace Program.Numbered

variable {p : Program} {before after : List Operation} {o : Operation}

/-- The cases of one operation. -/
theorem casesFrom_resumptions (h : p.Numbered) (hsplit : p.operations.toList = before ++ o :: after) :
    (Routine.ofProgram p).casesFrom (Routine.resumptionsOf before).length (o.op.resumptions.map (⟨o.id, ·⟩)) =
      o.op.resumptions.map ((Routine.ofProgram p).caseOf o) := by
  have ho : o ∈ p.operations.toList := by rw [hsplit]; simp
  have hcode : ∀ second, (Routine.ofProgram p).resumptionCode ⟨o.id, second⟩ =
      (Routine.ofProgram p).resumeCode o second := by
    intro second
    rw [Routine.resumptionCode, Routine.operations, Routine.ofProgram, h.getElem? ho]
    rfl
  rw [Routine.casesFrom_eq]
  refine List.ext_getElem (by simp) fun i hi hi' => ?_
  have htag := List.getElem_of_eq (h.map_tag hsplit) (by simpa using hi')
  simp only [List.getElem_map, List.getElem_range', Nat.one_mul] at htag
  simp only [List.getElem_mapIdx, List.getElem_map, hcode, Routine.caseOf, htag]

/-- There is one case for each resumption of each operation. -/
theorem cases_eq (h : p.Numbered) :
    (Routine.ofProgram p).cases =
      p.operations.toList.flatMap fun o => o.op.resumptions.map ((Routine.ofProgram p).caseOf o) := by
  suffices hfrom : ∀ after before : List Operation, p.operations.toList = before ++ after →
      (Routine.ofProgram p).casesFrom (Routine.resumptionsOf before).length (Routine.resumptionsOf after) =
        after.flatMap fun o => o.op.resumptions.map ((Routine.ofProgram p).caseOf o) from
    hfrom _ [] rfl
  intro after
  induction after with
  | nil => intros; rfl
  | cons o after ih =>
    intro before hsplit
    have hnext := ih (before ++ [o]) (by rw [hsplit, List.append_assoc, List.singleton_append])
    have hcons : Routine.resumptionsOf (o :: after) =
        o.op.resumptions.map (⟨o.id, ·⟩) ++ Routine.resumptionsOf after := rfl
    have hcount : (Routine.resumptionsOf (before ++ [o])).length =
        (Routine.resumptionsOf before).length + (o.op.resumptions.map (Resumption.mk o.id)).length := by
      simp [Routine.resumptionsOf]
    rw [hcons, Routine.casesFrom_append, h.casesFrom_resumptions hsplit, ← hcount, hnext, List.flatMap_cons]

/-- Sorting the cases by their tags brings them into the order of the dispatcher. -/
theorem mergeSort_begunCases (h : p.Numbered) :
    ((p.operations.toList.flatMap fun o => ((Routine.ofProgram p).begunCases o).map Routine.caseBuffer).mergeSort
      fun c d => c.1 ≤ d.1) = (Routine.ofProgram p).cases.map Routine.caseBuffer := by
  have htags := (Routine.dispatches h).tags
  have hseconds : ∀ op : Op, ([false, true].filter (· ∈ op.resumptions)).Perm op.resumptions := by
    intro op
    refine (List.perm_ext_iff_of_nodup (List.Nodup.filter _ (by decide)) op.resumptions_nodup).mpr fun second => ?_
    cases second <;> simp
  have hperm : (p.operations.toList.flatMap fun o =>
      ((Routine.ofProgram p).begunCases o).map Routine.caseBuffer).Perm
      ((Routine.ofProgram p).cases.map Routine.caseBuffer) := by
    rw [h.cases_eq, List.map_flatMap]
    exact List.Perm.flatMap_left _ fun o _ => ((hseconds o.op).map _).map _
  have hsorted := (List.mergeSort_perm _ fun c d : Nat × Buffer => decide (c.1 ≤ d.1)).trans hperm
  refine List.Perm.eq_of_pairwise ?_ (List.pairwise_mergeSort ?_ ?_ _) ?_ hsorted
  · -- Cases of one tag are one case.
    intro c d hc hd hcd hdc
    obtain ⟨c, hc', rfl⟩ := List.mem_map.mp (hsorted.mem_iff.mp hc)
    obtain ⟨d, hd', rfl⟩ := List.mem_map.mp hd
    have htag : c.tag = d.tag := Nat.le_antisymm (of_decide_eq_true hcd) (of_decide_eq_true hdc)
    rw [List.inj_on_of_nodup_map (htags ▸ List.nodup_range) hc' hd' htag]
  · intro a b c hab hbc
    exact decide_eq_true (Nat.le_trans (of_decide_eq_true hab) (of_decide_eq_true hbc))
  · intro a b
    simpa using Nat.le_total a.1 b.1
  · have hascending := htags ▸ List.pairwise_lt_range
    exact List.pairwise_map.mpr
      ((List.pairwise_map.mp hascending).imp fun hlt => decide_eq_true (Nat.le_of_lt hlt))

end Program.Numbered

/-! ### The whole -/

namespace Routine

open Buffer

theorem rows_dispatchCode (m : Routine) :
    m.dispatchCode.rows = Row.scope "BACKTRACK => match r.track_pop()"
      (Stmt.rowsOf (m.cases.map caseCode) ++ [⟨0, "_ => unreachable!(\"unknown backtrack tag\"),"⟩]) "," := by
  simp [dispatchCode, Stmt.rows, Stmt.rowsOf, Phrase.plain, Phrase.toText, Token.toText, Stmt.code]

theorem rows_loopCode (m : Routine) :
    m.loopCode.rows = Row.scope "'run: loop" (Row.scope "match state"
      (Stmt.rowsOf (m.arms.map armCode) ++ (m.dispatchCode.rows ++ [⟨0, "_ => unreachable!(\"unknown state\"),"⟩]))
      "") "" := by
  simp [loopCode, Stmt.rows_block, Stmt.rows, Stmt.rowsOf, Phrase.plain, Phrase.toText, Token.toText, Stmt.code]

/-- Each case is put into the dispatcher. -/
theorem caseSteps_writes (cs : List DispatchCase) :
    Writes ((cs.map caseBuffer).flatMap fun c => [.openScope (toString c.1 ++ " =>"), .append c.2, .close])
      (Stmt.rowsOf (cs.map caseCode)) := by
  induction cs with
  | nil => exact .nil
  | cons c cs ih =>
    have hcase := (Writes.buffer (Stmt.rowsOf c.body)).scope (toString c.tag ++ " =>") .close fun _ => rfl
    rw [List.map_cons (f := caseCode), Stmt.rowsOf, caseCode, Stmt.rows_block]
    exact hcase.append ih

theorem dispatchSteps_writes (m : Routine) :
    Writes (dispatchSteps (m.cases.map caseBuffer)) m.dispatchCode.rows := by
  have hcases := (caseSteps_writes m.cases).append (.line "_ => unreachable!(\"unknown backtrack tag\"),")
  rw [rows_dispatchCode]
  exact hcases.scope "BACKTRACK => match r.track_pop()" (.closeWith ",") fun _ => rfl

/-- What comes after the arms is the dispatcher and the end of two scopes. -/
theorem performAll_leaveLoop (m : Routine) (b : Buffer) :
    (((b.openScope "'run: loop").openScope "match state").addRows (Stmt.rowsOf (m.arms.map armCode))).performAll
        (leaveLoop (m.cases.map caseBuffer)) = .ok (b.addRows m.loopCode.rows) := by
  have hlast := m.dispatchSteps_writes.append (.line "_ => unreachable!(\"unknown state\"),")
  rw [leaveLoop, performAll_append (hlast _), addRows_addRows,
    performAll_cons .close (closeWith_openScope ..), performAll_cons .close (closeWith_openScope ..),
    rows_loopCode]
  rfl

/-- **The routine is assembled without a fault**, and as its tree says. -/
theorem assemble_eq {p : Program} (h : p.Numbered) (hrange : (ofProgram p).InRange p.operations.toList) :
    (ofProgram p).assemble = .ok (({} : Buffer).addRows (Stmt.rowsOf (ofProgram p).code)) := by
  obtain ⟨hsegmented, hflatten⟩ := segments_segmented p.isLabel p.operations.toList
  have harms := emissionFrom_emits (m := ofProgram p) hsegmented (segments_first h) (hflatten.symm ▸ hrange) false
  rw [hflatten] at harms
  have henter : ({} : Buffer).performAll enterLoop =
      .ok (((({} : Buffer).addRows (Stmt.rowsOf entryCode)).openScope "'run: loop").openScope "match state") :=
    performAll_append (Stmt.writes_stepsOf entryCode _) _
  have hemitted : Emitter.performAll {} (enterLoop.map .write ++
      (ofProgram p).emissionFrom false false (ofProgram p).operations.toList) = _ :=
    (Emitter.performAll_append (Emitter.performAll_write henter) _).trans (harms _ rfl)
  have hcode : Stmt.rowsOf (ofProgram p).code = Stmt.rowsOf entryCode ++ (ofProgram p).loopCode.rows := by
    show Stmt.rowsOf (entryCode ++ [(ofProgram p).loopCode]) = _
    rw [Stmt.rowsOf_append, Stmt.rowsOf, Stmt.rowsOf_nil, List.append_nil]
  rw [assemble, hemitted, hcode, ← addRows_addRows]
  show Except.mapError _ (Buffer.performAll _ (leaveLoop (List.mergeSort ([] ++ _) _))) = _
  rw [List.nil_append, h.mergeSort_begunCases]
  exact congrArg (Except.mapError _) (performAll_leaveLoop (ofProgram p) _)

end Routine

namespace Program

open Buffer

theorem functionSteps_writes (header : String) (body : List Stmt) :
    Writes (functionSteps header (({} : Buffer).addRows (Stmt.rowsOf body))) (Stmt.block header body).rows :=
  Stmt.writes_block (.buffer _) header

theorem constantSteps_writes (name type value : String) :
    Writes (constantSteps name type value) (constantCode name type value).rows :=
  Stmt.writes_block (Stmt.writes_code value Stmt.writes_nil) _

/-- The matcher is written around the bodies of its functions. -/
theorem implSteps_writes (p : Program) (structName : String) (start attempt : List Stmt) :
    Writes (p.implSteps structName (({} : Buffer).addRows (Stmt.rowsOf start))
      (({} : Buffer).addRows (Stmt.rowsOf attempt))) (Stmt.rowsOf (p.implCode structName start attempt)) := by
  have hconstants :=
    Stmt.writes_cons (constantSteps_writes "track_count" "usize" (toString p.code.trackCount)) <|
    Stmt.writes_blank <|
    Stmt.writes_cons (constantSteps_writes "capture_numbers" "&'static [u32]" "CAPTURE_NUMBERS") <|
    Stmt.writes_blank <|
    Stmt.writes_cons (constantSteps_writes "group_names" "&'static [&'static str]" "GROUP_NAMES") <|
    Stmt.writes_blank <|
    Stmt.writes_cons (constantSteps_writes "right_to_left" "bool" (toString p.code.rightToLeft)) Stmt.writes_nil
  have hattempt :=
    Stmt.writes_code ("#[allow(unused_variables, unused_mut, unused_assignments, unreachable_code, " ++
      "unused_labels, clippy::all)]") <|
    Stmt.writes_cons (functionSteps_writes "fn go(&self, r: &mut Runner)" attempt) <|
    Stmt.writes_blank hconstants
  have hmembers := Stmt.writes_code "#[allow(unused_variables)]" <|
    Stmt.writes_cons (functionSteps_writes "fn find_first_char(&self, r: &mut Runner) -> bool" start)
      (Stmt.writes_blank hattempt)
  have hall := Stmt.writes_code ("pub struct " ++ structName ++ ";") <| Stmt.writes_blank <|
    Stmt.writes_cons (Stmt.writes_block hmembers ("impl Matcher for " ++ structName)) Stmt.writes_nil
  rw [List.append_nil, List.append_nil] at hall
  exact hall

theorem compile_eq (p : Program) (config : SourceConfig) :
    ∃ k b, p.compile config = .ok k ∧ b.finish = .ok k.source ∧
      (({} : Buffer).addRows (Stmt.rowsOf (p.itemsCode config))).performAll (wrapSteps config) = .ok b := by
  simp only [compile, Stmt.writeAll_eq, bind, Except.bind]
  cases hmodule : config.getModule with
  | none | some => exact ⟨_, _, rfl, rfl, by rw [wrapSteps, hmodule]; rfl⟩

end Program

namespace Code

variable {c : Code} {p : Program}

/-- What the operations of an accepted program look up is there. -/
theorem program_inRange (h : c.program = .ok p) : (Routine.ofProgram p).InRange p.operations.toList := by
  intro o ho
  obtain ⟨is, hlaid, _, hdecode⟩ := program_decoded h
  obtain ⟨before, after, hsplit⟩ := List.append_of_mem ho
  obtain ⟨i, pre, post, hinverts, _⟩ := Operation.decode_inverts hlaid hdecode hsplit
  have hplaced := hinverts.placed
  obtain ⟨ops, _, rfl⟩ := exists_ok_of_map h
  cases hop : o.op <;> rw [hop] at hplaced <;> simp only [Op.string?, Op.class?]
  case rep t count => exact ⟨by simp, fun k hk => t.lt_of_valid hplaced hk⟩
  case span lazy t max => exact ⟨by simp, fun k hk => t.lt_of_valid hplaced hk⟩
  case test t => exact ⟨by simp, fun k hk => t.lt_of_valid hplaced hk⟩
  case multi i => exact ⟨fun j hj => Option.mem_some.mp hj ▸ hplaced, by simp⟩
  all_goals simp

end Code

end PatternCompiler
