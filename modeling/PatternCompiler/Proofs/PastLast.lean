import PatternCompiler.Proofs.Tags
import PatternCompiler.Search.Machine

/-! The state past the last operation.

The number of operations stands for the arm that takes a tag, so no jump may set it as a state.
An operation leads past the last one only if it is the last one itself and goes on after itself when
it is resumed (`leadsTo_inside_or_past`). Forward code never does that: what comes to the end of the
last arm ends the match. `Code.program_past` puts this together for every accepted program. A loop that
stands last does collide, in the first of its resumptions and nowhere else; a program that ends
with anything else, as that of every pattern does, never sets the number. -/
namespace PatternCompiler

open Source

namespace Routine

variable {m : Routine} {p : Program} {before : List Operation} {last o : Operation} {k : Nat}

/-! ### What resumptions set -/

section

attribute [local simp] Stmt.code Stmt.declare Stmt.declareMut Stmt.ifScope Stmt.whileScope Stmt.block failIf
  Source.fail uncaptureTo pushMarkCode

/-- What an operation does first sets no state but its target. -/
theorem target_of_setState_mem (m : Routine) (h : .setState k ∈ Stmt.statementsOf (m.forwardCode o)) :
    o.op.target? = some k := by
  have hgoto : ∀ target id, .setState k ∈ Stmt.statementsOf (Source.goto target id) → target = k := by
    intro target id hk
    by_cases hle : target ≤ id <;> simpa [Source.goto, hle, eq_comm] using hk
  cases hop : o.op <;> simp only [forwardCode, hop] at h
  case rep t count => by_cases hcount : count = 0 <;> simp [repCode, hcount, moveCode] at h
  case span lazy t max => cases lazy <;> simp [greedyCode, lazyCode, limitCode, stepCode] at h
  case test t => simp [testCode, stepCode] at h
  case multi i =>
    simp only [multiCode] at h
    split at h <;> simp [moveCode] at h
  case ref slot => cases hecma : m.program.code.ecmaScript <;> simp [refCode, hecma, moveCode] at h
  case branchmark lazy target =>
    cases lazy <;> simp [branchmarkCode, lazyBranchmarkCode] at h
    exact congrArg some (hgoto _ _ h)
  case branchcount lazy target limit =>
    cases lazy <;> simp [branchcountCode, lazyBranchcountCode, popCounter] at h
    all_goals exact congrArg some (hgoto _ _ h)
  case capturemark slot uncapture =>
    cases slot <;> cases uncapture <;> simp [capturemarkCode, captureCode] at h
  case goto target => exact congrArg some (hgoto _ _ h)
  all_goals simp [setjumpCode, backjumpCode, forejumpCode, Source.stop] at h

/-- To undo an operation is to fail. -/
theorem setState_not_mem_undo (m : Routine) (hsecond : true ∈ o.op.resumptions) (k : Nat) :
    .setState k ∉ Stmt.statementsOf (m.resumeCode o true) := by
  cases hop : o.op <;> rw [hop] at hsecond <;> simp only [Op.resumptions] at hsecond
  case branchmark lazy target =>
    cases lazy <;> simp [resumeCode, hop, redoMarkCode, undoLazyBranchmarkCode]
  case branchcount lazy target limit =>
    cases lazy <;> simp [resumeCode, hop, undoBranchcountCode, undoLazyBranchcountCode]
  all_goals simp at hsecond

theorem setState_mem_resumeCode (m : Routine) (hresumes : o.op.resumesAtNext = true) :
    false ∈ o.op.resumptions ∧ .setState (o.id + 1) ∈ Stmt.statementsOf (m.resumeCode o false) := by
  cases hop : o.op <;> rw [hop] at hresumes <;> simp only [Op.resumesAtNext] at hresumes
  case span lazy t max =>
    cases lazy <;> simp [Op.resumptions, resumeCode, hop, resumeGreedyCode, resumeLazyCode, Source.goto]
  case branchmark lazy target =>
    cases lazy
    · simp [Op.resumptions, resumeCode, hop, resumeBranchmarkCode, Source.goto]
    · cases hresumes
  case branchcount lazy target limit =>
    cases lazy
    · simp [Op.resumptions, resumeCode, hop, resumeBranchcountCode, Source.goto]
    · cases hresumes
  all_goals cases hresumes

end

/-! ### The routine -/

/-- The number past the last operation is set as a state only where a loop that stands last is resumed. -/
structure PastLast (m : Routine) (labels : List Nat) (last : Operation) : Prop where
  inside : ∀ k ∈ labels, k < m.operations.size
  /-- A state is set only by its number or to the one that takes a tag. -/
  jumps : ∀ k, .setState k ∈ Stmt.statementsOf m.code →
    k ∈ labels ∨ k = m.operations.size ∧ last.op.resumesAtNext = true
  lines : ∀ l, .line l ∈ Stmt.statementsOf m.code → ¬ "state = ".toList <+: l.toText.toList
  collides : .setState m.operations.size ∈ Stmt.statementsOf m.code ↔ last.op.resumesAtNext = true
  arms : ∀ a ∈ m.arms, .setState m.operations.size ∉ Stmt.statementsOf a.body
  cases : ∀ c ∈ m.cases, .setState m.operations.size ∈ Stmt.statementsOf c.body ↔
    last.op.resumesAtNext = true ∧ m.resumptions[c.tag]? = some ⟨last.id, false⟩
  /-- Control that comes to the end of the last operation ends the match. -/
  falls : last.op.terminates = false → ∃ a ∈ m.arms, last ∈ m.operationsFrom labels a.label ∧
    a.body = m.operationsCode (m.operationsFrom labels a.label) ++ Source.stop

theorem setState_size_not_mem_arm (h : p.Numbered) {a : Arm} (ha : a ∈ (ofProgram p).arms) :
    .setState p.operations.size ∉ Stmt.statementsOf a.body := by
  intro hk
  rcases mem_arm h ha hk with hpassive | ⟨o, ho, hk⟩ | ⟨k, hk, heq⟩
  · exact hpassive
  · exact absurd (h.targets o ho _ (target_of_setState_mem _ hk)) (Nat.lt_irrefl _)
  · cases heq
    exact absurd (Program.mem_labels.mp hk).1 (Nat.lt_irrefl _)

theorem last_id (h : p.Numbered) (hlast : p.operations.toList = before ++ [last]) :
    last.id + 1 = p.operations.size := by
  rw [h.id_eq_length hlast, ← Array.length_toList, hlast, List.length_append, List.length_singleton]

theorem setState_size_mem_case (h : p.Numbered) (hlast : p.operations.toList = before ++ [last])
    {c : DispatchCase} (hc : c ∈ (ofProgram p).cases) :
    .setState p.operations.size ∈ Stmt.statementsOf c.body ↔
      last.op.resumesAtNext = true ∧ (ofProgram p).resumptions[c.tag]? = some ⟨last.id, false⟩ := by
  obtain ⟨s, o, hs, ho, hid, hsecond, hbody⟩ := exists_of_mem_cases h hc
  have hs : (ofProgram p).resumptions[c.tag]? = some s := by simpa [ofProgram] using hs
  rw [hbody, hs, Option.some_inj]
  constructor
  · intro hk
    rcases leadsTo_inside_or_past h hlast ho (resumeCode_obeys _ o _ _ hk) with hk | ⟨_, rfl, hresumes⟩
    · exact absurd (Program.mem_labels.mp hk).1 (Nat.lt_irrefl _)
    · obtain ⟨id, second⟩ := s
      cases second with
      | true => exact absurd hk (setState_not_mem_undo _ hsecond _)
      | false => exact ⟨hresumes, by rw [hid]⟩
  · rintro ⟨hresumes, rfl⟩
    have hsame : o = last := by
      have hget := h.getElem? ho
      rw [hid, h.getElem? (hlast ▸ List.mem_append_right _ (List.mem_singleton_self _))] at hget
      exact (Option.some_inj.mp hget).symm
    rw [hsame, ← last_id h hlast]
    exact (setState_mem_resumeCode _ hresumes).2

theorem exists_falls (h : p.Numbered) (hlast : p.operations.toList = before ++ [last])
    (hthrough : last.op.terminates = false) :
    ∃ a ∈ (ofProgram p).arms, last ∈ (ofProgram p).operationsFrom p.labels a.label ∧
      a.body = (ofProgram p).operationsCode ((ofProgram p).operationsFrom p.labels a.label) ++ Source.stop := by
  have hmem : last ∈ p.labels.flatMap ((ofProgram p).operationsFrom p.labels) := by
    rw [flatMap_operationsFrom h, hlast]
    simp
  obtain ⟨label, hlabel, hfrom⟩ := List.mem_flatMap.mp hmem
  rw [← arms_label h] at hlabel
  obtain ⟨a, ha, rfl⟩ := List.mem_map.mp hlabel
  refine ⟨a, ha, hfrom, ?_⟩
  obtain ⟨front, o, seg, after, hsegment, hlabel, hbody⟩ := arm_segment h ha
  have hoperations : (ofProgram p).operationsFrom p.labels a.label = o :: seg := by
    rw [hlabel]
    exact h.filter_nearest hsegment
  rw [hoperations] at hfrom ⊢
  have hafter : after = [] := by
    by_contra hne
    obtain ⟨y, rest, rfl⟩ := List.exists_cons_of_ne_nil hne
    have hy : y ∈ p.operations.toList := by
      rw [hsegment.split]
      simp
    have hlt := (h.segment_ascending hsegment).2.2.1 last hfrom y (List.mem_cons_self ..)
    have hle := h.id_lt hy
    rw [← last_id h hlast] at hle
    omega
  have hend : (o :: seg).getLast?.getD o = last := by
    have hsplit := hlast.symm.trans hsegment.split
    rw [hafter, List.append_nil] at hsplit
    have hgetLast := congrArg List.getLast? hsplit
    rw [List.getLast?_append_cons, List.getLast?_append_cons] at hgetLast
    rw [← hgetLast]
    rfl
  simp [hbody, hend, hafter, armEnd, hthrough]

theorem mem_code_of_mem_case {s : Stmt} {c : DispatchCase} (hc : c ∈ m.cases)
    (hs : s ∈ Stmt.statementsOf c.body) : s ∈ Stmt.statementsOf m.code := by
  have hcase : s ∈ Stmt.statementsOf (m.cases.map caseCode) :=
    Stmt.mem_statementsOf.mpr ⟨caseCode c, List.mem_map_of_mem hc, List.mem_cons_of_mem _ hs⟩
  have hdispatch : s ∈ m.dispatchCode.statements := by
    rw [dispatchCode, Stmt.statements, Stmt.statementsOf_append]
    exact List.mem_cons_of_mem _ (List.mem_append_left _ hcase)
  refine Stmt.mem_statementsOf.mpr ⟨m.loopCode, by simp [code], ?_⟩
  simp [loopCode, Stmt.block, hdispatch]

/-- Where a loop that stands last is resumed, the routine goes on with the number past it. -/
theorem setState_size_mem_code (h : p.Numbered) (hlast : p.operations.toList = before ++ [last])
    (hresumes : last.op.resumesAtNext = true) :
    .setState p.operations.size ∈ Stmt.statementsOf (ofProgram p).code := by
  have hmem : last ∈ p.operations.toList := hlast ▸ List.mem_append_right _ (List.mem_singleton_self _)
  have htag := h.resumption_of_tag hmem (setState_mem_resumeCode (ofProgram p) hresumes).1
  have hcase : (ofProgram p).tag last false ∈ (ofProgram p).cases.map (·.tag) := by
    rw [(dispatches h).tags]
    exact List.mem_range.mpr (List.getElem?_eq_some_iff.mp htag).1
  obtain ⟨c, hc, hcase⟩ := List.mem_map.mp hcase
  refine mem_code_of_mem_case hc ((setState_size_mem_case h hlast hc).mpr ⟨hresumes, ?_⟩)
  rw [hcase, ofProgram, List.getElem?_toArray]
  exact htag

theorem pastLast (h : p.Numbered) (hlast : p.operations.toList = before ++ [last]) :
    (ofProgram p).PastLast p.labels last where
  inside _ hk := (Program.mem_labels.mp hk).1
  jumps k hk := by
    rcases allows_of_mem_code h hk with hpassive | ⟨o, ho, hk⟩ | ⟨k', hk', heq⟩
    · cases hpassive
    · exact (leadsTo_inside_or_past h hlast ho hk).imp_right fun hpast => ⟨hpast.1, hpast.2.2⟩
    · cases heq
      exact .inl hk'
  lines l hl := by
    have hstate := (inert_of_mem_code h hl).state
    rwa [Bool.eq_false_iff, Ne, List.isPrefixOf_iff_prefix] at hstate
  collides := by
    constructor
    · intro hk
      rcases mem_code hk with hpassive | ⟨a, ha, hk⟩ | ⟨c, hc, hk⟩
      · cases hpassive
      · exact absurd hk (setState_size_not_mem_arm h ha)
      · exact ((setState_size_mem_case h hlast hc).mp hk).1
    · exact setState_size_mem_code h hlast
  arms _ ha := setState_size_not_mem_arm h ha
  cases _ hc := setState_size_mem_case h hlast hc
  falls := exists_falls h hlast

end Routine

namespace Code

/-- **A state never collides with the one that takes a tag, but for a loop that stands last**: its first
resumption sets the number of operations, which the source declares as that state. -/
theorem program_past {c : Code} {p : Program} (h : c.program = .ok p) (config : SourceConfig) :
    ∃ k before last, p.compile config = .ok k ∧ p.operations.toList = before ++ [last] ∧
      .code ("const BACKTRACK: usize = " ++ toString p.operations.size ++ ";") ∈ p.itemsCode config ∧
      .block "fn go(&self, r: &mut Runner)" (Routine.ofProgram p).code ∈
        Stmt.statementsOf (p.itemsCode config) ∧
      (Routine.ofProgram p).PastLast k.labels last := by
  have hnumbered := program_numbered h
  obtain ⟨k, hk, hlabels, _⟩ := p.compile_ok config
  have hne : p.operations.toList ≠ [] := by
    have hpos := hnumbered.nonempty
    rintro hnil
    rw [← Array.length_toList, hnil] at hpos
    cases hpos
  have hlast := (List.dropLast_append_getLast hne).symm
  refine ⟨k, _, _, hk, hlast, ?_, ?_, hlabels ▸ Routine.pastLast hnumbered hlast⟩
  · simp [Program.itemsCode, Program.headCode]
  · simp [Program.itemsCode, Program.implCode, Stmt.block]

/-- A program that ends with a test: no state but its own is set, and past the test the match ends. -/
theorem program_past_test :
    ∃ p k before last, ({ words := #[3, 97, 5, 9, 98] } : Code).program = .ok p ∧
      p.operations.toList = before ++ [last] ∧ p.compile {} = .ok k ∧
      (Routine.ofProgram p).PastLast k.labels last ∧ last.op = .test (.one 'b') := by
  obtain ⟨p, hp, hops⟩ := exists_ok_of_check ({ words := #[3, 97, 5, 9, 98] } : Code).program
    (fun p => p.operations.toList.getLast?.map (·.op) == some (.test (.one 'b'))) (by decide +kernel)
  obtain ⟨k, before, last, hk, hlast, _, _, hpast⟩ := program_past hp {}
  refine ⟨p, k, before, last, hp, hlast, hk, hpast, ?_⟩
  have hops := eq_of_beq hops
  rw [hlast, List.getLast?_append_cons] at hops
  exact Option.some_inj.mp hops

/-- A loop over a character that stands last. When it is left, the routine goes on with the state that
takes a tag, and finds none, where falling off the end would have ended the match. -/
theorem program_past_loop :
    ∃ p, ({ words := #[30, 9, 97, 24, 1] } : Code).program = .ok p ∧ p.operations.size = 3 ∧
      .setState 3 ∈ Stmt.statementsOf (Routine.ofProgram p).code ∧
      (Routine.ofProgram p).attempt 9 (Runner.ofText "a" 1) = .error .trackUnderflow := by
  refine ⟨⟨{ words := #[30, 9, 97, 24, 1] }, #[⟨0, 0, .nullmark, false, false⟩,
    ⟨1, 1, .test (.one 'a'), false, false⟩, ⟨2, 3, .branchmark false 1, false, false⟩]⟩, rfl, rfl, ?_, rfl⟩
  have hlast : #[⟨0, 0, .nullmark, false, false⟩, ⟨1, 1, .test (.one 'a'), false, false⟩,
      ⟨2, 3, .branchmark false 1, false, false⟩].toList =
      [(⟨0, 0, .nullmark, false, false⟩ : Operation), ⟨1, 1, .test (.one 'a'), false, false⟩] ++
        [⟨2, 3, .branchmark false 1, false, false⟩] := rfl
  exact Routine.setState_size_mem_code (program_numbered (c := { words := #[30, 9, 97, 24, 1] }) rfl) hlast rfl

end Code
end PatternCompiler
