import PatternCompiler.Proofs.Statements

/-! What the code of one operation sets and leaves.

Whatever an operation does, first or when it is resumed, its code sets no state but one that the
operation leads to, and leaves no tag but one of its own (`forwardCode_obeys`,
`resumeCode_obeys`). What it does first leaves each of its tags just once
(`tagsOf_forwardCode`), so a tag that is dispatched is also left somewhere. -/
namespace PatternCompiler

/-! ### Lines that set nothing -/

namespace Source

theorem Phrase.toList_toText (p : Phrase) : p.toText.toList = p.flatMap fun t => t.toText.toList := by
  rw [toText, String.toList_join, List.flatMap_map]

/-- A text begins with the given one, and then with a digit. -/
def beginsNumber : (start text : List Char) → Bool
  | [], c :: _ => c.isDigit
  | a :: start, c :: text => a == c && beginsNumber start text
  | _, [] => false

theorem beginsNumber_append (start : List Char) (n : Nat) (rest : List Char) :
    beginsNumber start (start ++ (Nat.toDigits 10 n ++ rest)) = true := by
  induction start with
  | nil =>
    cases hdigits : Nat.toDigits 10 n with
    | nil => exact absurd hdigits Nat.toDigits_ne_nil
    | cons c cs =>
      exact Nat.isDigit_of_mem_toDigits (by decide) (by decide) (hdigits ▸ List.mem_cons_self ..)
  | cons a start ih => simp [beginsNumber, ih]

/-- A line that neither sets the state nor leaves a tag by its number. -/
structure Inert (l : String) : Prop where
  state : "state = ".toList.isPrefixOf l.toList = false
  tag : beginsNumber "r.track_push(".toList l.toList = false

theorem inert_iff {l : String} :
    Inert l ↔ "state = ".toList.isPrefixOf l.toList = false ∧
      beginsNumber "r.track_push(".toList l.toList = false :=
  ⟨fun h => ⟨h.state, h.tag⟩, fun h => ⟨h.1, h.2⟩⟩

theorem Inert.ne_tag {l : String} (h : Inert l) (t : Nat) : l ≠ "r.track_push(" ++ toString t ++ ");" := by
  intro hl
  have htag := h.tag
  rw [hl, String.toList_append, String.toList_append, Nat.toString_eq_repr, Nat.toList_repr,
    List.append_assoc, beginsNumber_append] at htag
  cases htag

end Source

open Source

/-! ### The code of an operation -/

namespace Routine

/-- What may stand in the code of an operation. -/
def Allows (m : Routine) (o : Operation) : Stmt → Prop
  | .setState k => o.leadsTo k = true
  | .pushTag t => ∃ second ∈ o.op.resumptions, t = m.tag o second
  | .line p => Inert p.toText
  | _ => True

/-- The code sets only states that the operation leads to, and leaves only tags of its own. -/
def Obeys (m : Routine) (o : Operation) (ss : List Stmt) : Prop :=
  ∀ s ∈ Stmt.statementsOf ss, m.Allows o s

section Obeys

variable {m : Routine} {o : Operation}

@[simp] theorem obeys_nil : m.Obeys o [] := by simp [Obeys]

@[simp] theorem obeys_append {ss ts : List Stmt} : m.Obeys o (ss ++ ts) ↔ m.Obeys o ss ∧ m.Obeys o ts := by
  simp only [Obeys, Stmt.statementsOf_append, List.forall_mem_append]

@[simp] theorem obeys_scope {header : Phrase} {body : List Stmt} {tail : String} {ss : List Stmt} :
    m.Obeys o (.scope header body tail :: ss) ↔ m.Obeys o body ∧ m.Obeys o ss := by
  simp [Obeys, Allows, or_imp, forall_and]

@[simp] theorem obeys_branch {condition : Phrase} {yes no ss : List Stmt} :
    m.Obeys o (.branch condition yes no :: ss) ↔ m.Obeys o yes ∧ m.Obeys o no ∧ m.Obeys o ss := by
  simp [Obeys, Allows, or_imp, forall_and]

@[simp] theorem obeys_pushTag {t : Nat} {ss : List Stmt} :
    m.Obeys o (.pushTag t :: ss) ↔ (∃ second ∈ o.op.resumptions, t = m.tag o second) ∧ m.Obeys o ss := by
  simp [Obeys, Allows]

@[simp] theorem obeys_code {s : String} {ss : List Stmt} :
    m.Obeys o (.code s :: ss) ↔ Inert s ∧ m.Obeys o ss := by
  simp [Obeys, Allows, Stmt.code, Phrase.toText, Phrase.plain, Token.toText]

@[simp] theorem obeys_declare {name : String} {value : Phrase} {ss : List Stmt} :
    m.Obeys o (.declare name value :: ss) ↔ m.Obeys o ss := by
  simp [Obeys, Allows, Stmt.declare, inert_iff, Phrase.toList_toText, Token.toText, beginsNumber,
    List.isPrefixOf]

@[simp] theorem obeys_declareMut {name : String} {value : Phrase} {ss : List Stmt} :
    m.Obeys o (.declareMut name value :: ss) ↔ m.Obeys o ss := by
  simp [Obeys, Allows, Stmt.declareMut, inert_iff, Phrase.toList_toText, Token.toText, beginsNumber,
    List.isPrefixOf]

@[simp] theorem obeys_fail : m.Obeys o Source.fail := by simp [Obeys, Allows, Source.fail]

@[simp] theorem obeys_failIf {condition : Phrase} {ss : List Stmt} :
    m.Obeys o (failIf condition :: ss) ↔ m.Obeys o ss := by
  simp [failIf, Stmt.ifScope]

@[simp] theorem obeys_goto {target : Nat} : m.Obeys o (Source.goto target o.id) ↔ o.leadsTo target = true := by
  have hjump : m.Obeys o [.setState target, .continueRun] ↔ o.leadsTo target = true := by simp [Obeys, Allows]
  have hroom : m.Obeys o (if target ≤ o.id then [.code "r.ensure_storage();"] else []) := by
    split
    · simp [inert_iff, beginsNumber, List.isPrefixOf]
    · exact obeys_nil
  rw [Source.goto, obeys_append, hjump, and_iff_right hroom]

end Obeys

attribute [local simp] Stmt.ifScope Stmt.whileScope Stmt.block pushMarkCode stepCode moveCode
  uncaptureTo inert_iff beginsNumber List.isPrefixOf Op.resumptions Operation.leadsTo Op.target? Op.resumesAtNext

theorem forwardCode_obeys (m : Routine) (o : Operation) : m.Obeys o (m.forwardCode o) := by
  cases hop : o.op <;> simp only [forwardCode, hop]
  case rep t count =>
    by_cases hcount : count = 0 <;> cases hright : o.rightToLeft <;> simp [repCode, hcount, hright]
  case span lazy t max =>
    cases lazy <;> cases hright : o.rightToLeft <;> simp [greedyCode, lazyCode, limitCode, hop, hright]
  case branchmark lazy target =>
    cases lazy <;> simp [branchmarkCode, lazyBranchmarkCode, hop]
  case branchcount lazy target limit =>
    cases lazy <;> simp [branchcountCode, lazyBranchcountCode, popCounter, hop]
  case capturemark slot uncapture =>
    cases slot <;> cases uncapture <;> simp [capturemarkCode, captureCode, hop]
  case goto target => simp [hop]
  case test t => cases hright : o.rightToLeft <;> simp [testCode, hright]
  case multi i =>
    simp only [multiCode, obeys_append]
    constructor
    · split <;> simp
    · cases hright : o.rightToLeft <;> simp [hright]
  case ref slot =>
    cases hright : o.rightToLeft <;> cases m.program.code.ecmaScript <;> simp [refCode, hright]
  all_goals simp [setjumpCode, backjumpCode, forejumpCode, Source.stop, hop]

theorem resumeCode_obeys (m : Routine) (o : Operation) (second : Bool) :
    m.Obeys o (m.resumeCode o second) := by
  have hreplicate : ∀ n : Nat, m.Obeys o (List.replicate n (.code "r.uncapture();")) := by
    intro n
    induction n with
    | zero => exact obeys_nil
    | succ n ih => simp [List.replicate_succ, ih]
  cases hop : o.op
  case span lazy t max =>
    cases lazy <;> cases hright : o.rightToLeft <;>
      simp [resumeCode, resumeGreedyCode, resumeLazyCode, popSpan, hop, hright]
  case branchmark lazy target =>
    cases lazy <;> cases second <;> simp [resumeCode, resumeBranchmarkCode, resumeLazyBranchmarkCode,
      redoMarkCode, undoLazyBranchmarkCode, hop]
  case branchcount lazy target limit =>
    cases lazy <;> cases second <;> simp [resumeCode, resumeBranchcountCode, resumeLazyBranchcountCode,
      undoBranchcountCode, undoLazyBranchcountCode, hop]
  case capturemark slot uncapture => simp [resumeCode, undoCapturemarkCode, hop, hreplicate]
  all_goals simp [resumeCode, undoMarkCode, undoMark2Code, redoMarkCode, undoForejumpCode, hop]

/-! ### Its tags -/

section

attribute [local simp] Stmt.tagsOf Stmt.code Stmt.declare Stmt.declareMut failIf Source.fail List.filterMap_cons

theorem tagsOf_goto (target id : Nat) : Stmt.tagsOf (Source.goto target id) = [] := by
  by_cases h : target ≤ id <;> simp [Source.goto, h]

/-- An operation leaves each of its tags just once before it is resumed. -/
theorem tagsOf_forwardCode (m : Routine) (o : Operation) :
    Stmt.tagsOf (m.forwardCode o) = o.op.resumptions.map (m.tag o) := by
  cases hop : o.op <;> simp only [forwardCode, hop]
  case rep t count => by_cases hcount : count = 0 <;> simp [repCode, hcount]
  case span lazy t max => cases lazy <;> simp [greedyCode, lazyCode, limitCode]
  case test t => simp [testCode]
  case multi i =>
    simp only [multiCode]
    split <;> simp
  case ref slot => cases m.program.code.ecmaScript <;> simp [refCode]
  case branchmark lazy target =>
    have hgoto := tagsOf_goto target o.id
    cases lazy <;> simp_all [branchmarkCode, lazyBranchmarkCode]
  case branchcount lazy target limit =>
    have hgoto := tagsOf_goto target o.id
    cases lazy <;> simp_all [branchcountCode, lazyBranchcountCode, popCounter]
  case capturemark slot uncapture =>
    cases slot <;> cases uncapture <;> simp [capturemarkCode, captureCode]
  case goto target => exact tagsOf_goto target o.id
  all_goals simp [setjumpCode, backjumpCode, forejumpCode, Source.stop]

end

/-- Control never runs through the end of the code of an operation that goes elsewhere. -/
theorem anyLeaves_forwardCode (m : Routine) {o : Operation} (h : o.op.terminates = true) :
    Stmt.anyLeaves (m.forwardCode o) = true := by
  cases hop : o.op <;> rw [hop] at h <;> cases h <;> simp only [forwardCode, hop]
  case nothing => rfl
  case backjump => simp [backjumpCode, Source.fail, Stmt.anyLeaves, Stmt.leaves]
  case goto target => simp [Source.goto, Stmt.anyLeaves_append, Stmt.anyLeaves, Stmt.leaves]
  case stop => rfl

end Routine
end PatternCompiler
