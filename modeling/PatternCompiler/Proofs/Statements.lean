import Mathlib
import PatternCompiler.Source.Compile

/-! Generated source, statement by statement.

`Stmt.statementsOf` lists all statements of a piece of code, at whatever depth. `Stmt.tagsOf`
are the tags that the code leaves, and `Stmt.leaves` tells whether control can go past a
statement.

Scopes are closed by construction, so writing a tree never fails: `Program.compile_ok`. -/
namespace PatternCompiler

/-! ### Open scopes -/

namespace Buffer

variable {b : Buffer} {n : Nat}

theorem closeWith_ok (h : b.depth = n + 1) (tail : String) :
    ∃ b', b.closeWith tail = .ok b' ∧ b'.depth = n := by
  refine ⟨({ b with depth := n } : Buffer).line ("\x7d" ++ tail), ?_, rfl⟩
  simp only [closeWith, dedent, h, bind, Except.bind]

theorem openElse_ok (h : b.depth = n + 1) : ∃ b', b.openElse = .ok b' ∧ b'.depth = n + 1 := by
  refine ⟨{ ({ b with depth := n } : Buffer).line "\x7d else \x7b" with depth := n + 1 }, ?_, rfl⟩
  simp only [openElse, dedent, h, bind, Except.bind, line]

end Buffer

namespace Source

namespace Stmt

/-! ### All statements of a piece of code -/

mutual

/-- The statement and all statements in it. -/
def statements : Stmt → List Stmt
  | scope header body tail => scope header body tail :: statementsOf body
  | branch condition yes no => branch condition yes no :: (statementsOf yes ++ statementsOf no)
  | s => [s]

def statementsOf : List Stmt → List Stmt
  | [] => []
  | s :: rest => s.statements ++ statementsOf rest

end

attribute [simp] statements statementsOf

@[simp] theorem statementsOf_append (ss ts : List Stmt) :
    statementsOf (ss ++ ts) = statementsOf ss ++ statementsOf ts := by
  induction ss with
  | nil => rfl
  | cons s ss ih => rw [List.cons_append, statementsOf, ih, statementsOf, List.append_assoc]

@[simp] theorem mem_statements_self (s : Stmt) : s ∈ s.statements := by
  cases s <;> simp

theorem mem_statementsOf {s : Stmt} {ss : List Stmt} :
    s ∈ statementsOf ss ↔ ∃ t ∈ ss, s ∈ t.statements := by
  induction ss with
  | nil => simp
  | cons t ss ih => simp [ih]

theorem statementsOf_flatMap {α : Type} (xs : List α) (f : α → List Stmt) :
    statementsOf (xs.flatMap f) = xs.flatMap fun x => statementsOf (f x) := by
  induction xs with
  | nil => rfl
  | cons x xs ih => rw [List.flatMap_cons, statementsOf_append, ih, List.flatMap_cons]

/-! ### Tags -/

@[simp] def tag? : Stmt → Option Nat
  | pushTag tag => some tag
  | _ => none

/-- The tags that the code leaves, in the order in which they stand in it. -/
def tagsOf (ss : List Stmt) : List Nat := (statementsOf ss).filterMap tag?

theorem tagsOf_append (ss ts : List Stmt) : tagsOf (ss ++ ts) = tagsOf ss ++ tagsOf ts := by
  rw [tagsOf, statementsOf_append, List.filterMap_append, tagsOf, tagsOf]

theorem mem_tagsOf {ss : List Stmt} {t : Nat} : t ∈ tagsOf ss ↔ pushTag t ∈ statementsOf ss := by
  rw [tagsOf, List.mem_filterMap]
  constructor
  · rintro ⟨s, hs, ht⟩
    cases s with
    | pushTag tag => rwa [← Option.some_inj.mp ht]
    | _ => cases ht
  · intro h
    exact ⟨_, h, rfl⟩

/-! ### Control -/

mutual

/-- Control never goes past the statement. -/
def leaves : Stmt → Bool
  | continueRun => true
  | line p => p.toText == "return;"
  | branch _ yes no => anyLeaves yes && anyLeaves no
  | _ => false

/-- Control never comes to the end of the code. -/
def anyLeaves : List Stmt → Bool
  | [] => false
  | s :: rest => s.leaves || anyLeaves rest

end

theorem anyLeaves_append (ss ts : List Stmt) : anyLeaves (ss ++ ts) = (anyLeaves ss || anyLeaves ts) := by
  induction ss with
  | nil => rfl
  | cons s ss ih => rw [List.cons_append, anyLeaves, ih, anyLeaves, Bool.or_assoc]

/-! ### Writing -/

mutual

/-- A statement is written at any depth, and leaves the depth as it was. -/
theorem write_ok (b : Buffer) (s : Stmt) : ∃ b', s.write b = .ok b' ∧ b'.depth = b.depth := by
  cases s with
  | scope header body tail =>
    obtain ⟨b₁, hbody, hdepth⟩ := writeAll_ok (b.openScope header.toText) body
    obtain ⟨b₂, hclose, hdepth'⟩ := Buffer.closeWith_ok (n := b.depth) hdepth tail
    refine ⟨b₂, ?_, hdepth'⟩
    rw [write, hbody]
    exact hclose
  | branch condition yes no =>
    obtain ⟨b₁, hyes, hdepth⟩ := writeAll_ok (b.openIf condition.toText) yes
    obtain ⟨b₂, helse, hdepth⟩ := Buffer.openElse_ok (n := b.depth) hdepth
    obtain ⟨b₃, hno, hdepth'⟩ := writeAll_ok b₂ no
    obtain ⟨b₄, hclose, hdepth'⟩ := Buffer.closeWith_ok (hdepth'.trans hdepth) ""
    refine ⟨b₄, ?_, hdepth'⟩
    simp only [write, hyes, helse, hno, bind, Except.bind]
    exact hclose
  | _ => exact ⟨_, rfl, rfl⟩

theorem writeAll_ok (b : Buffer) (ss : List Stmt) :
    ∃ b', writeAll b ss = .ok b' ∧ b'.depth = b.depth := by
  cases ss with
  | nil => exact ⟨b, rfl, rfl⟩
  | cons s ss =>
    obtain ⟨b₁, hs, hdepth⟩ := write_ok b s
    obtain ⟨b₂, hss, hdepth'⟩ := writeAll_ok b₁ ss
    refine ⟨b₂, ?_, hdepth'.trans hdepth⟩
    rw [writeAll, hs]
    exact hss

end

end Stmt

end Source

namespace Program

/-- **Writing a matcher never fails**, and tells the labels and the resumptions of the program. -/
theorem compile_ok (p : Program) (config : SourceConfig) :
    ∃ k, p.compile config = .ok k ∧ k.labels = p.labels ∧
      k.resumptions = (Routine.ofProgram p).resumptions.toList := by
  obtain ⟨b, hb, hdepth⟩ := Source.Stmt.writeAll_ok {} (p.itemsCode config)
  have hdepth : b.depth = 0 := hdepth
  simp only [compile, hb, bind, Except.bind]
  cases config.getModule with
  | none => simp [Buffer.finish, hdepth]
  | some name => simp [Buffer.wrapModule, Buffer.finish, hdepth]

end Program

end PatternCompiler
