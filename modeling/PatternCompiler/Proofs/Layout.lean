import PatternCompiler.Proofs.Groups
import PatternCompiler.Proofs.Statements

/-! Generated source, line by line.

A piece of code has its lines wherever it is written: `Stmt.rowsOf` lists them, each with its depth
below the place of the piece, and `Stmt.writeAll_eq` says that a buffer takes these lines and no
other and is then as deep as before. So a piece may as well be written into a buffer of its own
that is then put into another (`Buffer.append_addRows`), or by opening and closing each of its scopes
by hand (`Stmt.writes_stepsOf`). -/
namespace PatternCompiler

/-- A line, and its depth below the place where its piece of code is written. -/
structure Row where
  depth : Nat
  text : String
deriving DecidableEq

namespace Row

/-- One scope deeper. -/
def deeper (r : Row) : Row := { r with depth := r.depth + 1 }

/-- The lines of a scope around others. -/
def scope (header : String) (inner : List Row) (tail : String) : List Row :=
  ⟨0, Buffer.opening header⟩ :: inner.map deeper ++ [⟨0, "\x7d" ++ tail⟩]

/-- The line as it stands in a buffer. -/
def toLine (base : Nat) (r : Row) : String := Buffer.indented (base + r.depth) r.text

theorem toLine_deeper (base : Nat) (r : Row) : r.deeper.toLine base = r.toLine (base + 1) := by
  rw [toLine, deeper, toLine, Nat.add_assoc, Nat.add_comm 1]

end Row

namespace Buffer

/-! ### Lines at a depth -/

theorem indented_empty (depth : Nat) : indented depth "" = "" := rfl

theorem indented_of_ne {s : String} (h : s ≠ "") (depth : Nat) :
    indented depth s = String.join (List.replicate depth indent) ++ s := by
  rw [indented, if_neg (by simpa using h)]

theorem indented_indented (a b : Nat) (s : String) : indented a (indented b s) = indented (a + b) s := by
  by_cases h : s = ""
  · rw [h, indented_empty, indented_empty, indented_empty]
  · have hne : String.join (List.replicate b indent) ++ s ≠ "" := by simp [h]
    rw [indented_of_ne h, indented_of_ne hne, indented_of_ne h, ← String.append_assoc, ← String.join_append,
      List.replicate_append_replicate]

/-! ### Buffers and rows -/

/-- Takes lines at the current depth. -/
def addRows (b : Buffer) (rows : List Row) : Buffer :=
  { b with lines := b.lines ++ (rows.map (·.toLine b.depth)).toArray }

variable (b : Buffer)

@[simp] theorem depth_addRows (rows : List Row) : (b.addRows rows).depth = b.depth := rfl

@[simp] theorem addRows_nil : b.addRows [] = b := by simp [addRows]

@[simp] theorem addRows_addRows (xs ys : List Row) : (b.addRows xs).addRows ys = b.addRows (xs ++ ys) := by
  simp [addRows]

theorem line_eq (s : String) : b.line s = b.addRows [⟨0, s⟩] := by
  simp [line, addRows, Row.toLine]

theorem blank_eq : b.blank = b.addRows [⟨0, ""⟩] := by
  simp [blank, addRows, Row.toLine, indented_empty]

/-- A scope is open in which nothing is written yet. -/
def nested : Buffer := { b with depth := b.depth + 1 }

theorem openScope_eq (header : String) : b.openScope header = (b.addRows [⟨0, opening header⟩]).nested := by
  rw [openScope, line_eq, nested]

/-- Lines that are written into a scope are one scope deeper. -/
theorem dedent_nested (rows : List Row) :
    (b.nested.addRows rows).dedent = .ok (b.addRows (rows.map Row.deeper)) := by
  simp [dedent, nested, addRows, Row.toLine_deeper, Function.comp_def]

theorem closeWith_nested (rows : List Row) (tail : String) :
    (b.nested.addRows rows).closeWith tail =
      .ok (b.addRows (rows.map Row.deeper ++ [⟨0, "\x7d" ++ tail⟩])) := by
  rw [closeWith, dedent_nested, ← addRows_addRows, ← line_eq]
  rfl

theorem closeWith_openScope (header : String) (rows : List Row) (tail : String) :
    ((b.openScope header).addRows rows).closeWith tail = .ok (b.addRows (Row.scope header rows tail)) := by
  rw [openScope_eq, closeWith_nested, addRows_addRows]
  rfl

theorem openElse_nested (rows : List Row) :
    (b.nested.addRows rows).openElse =
      .ok (b.addRows (rows.map Row.deeper ++ [⟨0, "\x7d else \x7b"⟩])).nested := by
  rw [openElse, dedent_nested, ← addRows_addRows, ← line_eq]
  rfl

theorem foldl_line (lines : List String) :
    lines.foldl line b = { b with lines := b.lines ++ (lines.map (indented b.depth)).toArray } := by
  induction lines generalizing b with
  | nil => simp
  | cons l lines ih => simp [ih, line]

/-- Putting a finished buffer into another writes its lines there. -/
theorem append_addRows (rows : List Row) :
    b.append (({} : Buffer).addRows rows) = .ok (b.addRows rows) := by
  rw [append, if_pos (depth_addRows ..), ← Array.foldl_toList, foldl_line]
  simp [addRows, Row.toLine, indented_indented, Function.comp_def]

/-! ### Steps and rows -/

variable {b} {b' : Buffer} {xs ys : List BufferStep} {rows : List Row}

theorem performAll_append (h : b.performAll xs = .ok b') (ys : List BufferStep) :
    b.performAll (xs ++ ys) = b'.performAll ys := by
  induction xs generalizing b with
  | nil =>
    obtain rfl := Except.ok.inj h
    rfl
  | cons s xs ih =>
    obtain ⟨b₁, hs, hxs⟩ := exists_ok_of_bind h
    rw [List.cons_append, performAll, hs]
    exact ih hxs

theorem performAll_cons (s : BufferStep) (h : b.perform s = .ok b') (ys : List BufferStep) :
    b.performAll (s :: ys) = b'.performAll ys := by
  rw [performAll, h]
  rfl

/-- The steps write these lines, whatever they are written into, and close what they open. -/
def Writes (steps : List BufferStep) (rows : List Row) : Prop :=
  ∀ b : Buffer, b.performAll steps = .ok (b.addRows rows)

namespace Writes

theorem nil : Writes [] [] := by
  intro b
  rw [performAll, addRows_nil]

theorem single {s : BufferStep} (h : ∀ b : Buffer, b.perform s = .ok (b.addRows rows)) : Writes [s] rows := by
  intro b
  rw [performAll_cons s (h b)]
  rfl

theorem line (s : String) : Writes [.line s] [⟨0, s⟩] :=
  single fun b => by rw [perform, line_eq]

theorem blank : Writes [.blank] [⟨0, ""⟩] :=
  single fun b => by rw [perform, blank_eq]

/-- A finished buffer is written as its lines. -/
theorem buffer (rows : List Row) : Writes [.append (({} : Buffer).addRows rows)] rows :=
  single fun b => b.append_addRows rows

theorem append {more : List Row} (hx : Writes xs rows) (hy : Writes ys more) :
    Writes (xs ++ ys) (rows ++ more) := by
  intro b
  rw [performAll_append (hx b), hy, addRows_addRows]

/-- What is written between the beginning and the end of a scope. -/
theorem scope (h : Writes xs rows) (header : String) {tail : String} (last : BufferStep)
    (hlast : ∀ b : Buffer, b.perform last = b.closeWith tail) :
    Writes (.openScope header :: (xs ++ [last])) (Row.scope header rows tail) := by
  intro b
  rw [performAll_cons _ rfl, performAll_append (h _),
    performAll_cons last ((hlast _).trans (closeWith_openScope ..))]
  rfl

theorem branch {more : List Row} (hyes : Writes xs rows) (hno : Writes ys more) (condition : String) :
    Writes (.openIf condition :: (xs ++ .openElse :: (ys ++ [.close])))
      (⟨0, opening ("if " ++ condition)⟩ :: rows.map Row.deeper ++
        ⟨0, "\x7d else \x7b"⟩ :: more.map Row.deeper ++ [⟨0, "\x7d"⟩]) := by
  intro b
  rw [performAll_cons _ rfl, openIf, openScope_eq, performAll_append (hyes _),
    performAll_cons .openElse (openElse_nested ..), performAll_append (hno _),
    performAll_cons .close (closeWith_nested ..)]
  simp [performAll]

end Writes

end Buffer

namespace Source.Stmt

/-! ### Rows -/

mutual

/-- The lines of a statement. -/
def rows : Stmt → List Row
  | line p => [⟨0, p.toText⟩]
  | blank => [⟨0, ""⟩]
  | comment s => [⟨0, "// " ++ s⟩]
  | setState id => [⟨0, "state = " ++ toString id ++ ";"⟩]
  | setBacktrack => [⟨0, "state = BACKTRACK;"⟩]
  | continueRun => [⟨0, "continue 'run;"⟩]
  | pushTag tag => [⟨0, "r.track_push(" ++ toString tag ++ ")" ++ ";"⟩]
  | scope header body tail => Row.scope header.toText (rowsOf body) tail
  | branch condition yes no =>
    ⟨0, Buffer.opening ("if " ++ condition.toText)⟩ :: (rowsOf yes).map Row.deeper ++
      ⟨0, "\x7d else \x7b"⟩ :: (rowsOf no).map Row.deeper ++ [⟨0, "\x7d"⟩]

/-- The lines of a piece of code. -/
def rowsOf : List Stmt → List Row
  | [] => []
  | s :: rest => s.rows ++ rowsOf rest

end

@[simp] theorem rowsOf_nil : rowsOf [] = [] := rfl

@[simp] theorem rowsOf_append (ss ts : List Stmt) : rowsOf (ss ++ ts) = rowsOf ss ++ rowsOf ts := by
  induction ss with
  | nil => rfl
  | cons s ss ih => rw [List.cons_append, rowsOf, ih, rowsOf, List.append_assoc]

theorem rows_code (s : String) : (code s).rows = [⟨0, s⟩] := by
  simp [code, rows, Phrase.plain, Phrase.toText, Token.toText]

theorem rows_block (header : String) (body : List Stmt) :
    (block header body).rows = Row.scope header (rowsOf body) "" := by
  simp [block, rows, Phrase.plain, Phrase.toText, Token.toText]

theorem rowsOf_flatMap {α : Type} (xs : List α) (f : α → List Stmt) :
    rowsOf (xs.flatMap f) = xs.flatMap fun x => rowsOf (f x) := by
  induction xs with
  | nil => rfl
  | cons x xs ih => rw [List.flatMap_cons, rowsOf_append, ih, List.flatMap_cons]

mutual

theorem write_eq (b : Buffer) (s : Stmt) : s.write b = .ok (b.addRows s.rows) := by
  cases s with
  | scope header body tail =>
    rw [write, writeAll_eq, rows]
    exact Buffer.closeWith_openScope ..
  | branch condition yes no =>
    rw [write, Buffer.openIf, Buffer.openScope_eq, writeAll_eq]
    simp only [bind, Except.bind, Buffer.openElse_nested, writeAll_eq]
    refine (Buffer.closeWith_nested ..).trans ?_
    simp [rows]
  | blank => rw [write, Buffer.blank_eq, rows]
  | line p => rw [write, Buffer.line_eq, rows]
  | _ => rw [write, rows, ← Buffer.line_eq]; rfl

/-- **A piece of code is written as its lines**, at whatever depth. -/
theorem writeAll_eq (b : Buffer) (ss : List Stmt) : writeAll b ss = .ok (b.addRows (rowsOf ss)) := by
  cases ss with
  | nil => rw [writeAll, rowsOf, Buffer.addRows_nil]
  | cons s ss =>
    rw [writeAll, write_eq, rowsOf, ← Buffer.addRows_addRows]
    exact writeAll_eq _ ss

end

/-! ### Scopes by hand -/

mutual

/-- A statement step by step. -/
def steps : Stmt → List BufferStep
  | line p => [.line p.toText]
  | blank => [.blank]
  | comment s => [.comment s]
  | setState id => [.stmt ("state = " ++ toString id)]
  | setBacktrack => [.stmt "state = BACKTRACK"]
  | continueRun => [.stmt "continue 'run"]
  | pushTag tag => [.stmt ("r.track_push(" ++ toString tag ++ ")")]
  | scope header body tail => .openScope header.toText :: (stepsOf body ++ [.closeWith tail])
  | branch condition yes no =>
    .openIf condition.toText :: (stepsOf yes ++ .openElse :: (stepsOf no ++ [.close]))

def stepsOf : List Stmt → List BufferStep
  | [] => []
  | s :: rest => s.steps ++ stepsOf rest

end

mutual

theorem writes_steps (s : Stmt) : Buffer.Writes s.steps s.rows := by
  cases s with
  | scope header body tail => exact (writes_stepsOf body).scope header.toText (.closeWith tail) fun _ => rfl
  | branch condition yes no => exact (writes_stepsOf yes).branch (writes_stepsOf no) condition.toText
  | blank => exact .blank
  | _ => exact .line _

/-- Opening and closing each scope of a piece of code by hand writes its lines. -/
theorem writes_stepsOf (ss : List Stmt) : Buffer.Writes (stepsOf ss) (rowsOf ss) := by
  cases ss with
  | nil => exact .nil
  | cons s ss => exact (writes_steps s).append (writes_stepsOf ss)

end

section

variable {s : Stmt} {ss : List Stmt} {xs ys : List BufferStep}

theorem writes_nil : Buffer.Writes [] (rowsOf []) := .nil

/-- Statements are written one after the other. -/
theorem writes_cons (hs : Buffer.Writes xs s.rows) (hss : Buffer.Writes ys (rowsOf ss)) :
    Buffer.Writes (xs ++ ys) (rowsOf (s :: ss)) :=
  hs.append hss

theorem writes_code (s : String) (hss : Buffer.Writes ys (rowsOf ss)) :
    Buffer.Writes (.line s :: ys) (rowsOf (code s :: ss)) := by
  rw [rowsOf, rows_code]
  exact (Buffer.Writes.line s).append hss

theorem writes_blank (hss : Buffer.Writes ys (rowsOf ss)) :
    Buffer.Writes (.blank :: ys) (rowsOf (blank :: ss)) :=
  Buffer.Writes.blank.append hss

theorem writes_block (h : Buffer.Writes xs (rowsOf ss)) (header : String) :
    Buffer.Writes (.openScope header :: (xs ++ [.close])) (block header ss).rows := by
  rw [rows_block]
  exact h.scope header .close fun _ => rfl

end

end Source.Stmt

end PatternCompiler
