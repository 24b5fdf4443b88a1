import PatternCompiler.Proofs.Layout

/-! Buffers within buffers.

Lines are indented when they are written, and again when their buffer is put into another. Both
together come to the same as writing in place: `w.under b` is what `w` becomes by taking the lines and the
open scopes of `b`, and each step on `b` is the same step on `w.under b` (`perform_under`). So is a
whole sequence of steps (`writeAll_under`), and if it closes what it opens, `append_writeAll` says
that its buffer may as well be appended. -/
namespace PatternCompiler

/-- A step that adds to what is written. The other kind puts everything into a module. -/
def BufferStep.Adds : BufferStep → Prop
  | .wrapModule _ _ => False
  | _ => True

/-- Something to write, where a scope may hold anything. -/
inductive Writing where
  | step (s : BufferStep) (adds : s.Adds)
  | scope (header : String) (body : List Writing)

namespace Writing

mutual

def write (b : Buffer) : Writing → Except BufferFault Buffer
  | step s _ => b.perform s
  | scope header body => do (← writeAll (b.openScope header) body).close

def writeAll (b : Buffer) : List Writing → Except BufferFault Buffer
  | [] => .ok b
  | x :: rest => do writeAll (← write b x) rest

end

/-- The step for a scope writes one with a single statement. -/
example (b : Buffer) (header body : String) :
    b.perform (.scope header body) = write b (scope header [step (.stmt body) trivial]) := rfl

end Writing

namespace Buffer

/-! ### One buffer under another -/

/-- The lines of the second buffer after those of the first, within its scopes. -/
def under (w b : Buffer) : Buffer where
  lines := w.lines ++ b.lines.map (indented w.depth)
  depth := w.depth + b.depth

variable {w b b' : Buffer}

theorem under_empty (w : Buffer) : w.under {} = w := by
  simp [under]

theorem under_under (w b c : Buffer) : (w.under b).under c = w.under (b.under c) := by
  simp [under, indented_indented, Function.comp_def, Nat.add_assoc]

theorem append_eq {inner : Buffer} (h : inner.depth = 0) (b : Buffer) : b.append inner = .ok (b.under inner) := by
  rw [append, if_pos h, ← Array.foldl_toList, foldl_line, ← Array.toList_map, Array.toArray_toList, under, h,
    Nat.add_zero]

/-! ### Steps -/

theorem line_under (w b : Buffer) (s : String) : (w.under b).line s = w.under (b.line s) := by
  simp [line, under, indented_indented]

theorem blank_under (w b : Buffer) : (w.under b).blank = w.under b.blank := by
  simp [blank, under, indented_empty]

theorem openScope_under (w b : Buffer) (header : String) :
    (w.under b).openScope header = w.under (b.openScope header) := by
  rw [openScope, line_under]
  rfl

/-- A scope that is closed was opened in the inner buffer. -/
theorem dedent_under (h : b.dedent = .ok b') : (w.under b).dedent = .ok (w.under b') := by
  unfold dedent at h
  split at h
  · cases h
  · rename_i depth hdepth
    obtain rfl := Except.ok.inj h
    simp only [dedent, under, hdepth]
    rfl

theorem closeWith_under {tail : String} (h : b.closeWith tail = .ok b') :
    (w.under b).closeWith tail = .ok (w.under b') := by
  obtain ⟨b₁, hdedent, hclose⟩ := exists_ok_of_bind h
  obtain rfl := Except.ok.inj hclose
  rw [closeWith, dedent_under hdedent, ← line_under]
  rfl

theorem openElse_under (h : b.openElse = .ok b') : (w.under b).openElse = .ok (w.under b') := by
  obtain ⟨b₁, hdedent, hopen⟩ := exists_ok_of_bind h
  obtain rfl := Except.ok.inj hopen
  rw [openElse, dedent_under hdedent]
  simp only [bind, Except.bind, line_under]
  rfl

theorem append_under {inner : Buffer} (h : b.append inner = .ok b') :
    (w.under b).append inner = .ok (w.under b') := by
  have hinner : inner.depth = 0 := by
    by_contra hopen
    rw [append, if_neg hopen] at h
    cases h
  rw [append_eq hinner] at h ⊢
  rw [under_under, Except.ok.inj h]

/-- **A step does the same under another buffer.** -/
theorem perform_under {s : BufferStep} (hadds : s.Adds) (h : b.perform s = .ok b') :
    (w.under b).perform s = .ok (w.under b') := by
  cases s with
  | wrapModule name attributes => exact hadds.elim
  | append inner => exact append_under h
  | openElse => exact openElse_under h
  | close | closeWith tail => exact closeWith_under h
  | scope header body =>
    rw [perform, scope, openScope_under, stmt, line_under]
    exact closeWith_under h
  | openScope header | openIf condition | openWhile condition =>
    obtain rfl := Except.ok.inj h
    exact congrArg _ (openScope_under ..)
  | blank =>
    obtain rfl := Except.ok.inj h
    exact congrArg _ (blank_under ..)
  | line s | stmt s | comment s | declare name value | declareMut name value =>
    obtain rfl := Except.ok.inj h
    exact congrArg _ (line_under ..)

mutual

theorem write_under (w : Buffer) (x : Writing) {b b' : Buffer} (h : x.write b = .ok b') :
    x.write (w.under b) = .ok (w.under b') := by
  cases x with
  | step s adds => exact perform_under adds h
  | scope header body =>
    obtain ⟨b₁, hbody, hclose⟩ := exists_ok_of_bind h
    rw [Writing.write, openScope_under, writeAll_under w body hbody]
    exact closeWith_under hclose

/-- **So does a sequence of steps**, whatever scopes it leaves open. -/
theorem writeAll_under (w : Buffer) (xs : List Writing) {b b' : Buffer} (h : Writing.writeAll b xs = .ok b') :
    Writing.writeAll (w.under b) xs = .ok (w.under b') := by
  cases xs with
  | nil =>
    obtain rfl := Except.ok.inj h
    rfl
  | cons x xs =>
    obtain ⟨b₁, hx, hxs⟩ := exists_ok_of_bind h
    rw [Writing.writeAll, write_under w x hx]
    exact writeAll_under w xs hxs

end

/-! ### Modules -/

/-- Wrapping is writing the lines again, into a scope. -/
theorem wrapModule_eq (h : b.depth = 0) (name : String) (attributes : List String) :
    ∃ m, performAll {} [.openScope ("pub mod " ++ name), .append b, .close] = .ok m ∧
      b.wrapModule name attributes = .ok { m with lines := attributes.toArray ++ m.lines } := by
  have hopen : ({} : Buffer).openScope ("pub mod " ++ name) = ⟨#["pub mod " ++ name ++ " \x7b"], 1⟩ := by
    simp [openScope, line, opening, indented]
  have hclose : (under ⟨#["pub mod " ++ name ++ " \x7b"], 1⟩ b).close =
      .ok ⟨#["pub mod " ++ name ++ " \x7b"] ++ b.lines.map (indented 1) ++ #["\x7d"], 0⟩ := by
    simp [close, closeWith, dedent, under, h, line, indented, bind, Except.bind]
  refine ⟨_, ((performAll_cons (.openScope _) rfl _).trans ?_).trans hclose, ?_⟩
  · rw [hopen, performAll_cons (.append b) (append_eq h _), performAll_cons .close hclose, hclose, performAll]
  · simp [wrapModule, h]

/-- **Writing into a buffer of its own and appending it is writing in place**, and a module is
written the same way, below its attributes. -/
theorem append_writeAll :
    (∀ (xs : List Writing) (inner w : Buffer), Writing.writeAll {} xs = .ok inner → inner.depth = 0 →
      ∃ b, w.append inner = .ok b ∧ Writing.writeAll w xs = .ok b) ∧
    ∀ (b : Buffer) (name : String) (attributes : List String), b.depth = 0 →
      ∃ m, performAll {} [.openScope ("pub mod " ++ name), .append b, .close] = .ok m ∧
        b.wrapModule name attributes = .ok { m with lines := attributes.toArray ++ m.lines } := by
  constructor
  · intro xs inner w h hdepth
    have hunder := writeAll_under w xs h
    rw [under_empty] at hunder
    exact ⟨w.under inner, append_eq hdepth w, hunder⟩
  · intro b name attributes h
    exact wrapModule_eq h name attributes

/-- Two branches, with a blank line, a scope and a finished buffer in them. -/
def branches : List Writing :=
  [.step (.openIf "a") trivial, .step .blank trivial, .scope "loop" [.step (.stmt "f()") trivial],
    .step .openElse trivial, .step (.append ⟨#["// b", ""], 0⟩) trivial, .step .close trivial]

def branchLines : Array String :=
  #["if a \x7b", "", "    loop \x7b", "        f();", "    \x7d", "\x7d else \x7b", "    // b", "", "\x7d"]

theorem append_writeAll_branches :
    Writing.writeAll {} branches = .ok ⟨branchLines, 0⟩ ∧
    (∃ b, append ⟨#["fn g() \x7b"], 1⟩ ⟨branchLines, 0⟩ = .ok b ∧
      Writing.writeAll ⟨#["fn g() \x7b"], 1⟩ branches = .ok b) ∧
    ∃ m, performAll {} [.openScope ("pub mod " ++ "m"), .append ⟨branchLines, 0⟩, .close] = .ok m ∧
      wrapModule ⟨branchLines, 0⟩ "m" ["/// Doc."] = .ok { m with lines := #["/// Doc."] ++ m.lines } := by
  have hwrites : Writing.writeAll {} branches = .ok ⟨branchLines, 0⟩ := by cbv
  exact ⟨hwrites, append_writeAll.1 branches _ _ hwrites rfl, append_writeAll.2 _ "m" ["/// Doc."] rfl⟩

end Buffer

end PatternCompiler
