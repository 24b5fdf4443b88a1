/-! Lines of generated source.

A `Buffer` keeps the depth of the open scopes, and indents each line by it, so
that nobody else writes braces or blanks at the beginning of a line. Scopes have
to be closed again: a buffer with an open one is neither finished nor put into
another.

A `Workbench` is a stack of buffers, the innermost of which is written to. -/
namespace PatternCompiler

structure Buffer where
  lines : Array String := #[]
  /-- The number of open scopes. -/
  depth : Nat := 0
deriving DecidableEq, Inhabited

/-- A misuse of scopes. -/
inductive BufferFault where
  /-- A scope is closed that was not opened. -/
  | notOpen
  /-- A scope is still open. -/
  | stillOpen
  /-- There is no buffer around this one. -/
  | noOuter
deriving DecidableEq

namespace Buffer

/-! ### Lines -/

/-- The blanks of one scope. -/
def indent : String := "    "

/-- A line at a depth; an empty one stays empty. -/
def indented (depth : Nat) (s : String) : String :=
  if s.isEmpty then "" else String.join (List.replicate depth indent) ++ s

def line (b : Buffer) (s : String) : Buffer := { b with lines := b.lines.push (indented b.depth s) }

/-- A statement with its semicolon. -/
def stmt (b : Buffer) (s : String) : Buffer := b.line (s ++ ";")

def blank (b : Buffer) : Buffer := { b with lines := b.lines.push "" }

def comment (b : Buffer) (s : String) : Buffer := b.line ("// " ++ s)

/-- Declares a local that does not change. -/
def declare (b : Buffer) (name value : String) : Buffer :=
  b.line ("let " ++ name ++ " = " ++ value ++ ";")

/-- Declares a local that may change. -/
def declareMut (b : Buffer) (name value : String) : Buffer :=
  b.line ("let mut " ++ name ++ " = " ++ value ++ ";")

/-! ### Scopes -/

/-- The line that opens a scope. -/
def opening (header : String) : String := if header.isEmpty then "\x7b" else header ++ " \x7b"

def openScope (b : Buffer) (header : String) : Buffer :=
  let b := b.line (opening header)
  { b with depth := b.depth + 1 }

def openIf (b : Buffer) (condition : String) : Buffer := b.openScope ("if " ++ condition)

def openWhile (b : Buffer) (condition : String) : Buffer := b.openScope ("while " ++ condition)

def dedent (b : Buffer) : Except BufferFault Buffer :=
  match b.depth with
  | 0 => .error .notOpen
  | depth + 1 => .ok { b with depth := depth }

/-- Closes the innermost scope; `tail` stands right after the brace. -/
def closeWith (b : Buffer) (tail : String) : Except BufferFault Buffer := do
  .ok ((← b.dedent).line ("\x7d" ++ tail))

def close (b : Buffer) : Except BufferFault Buffer := b.closeWith ""

/-- Closes the innermost scope and opens the other branch. -/
def openElse (b : Buffer) : Except BufferFault Buffer := do
  let b := (← b.dedent).line "\x7d else \x7b"
  .ok { b with depth := b.depth + 1 }

/-- A scope that holds one statement. -/
def scope (b : Buffer) (header body : String) : Except BufferFault Buffer :=
  ((b.openScope header).stmt body).close

/-! ### Whole buffers -/

/-- The lines of another buffer, moved to the current depth. -/
def append (b inner : Buffer) : Except BufferFault Buffer :=
  if inner.depth = 0 then .ok (inner.lines.foldl line b) else .error .stillOpen

/-- Puts all lines into a module of the given name, after the lines of its attributes. -/
def wrapModule (b : Buffer) (name : String) (attributes : List String) :
    Except BufferFault Buffer :=
  if b.depth = 0 then
    .ok { b with
      lines := attributes.toArray ++ #["pub mod " ++ name ++ " \x7b"] ++ b.lines.map (indented 1) ++
        #["\x7d"] }
  else .error .stillOpen

/-- The text, with a line break at its end. -/
def finish (b : Buffer) : Except BufferFault String :=
  if b.depth = 0 then .ok (String.intercalate "\n" b.lines.toList ++ "\n") else .error .stillOpen

end Buffer

/-! ### Steps -/

/-- One thing to write. -/
inductive BufferStep where
  | line (s : String)
  | stmt (s : String)
  | blank
  | comment (s : String)
  | declare (name value : String)
  | declareMut (name value : String)
  | openScope (header : String)
  | openIf (condition : String)
  | openWhile (condition : String)
  | openElse
  | close
  | closeWith (tail : String)
  | scope (header body : String)
  | append (inner : Buffer)
  | wrapModule (name : String) (attributes : List String)
deriving DecidableEq, Inhabited

namespace Buffer

def perform (b : Buffer) : BufferStep → Except BufferFault Buffer
  | .line s => .ok (b.line s)
  | .stmt s => .ok (b.stmt s)
  | .blank => .ok b.blank
  | .comment s => .ok (b.comment s)
  | .declare name value => .ok (b.declare name value)
  | .declareMut name value => .ok (b.declareMut name value)
  | .openScope header => .ok (b.openScope header)
  | .openIf condition => .ok (b.openIf condition)
  | .openWhile condition => .ok (b.openWhile condition)
  | .openElse => b.openElse
  | .close => b.close
  | .closeWith tail => b.closeWith tail
  | .scope header body => b.scope header body
  | .append inner => b.append inner
  | .wrapModule name attributes => b.wrapModule name attributes

def performAll (b : Buffer) : List BufferStep → Except BufferFault Buffer
  | [] => .ok b
  | s :: rest => do performAll (← b.perform s) rest

end Buffer

/-! ### Buffers within buffers -/

/-- The buffer that is written to, and those it will be put into. -/
structure Workbench where
  current : Buffer := {}
  /-- The buffers around it, from the inside out. -/
  outer : List Buffer := []
deriving DecidableEq, Inhabited

inductive WorkbenchStep where
  | write (s : BufferStep)
  /-- Begins a new innermost buffer. -/
  | begin
  /-- Puts the innermost buffer into the one around it. -/
  | append
deriving DecidableEq, Inhabited

namespace Workbench

def perform (w : Workbench) : WorkbenchStep → Except BufferFault Workbench
  | .write s => do .ok { w with current := ← w.current.perform s }
  | .begin => .ok ⟨{}, w.current :: w.outer⟩
  | .append => match w.outer with
    | [] => .error .noOuter
    | b :: rest => do .ok ⟨← b.append w.current, rest⟩

end Workbench

end PatternCompiler
