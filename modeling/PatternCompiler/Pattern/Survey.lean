import PatternCompiler.Pattern.Bracket
import PatternCompiler.Pattern.GroupTable

/-! The survey of a pattern's groups.

References may name groups that are declared further on, and names are numbered
after all numbers. So a first pass goes over the pattern and notes every group it
declares, skipping whatever else there is without understanding it. -/
namespace PatternCompiler

structure Survey where
  cursor : Cursor
  options : Options
  /-- The options to return to at each closing parenthesis, the innermost first. -/
  saved : List Options := []
  /-- The number of the next group without a number or name of its own. -/
  autocap : Nat := 1
  /-- The next parenthesis opens a condition. -/
  ignoreNext : Bool := false
  table : GroupTable
deriving Inhabited

namespace Survey

/-- The options at the closing parenthesis of a group. -/
def restore (s : Survey) : Survey :=
  match s.saved with
  | [] => s
  | o :: rest => { s with options := o, saved := rest }

/-- Notes a group that has a name or a number, past the mark that opens the name. -/
def named (s : Survey) (offset : Nat) (c : Cursor) : Except Problem Survey :=
  match c.rest with
  | [] => .ok { s with cursor := c }
  | ch :: _ =>
    if ch ≠ '0' ∧ Unicode.isWord ch then
      if '1' ≤ ch ∧ ch ≤ '9' then do
        let (n, c) ← c.decimal
        .ok { s with cursor := c, table := s.table.noteNumber n offset }
      else
        let (name, c) := c.word
        .ok { s with cursor := c, table := s.table.noteName name offset }
    else .ok { s with cursor := c }

/-- What follows a parenthesis and a question mark: a name, or flags and what they lead to. -/
def marked (s : Survey) (offset : Nat) (c : Cursor) : Except Problem Survey :=
  match c.rest with
  | '<' :: ch :: rest => { s with ignoreNext := false }.named offset ⟨c.pos + 1, ch :: rest⟩
  | '\'' :: ch :: rest => { s with ignoreNext := false }.named offset ⟨c.pos + 1, ch :: rest⟩
  | _ =>
    let (o, c) := c.flags s.options
    match c.rest with
    | ')' :: rest =>
      .ok { s with
        cursor := ⟨c.pos + 1, rest⟩, options := o, saved := s.saved.drop 1, ignoreNext := false }
    | '(' :: _ => .ok { s with cursor := c, options := o, ignoreNext := true }
    | _ => .ok { s with cursor := c, options := o, ignoreNext := false }

/-- A group whose parenthesis is at `offset`; `c` is past it. -/
def opened (s : Survey) (offset : Nat) (c : Cursor) : Except Problem Survey :=
  let s := { s with saved := s.options :: s.saved }
  match c.rest with
  | '?' :: rest => s.marked offset ⟨c.pos + 1, rest⟩
  | _ =>
    let s := { s with cursor := c }
    if s.options.explicitCapture || s.ignoreNext then .ok { s with ignoreNext := false }
    else .ok { s with
      table := s.table.noteNumber s.autocap offset, autocap := s.autocap + 1, ignoreNext := false }

/-- Goes over one construct that begins with `ch`; `c` is past it. -/
def construct (s : Survey) (ch : Char) (c : Cursor) : Except Problem Survey :=
  if ch = '\\' then .ok { s with cursor := c.skipOne }
  else if ch = '#' then
    if s.options.ignoreWhitespace then do
      .ok { s with cursor := ← s.cursor.skipBlanks s.options }
    else .ok { s with cursor := c }
  else if ch = '[' then do .ok { s with cursor := ← c.skipBracket }
  else if ch = ')' then .ok { s.restore with cursor := c }
  else if ch = '(' then
    if c.rest.take 2 = ['?', '#'] then do
      .ok { s with cursor := ← s.cursor.skipBlanks s.options, ignoreNext := false }
    else s.opened s.cursor.pos c
  else .ok { s with cursor := c }

/-- Goes over the rest of the pattern. Every round takes at least one character. -/
def run : (rounds : Nat) → Survey → Except Problem Survey
  | 0, s => .ok s
  | rounds + 1, s =>
    match s.cursor.rest with
    | [] => .ok s
    | ch :: rest => do run rounds (← s.construct ch ⟨s.cursor.pos + 1, rest⟩)

/-- Before the first character: the whole match is group 0. -/
def start (pattern : List Char) (o : Options) : Survey :=
  { cursor := ⟨0, pattern⟩, options := o, table := GroupTable.noteNumber {} 0 0 }

end Survey

/-- The groups that a pattern declares. -/
def GroupTable.ofPattern (pattern : List Char) (o : Options) : Except Problem GroupTable := do
  let s ← Survey.run pattern.length (Survey.start pattern o)
  .ok (s.table.assignNames s.autocap)

end PatternCompiler
