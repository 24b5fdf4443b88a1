import PatternCompiler.Options
import PatternCompiler.Pattern.Node
import PatternCompiler.Pattern.SyntaxError

/-! Reading a pattern from left to right.

A `Cursor` is what is left of a pattern and how much of it is behind. Everything
that reads takes a cursor and gives one back, so going back is keeping the older
one, and nothing can be read past the end. This file has what the readers of all
constructs share: numerals, names, blanks, flags, runs of literal characters and
the look-ahead for quantifiers. -/
namespace PatternCompiler

structure Cursor where
  /-- The number of characters behind. -/
  pos : Nat
  /-- The characters ahead. -/
  rest : List Char
deriving DecidableEq, Inhabited

namespace Cursor

/-- The cursor `n` characters further on. -/
def drop (c : Cursor) (n : Nat) : Cursor := ⟨c.pos + n, c.rest.drop n⟩

def fail {α : Type} (c : Cursor) (cause : SyntaxError.Cause) : Except Problem α :=
  .error ⟨cause, c.pos⟩

/-- Past the next character, if there is one. -/
def skipOne (c : Cursor) : Cursor :=
  match c.rest with
  | [] => c
  | _ :: rest => ⟨c.pos + 1, rest⟩

/-- Past the next character, if it is `ch`. -/
def skipChar (c : Cursor) (ch : Char) : Cursor :=
  match c.rest with
  | [] => c
  | d :: rest => if d = ch then ⟨c.pos + 1, rest⟩ else c

/-! ### Numerals and names -/

/-- The value of a digit. -/
def digit (d : Char) : Nat := d.toNat - '0'.toNat

/-- Reads the digits that follow those with the value `n`. -/
def decimalFrom (n pos : Nat) : List Char → Except Problem (Nat × Cursor)
  | [] => .ok (n, ⟨pos, []⟩)
  | d :: rest =>
    if d.isDigit then
      let m := 10 * n + digit d
      if m ≤ unbounded then decimalFrom m (pos + 1) rest
      else .error ⟨.captureNumberOverflow, pos + 1⟩
    else .ok (n, ⟨pos, d :: rest⟩)

/-- Reads a numeral. Without digits it is zero; past the greatest number it is refused. -/
def decimal (c : Cursor) : Except Problem (Nat × Cursor) := decimalFrom 0 c.pos c.rest

/-- The longest run of characters that pass a test, and what is after it. -/
def takeWhile (c : Cursor) (p : Char → Bool) : List Char × Cursor :=
  let run := c.rest.takeWhile p
  (run, c.drop run.length)

/-- Reads a run of word characters. -/
def word (c : Cursor) : String × Cursor :=
  let (run, c) := c.takeWhile Unicode.isWord
  (String.ofList run, c)

/-! ### Blanks -/

/-- The characters that are skipped in a pattern that ignores blanks. -/
def isSpace (c : Char) : Bool :=
  c == ' ' || c == '\t' || c == '\n' || c.toNat == 0x0B || c.toNat == 0x0C || c == '\r'

/-- Where the reader of blanks is. -/
inductive Blank where
  | between
  /-- Inside a comment that ends with the line. -/
  | line
  /-- Inside a comment that ends with the next closing parenthesis. -/
  | paren

/-- Skips comments in parentheses and, if `spaces` is set, spaces and comments up to the
end of a line. -/
def skipBlanksFrom (spaces : Bool) : Blank → Nat → List Char → Except Problem Cursor
  | .between, pos, [] => .ok ⟨pos, []⟩
  | .between, pos, ch :: rest =>
    if spaces && isSpace ch then skipBlanksFrom spaces .between (pos + 1) rest
    else if spaces && ch == '#' then skipBlanksFrom spaces .line (pos + 1) rest
    else if ch == '(' && rest.take 2 == ['?', '#'] then
      skipBlanksFrom spaces .paren (pos + 1) rest
    else .ok ⟨pos, ch :: rest⟩
  | .line, pos, [] => .ok ⟨pos, []⟩
  | .line, pos, ch :: rest =>
    skipBlanksFrom spaces (if ch = '\n' then .between else .line) (pos + 1) rest
  | .paren, pos, [] => .error ⟨.unterminatedComment, pos⟩
  | .paren, pos, ch :: rest =>
    skipBlanksFrom spaces (if ch = ')' then .between else .paren) (pos + 1) rest

def skipBlanks (c : Cursor) (o : Options) : Except Problem Cursor :=
  skipBlanksFrom o.ignoreWhitespace .between c.pos c.rest

/-! ### Flags -/

/-- Applies flag letters up to the first other character; a minus turns the following
ones off, a plus on again. -/
def flagsFrom (o : Options) (on : Bool) (pos : Nat) : List Char → Options × Cursor
  | [] => (o, ⟨pos, []⟩)
  | ch :: rest =>
    if ch = '-' then flagsFrom o false (pos + 1) rest
    else if ch = '+' then flagsFrom o true (pos + 1) rest
    else match Options.ofInlineFlag? ch with
      | some flag => flagsFrom (o.set flag on) on (pos + 1) rest
      | none => (o, ⟨pos, ch :: rest⟩)

def flags (c : Cursor) (o : Options) : Options × Cursor := flagsFrom o true c.pos c.rest

/-! ### Quantifiers and runs of literal characters -/

def isQuantifier (c : Char) : Bool := c == '\x7b' || c == '*' || c == '+' || c == '?'

/-- The characters that have a meaning of their own. -/
def isSpecial (c : Char) : Bool :=
  c == '\\' || c == '[' || c == '(' || c == ')' || c == '|' || c == '^' || c == '$' || c == '.' ||
    isQuantifier c

/-- The text after an opening brace counts repetitions: digits, perhaps a comma and more
digits, and the closing brace. -/
def startsCount (cs : List Char) : Bool :=
  let digits := cs.takeWhile Char.isDigit
  if digits.isEmpty then false
  else match cs.drop digits.length with
    | '\x7d' :: _ => true
    | ',' :: rest => (rest.dropWhile Char.isDigit).head? == some '\x7d'
    | _ => false

/-- The text begins with a quantifier. A brace counts only if it opens a count. -/
def startsQuantifier : List Char → Bool
  | [] => false
  | '\x7b' :: rest => startsCount rest
  | c :: _ => isQuantifier c

/-- The next character is not a literal one. -/
def endsRun (spaces : Bool) (c : Char) (rest : List Char) : Bool :=
  (isSpecial c || (spaces && (isSpace c || c == '#'))) && !(c == '\x7b' && !startsCount rest)

def literalRunFrom (spaces : Bool) : List Char → List Char
  | [] => []
  | c :: rest => if endsRun spaces c rest then [] else c :: literalRunFrom spaces rest

/-- The literal characters ahead, and what is after them. -/
def literalRun (c : Cursor) (o : Options) : List Char × Cursor :=
  let run := literalRunFrom o.ignoreWhitespace c.rest
  (run, c.drop run.length)

/-- Reads the greater bound of a count that begins at `start`, past its lesser bound `min`. Alone,
that one is both bounds. -/
def countMax (start min : Nat) (c : Cursor) : Except Problem (Nat × Cursor) :=
  if start < c.pos then
    match c.rest with
    | ',' :: rest =>
      match rest with
      | [] => .ok (unbounded, ⟨c.pos + 1, rest⟩)
      | '\x7d' :: _ => .ok (unbounded, ⟨c.pos + 1, rest⟩)
      | _ => decimal ⟨c.pos + 1, rest⟩
    | _ => .ok (min, c)
  else .ok (min, c)

/-- Reads a count in braces, past the opening one. Nothing is read if it is not a count. -/
def count? (c : Cursor) : Except Problem (Option (Nat × Nat × Cursor)) := do
  let (min, c₁) ← c.decimal
  let (max, c₂) ← countMax c.pos min c₁
  if c.pos = c₂.pos then .ok none
  else match c₂.rest with
    | '\x7d' :: rest => .ok (some (min, max, ⟨c₂.pos + 1, rest⟩))
    | _ => .ok none

/-- Reads a quantifier, without a mark for laziness: its bounds and what is after it. -/
def bounds? (c : Cursor) : Except Problem (Option (Nat × Nat × Cursor)) :=
  match c.rest with
  | '*' :: rest => .ok (some (0, unbounded, ⟨c.pos + 1, rest⟩))
  | '?' :: rest => .ok (some (0, 1, ⟨c.pos + 1, rest⟩))
  | '+' :: rest => .ok (some (1, unbounded, ⟨c.pos + 1, rest⟩))
  | '\x7b' :: rest => count? ⟨c.pos + 1, rest⟩
  | _ => .ok none

end Cursor

end PatternCompiler
