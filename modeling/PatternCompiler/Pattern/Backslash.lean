import PatternCompiler.Pattern.Bracket
import PatternCompiler.Pattern.GroupTable

/-! Escapes outside brackets.

A backslash leads to an assertion, a shorthand or category, a reference to a
group, or a single character. What looks like a reference but is none is read
again as a character. -/
namespace PatternCompiler

/-- What reading a construct depends on: the culture and the groups of the pattern. -/
structure Setting where
  culture : Culture
  table : GroupTable

namespace Cursor

/-! ### References -/

/-- Tries the group whose number is `n`, the value of the digits up to and with the next
one, and then the number with one more digit. A number counts only if its group is
declared before the backslash; past the greatest number of a group nothing is tried. -/
def ecmaReferenceFrom (t : GroupTable) (backslash n : Nat) (found : Option Nat) (pos : Nat) :
    List Char → Option Nat × Cursor
  | [] => (found, ⟨pos, []⟩)
  | d :: rest =>
    if n ≤ t.top then
      let declared := match t.offset? n with
        | some declaration => decide (declaration < backslash)
        | none => false
      let found := if declared then some n else found
      match rest with
      | e :: _ =>
        if e.isDigit then ecmaReferenceFrom t backslash (10 * n + digit e) found (pos + 1) rest
        else (found, ⟨pos + 1, rest⟩)
      | [] => (found, ⟨pos + 1, rest⟩)
    else (found, ⟨pos, d :: rest⟩)

/-- Reads a reference in ECMAScript mode, from its first digit on. -/
def ecmaReference (t : GroupTable) (c : Cursor) : Option Nat × Cursor :=
  match c.rest with
  | [] => (none, c)
  | d :: _ => ecmaReferenceFrom t (c.pos - 1) (digit d) none c.pos c.rest

/-- Reads a number or name up to `close`: the number of the group it refers to, or nothing if
this is no reference after all. -/
def enclosedReference? (t : GroupTable) (close : Char) (c : Cursor) :
    Except Problem (Option (Nat × Cursor)) :=
  match c.rest with
  | [] => .ok none
  | ch :: _ =>
    if ch.isDigit then do
      let (n, c) ← c.decimal
      match c.rest with
      | e :: rest =>
        if e ≠ close then .ok none
        else if t.contains n then .ok (some (n, ⟨c.pos + 1, rest⟩))
        else fail ⟨c.pos + 1, rest⟩ (.undefinedBackref n)
      | [] => .ok none
    else if Unicode.isWord ch then
      let (name, c) := c.word
      match c.rest with
      | e :: rest =>
        if e ≠ close then .ok none
        else match t.numberOf? name with
          | some n => .ok (some (n, ⟨c.pos + 1, rest⟩))
          | none => fail ⟨c.pos + 1, rest⟩ (.undefinedNameRef name)
      | [] => .ok none
    else .ok none

/-- Reads a reference by its number alone. -/
def numberedReference? (t : GroupTable) (ecma : Bool) (c : Cursor) :
    Except Problem (Option (Nat × Cursor)) := do
  if ecma then
    let (found, c) := ecmaReference t c
    .ok (found.map fun n => (n, c))
  else
    let (n, c) ← c.decimal
    if t.contains n then .ok (some (n, c))
    else if n ≤ 9 then c.fail (.undefinedBackref n)
    else .ok none

/-- The mark that closes what the given mark opens. -/
def closing? : Char → Option Char
  | '<' => some '>'
  | '\'' => some '\''
  | _ => none

/-- Reads a reference after a backslash, if there is one. -/
def reference? (t : GroupTable) (ecma : Bool) (c : Cursor) :
    Except Problem (Option (Nat × Cursor)) :=
  match c.rest with
  | [] => .ok none
  | 'k' :: rest =>
    match rest with
    | [] => c.fail .malformedNameRef
    | ch :: rest =>
      let c : Cursor := ⟨c.pos + 2, rest⟩
      match closing? ch with
      | none => c.fail .malformedNameRef
      | some close =>
        if rest.isEmpty then c.fail .malformedNameRef else enclosedReference? t close c
  | ch :: rest =>
    match closing? ch with
    | some close =>
      if rest.isEmpty then .ok none else enclosedReference? t close ⟨c.pos + 1, rest⟩
    | none =>
      if '1' ≤ ch ∧ ch ≤ '9' then numberedReference? t ecma c else .ok none

/-- Reads a reference or a single character. -/
def referenceOrChar (e : Setting) (o : Options) (c : Cursor) : Except Problem (Leaf × Cursor) := do
  match ← reference? e.table o.ecmaScript c with
  | some (n, c) => .ok (.ref n, c)
  | none =>
    let (ch, c) ← c.charEscape o.ecmaScript
    .ok (.test (.one (if o.ignoreCase then e.culture.toLower ch else ch)), c)

/-! ### All escapes -/

/-- The assertion that an escape letter stands for. -/
def assertion? (ecma : Bool) : Char → Option Assertion
  | 'b' => some (if ecma then .ecmaBoundary else .boundary)
  | 'B' => some (if ecma then .nonEcmaBoundary else .nonboundary)
  | 'A' => some .beginning
  | 'G' => some .start
  | 'Z' => some .endZ
  | 'z' => some .finish
  | _ => none

/-- Reads an escape, from just past the backslash. -/
def backslash (e : Setting) (o : Options) (c : Cursor) : Except Problem (Leaf × Cursor) :=
  match c.rest with
  | [] => c.fail .illegalEndEscape
  | ch :: rest =>
    let next : Cursor := ⟨c.pos + 1, rest⟩
    match assertion? o.ecmaScript ch with
    | some a => .ok (.assertion a, next)
    | none =>
      match Shorthand.ofEscape? ch with
      | some (s, others) =>
        let level := CharClass.Level.addShorthand {} s others o.ecmaScript
        .ok (.test (.set (CharClass.resolveChain [level])), next)
      | none =>
        if ch = 'p' ∨ ch = 'P' then do
          let (k, next) ← next.category o.ignoreCase
          let level := CharClass.Level.addClass {} k (ch == 'P')
          .ok (.test (.set (CharClass.resolveChain [level])), next)
        else referenceOrChar e o c

end Cursor

end PatternCompiler
