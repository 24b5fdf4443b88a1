import PatternCompiler.Pattern.Backslash

/-! What follows an opening parenthesis.

`Cursor.opening` tells which kind of group begins there. A group of flags only
opens nothing. Lookarounds set the direction for what they hold. A condition that
is not a reference is left ahead, to be read as a group of its own. -/
namespace PatternCompiler

inductive GroupKind where
  | capture (number uncapture : Option Nat)
  | plain
  | require
  | prevent
  | greedy
  | testref (number : Nat)
  | testgroup
deriving DecidableEq, Inhabited

/-- A group that begins, and what holds from there on. -/
structure Opening where
  /-- No kind if the parentheses hold flags only. -/
  kind : Option GroupKind
  options : Options
  cursor : Cursor
  /-- The next parenthesis opens a condition. -/
  condition : Bool := false

namespace Cursor

/-- After the name of a group there is only its closing mark or a dash. -/
def endsName (close : Char) : List Char → Bool
  | [] => true
  | ch :: _ => ch == close || ch == '-'

/-- Reads the number or name a group has of its own, if the pattern declares it. A dash
instead means that it has none, which the second component tells. -/
def ownName (t : GroupTable) (close : Char) (c : Cursor) :
    Except Problem (Option Nat × Bool × Cursor) :=
  match c.rest with
  | [] => c.fail .invalidGroupName
  | ch :: _ =>
    if ch.isDigit then do
      let (n, c) ← c.decimal
      if n = 0 then c.fail .captureNumberZero
      else if endsName close c.rest then .ok (if t.contains n then some n else none, false, c)
      else c.fail .invalidGroupName
    else if Unicode.isWord ch then
      let (name, c) := c.word
      if endsName close c.rest then .ok (t.numberOf? name, false, c)
      else c.fail .invalidGroupName
    else if ch = '-' then .ok (none, true, c)
    else c.fail .invalidGroupName

/-- Reads the number or name of the group that is taken back. -/
def takenNumber (t : GroupTable) (c : Cursor) : Except Problem (Nat × Cursor) :=
  match c.rest with
  | [] => c.fail .invalidGroupName
  | ch :: _ =>
    if '1' ≤ ch ∧ ch ≤ '9' then do
      let (n, c) ← c.decimal
      if t.contains n then .ok (n, c) else c.fail (.undefinedBackref n)
    else if Unicode.isWord ch then
      let (name, c) := c.word
      match t.numberOf? name with
      | some n => .ok (n, c)
      | none => c.fail (.undefinedNameRef name)
    else c.fail .invalidGroupName

/-- Reads the group that is taken back, past the dash. -/
def takenBack (t : GroupTable) (close : Char) (c : Cursor) : Except Problem (Nat × Cursor) := do
  let (n, c) ← takenNumber t c
  match c.rest with
  | [] => .ok (n, c)
  | e :: _ => if e = close then .ok (n, c) else c.fail .invalidGroupName

/-- Reads a dash and the group that is taken back, if a dash is ahead where one may be. -/
def takenBack? (t : GroupTable) (close : Char) (allowed : Bool) (c : Cursor) :
    Except Problem (Option Nat × Cursor) :=
  if allowed && c.rest.head? == some '-' then do
    let (n, c) ← takenBack t close c.skipOne
    .ok (some n, c)
  else .ok (none, c)

/-- Reads the name of a group up to its closing mark. -/
def captureName (t : GroupTable) (close : Char) (c : Cursor) :
    Except Problem (GroupKind × Cursor) := do
  let (number, noName, c) ← ownName t close c
  let (uncapture, c) ← takenBack? t close (number.isSome || noName) c
  if number.isSome || uncapture.isSome then
    match c.rest with
    | [] => c.fail .unrecognizedGrouping
    | e :: rest =>
      if e = close then .ok (.capture number uncapture, ⟨c.pos + 1, rest⟩)
      else fail ⟨c.pos + 1, rest⟩ .unrecognizedGrouping
  else c.fail .unrecognizedGrouping

/-- Reads a condition that refers to a group, past its parenthesis. Nothing is read if the
condition is an expression. -/
def conditionReference? (t : GroupTable) (c : Cursor) : Except Problem (Option (Nat × Cursor)) :=
  match c.rest with
  | [] => .ok none
  | ch :: _ =>
    if ch.isDigit then do
      let (n, c) ← c.decimal
      match c.rest with
      | ')' :: rest =>
        if t.contains n then .ok (some (n, ⟨c.pos + 1, rest⟩))
        else fail ⟨c.pos + 1, rest⟩ (.undefinedReference n)
      | _ => c.skipOne.fail (.malformedReference n)
    else if Unicode.isWord ch then
      let (name, c) := c.word
      match t.numberOf? name, c.rest with
      | some n, ')' :: rest => .ok (some (n, ⟨c.pos + 1, rest⟩))
      | _, _ => .ok none
    else .ok none

/-- A condition may not be a comment, nor a group with a name. -/
def checkCondition (c : Cursor) : Except Problem Unit :=
  match c.rest with
  | _ :: '?' :: '#' :: _ => c.fail .conditionCantComment
  | _ :: '?' :: '\'' :: _ => c.fail .conditionCantCapture
  | _ :: '?' :: '<' :: ch :: _ =>
    if ch = '!' ∨ ch = '=' then .ok () else c.fail .conditionCantCapture
  | _ => .ok ()

/-- Reads the condition of a conditional; `paren` is at its parenthesis. -/
def condition (t : GroupTable) (o : Options) (paren : Cursor) : Except Problem Opening := do
  match ← conditionReference? t paren.skipOne with
  | some (n, c) => .ok { kind := some (.testref n), options := o, cursor := c }
  | none =>
    paren.checkCondition
    .ok { kind := some .testgroup, options := o, cursor := paren, condition := true }

/-- Reads flags and the colon or parenthesis after them. -/
def flagGroup (o : Options) (c : Cursor) : Except Problem Opening :=
  let (o, c) := c.flags o
  match c.rest with
  | [] => c.fail .unrecognizedGrouping
  | ')' :: rest => .ok { kind := none, options := o, cursor := ⟨c.pos + 1, rest⟩ }
  | ':' :: rest => .ok { kind := some .plain, options := o, cursor := ⟨c.pos + 1, rest⟩ }
  | _ :: rest => fail ⟨c.pos + 1, rest⟩ .unrecognizedGrouping

/-- Reads what follows a parenthesis and a question mark. -/
def markedOpening (t : GroupTable) (o : Options) (c : Cursor) : Except Problem Opening :=
  let ahead : Options := { o with rightToLeft := false }
  let behind : Options := { o with rightToLeft := true }
  let named (close : Char) (c : Cursor) : Except Problem Opening := do
    let (kind, c) ← captureName t close c
    .ok { kind := some kind, options := o, cursor := c }
  match c.rest with
  | [] => c.fail .unrecognizedGrouping
  | ':' :: rest => .ok { kind := some .plain, options := o, cursor := ⟨c.pos + 1, rest⟩ }
  | '=' :: rest => .ok { kind := some .require, options := ahead, cursor := ⟨c.pos + 1, rest⟩ }
  | '!' :: rest => .ok { kind := some .prevent, options := ahead, cursor := ⟨c.pos + 1, rest⟩ }
  | '>' :: rest => .ok { kind := some .greedy, options := o, cursor := ⟨c.pos + 1, rest⟩ }
  | '<' :: rest =>
    match rest with
    | [] => fail ⟨c.pos + 1, rest⟩ .unrecognizedGrouping
    | '=' :: rest => .ok { kind := some .require, options := behind, cursor := ⟨c.pos + 2, rest⟩ }
    | '!' :: rest => .ok { kind := some .prevent, options := behind, cursor := ⟨c.pos + 2, rest⟩ }
    | rest => named '>' ⟨c.pos + 1, rest⟩
  | '\'' :: rest =>
    match rest with
    | [] => fail ⟨c.pos + 1, rest⟩ .unrecognizedGrouping
    | rest => named '\'' ⟨c.pos + 1, rest⟩
  | '(' :: _ => condition t o c
  | _ => flagGroup o c

/-- Reads what follows an opening parenthesis that is marked by a question mark. Without the
mark, or if the group is closed right after it, there is nothing to read. -/
def opening? (t : GroupTable) (o : Options) (c : Cursor) : Except Problem (Option Opening) :=
  match c.rest with
  | '?' :: ')' :: _ => .ok none
  | '?' :: rest => do .ok (some (← markedOpening t o ⟨c.pos + 1, rest⟩))
  | _ => .ok none

end Cursor

end PatternCompiler
