import PatternCompiler.Pattern.Cursor
import PatternCompiler.Unicode.Category

/-! Escapes that stand for one character, and the names of categories.

All readers here start just past the backslash, or past the letter that names the
kind of escape. -/
namespace PatternCompiler.Cursor

/-- The value of an octal digit. -/
def octalDigit? (c : Char) : Option Nat :=
  if '0' ≤ c ∧ c ≤ '7' then some (digit c) else none

/-- The value of a hexadecimal digit, in either case. -/
def hexDigit? (c : Char) : Option Nat :=
  if c.isDigit then some (digit c)
  else if 'a' ≤ c ∧ c ≤ 'f' then some (c.toNat - 'a'.toNat + 10)
  else if 'A' ≤ c ∧ c ≤ 'F' then some (c.toNat - 'A'.toNat + 10)
  else none

/-- Reads at most `left` more octal digits after those with the value `n`. In ECMAScript mode
the numeral ends as soon as it reaches the value of the blank. -/
def octalFrom (ecma : Bool) : (left n : Nat) → Cursor → Nat × Cursor
  | 0, n, c => (n, c)
  | left + 1, n, c =>
    match c.rest with
    | [] => (n, c)
    | d :: rest =>
      match octalDigit? d with
      | none => (n, c)
      | some v =>
        let m := 8 * n + v
        if ecma && 0x20 ≤ m then (m, ⟨c.pos + 1, rest⟩)
        else octalFrom ecma left m ⟨c.pos + 1, rest⟩

/-- Reads up to three octal digits; of a greater number only the low eight bits count. -/
def octal (c : Cursor) (ecma : Bool) : Char × Cursor :=
  let (n, c) := octalFrom ecma 3 0 c
  (Char.ofNat (n % 256), c)

/-- Reads `left` more hexadecimal digits after those with the value `n`. -/
def hexFrom : (left n : Nat) → Cursor → Except Problem (Nat × Cursor)
  | 0, n, c => .ok (n, c)
  | left + 1, n, c =>
    match c.rest with
    | [] => c.fail .insufficientHex
    | d :: rest =>
      match hexDigit? d with
      | none => fail ⟨c.pos + 1, rest⟩ .insufficientHex
      | some v => hexFrom left (16 * n + v) ⟨c.pos + 1, rest⟩

/-- Reads a character by its number, in exactly so many hexadecimal digits. -/
def hex (c : Cursor) (digits : Nat) : Except Problem (Char × Cursor) := do
  if c.rest.length < digits then c.fail .insufficientHex
  else
    let (n, c) ← hexFrom digits 0 c
    match Scalar.ofCode? n with
    | some ch => .ok (ch, c)
    | none => c.fail .surrogateEscape

/-- Reads the letter of a control character. -/
def control (c : Cursor) : Except Problem (Char × Cursor) :=
  match c.rest with
  | [] => c.fail .missingControl
  | ch :: rest =>
    let code := ch.toUpper.toNat
    if '@'.toNat ≤ code ∧ code < '@'.toNat + 0x20 then
      .ok (Char.ofNat (code - '@'.toNat), ⟨c.pos + 1, rest⟩)
    else fail ⟨c.pos + 1, rest⟩ .unrecognizedControl

/-- Reads an escaped character. Outside ECMAScript mode a word character without a meaning
of its own is refused; any other character stands for itself. -/
def charEscape (c : Cursor) (ecma : Bool) : Except Problem (Char × Cursor) :=
  match c.rest with
  | [] => c.fail .illegalEndEscape
  | ch :: rest =>
    let next : Cursor := ⟨c.pos + 1, rest⟩
    if (octalDigit? ch).isSome then .ok (c.octal ecma)
    else match ch with
      | 'x' => next.hex 2
      | 'u' => next.hex 4
      | 'a' => .ok (Char.ofNat 0x07, next)
      | 'b' => .ok (Char.ofNat 0x08, next)
      | 'e' => .ok (Char.ofNat 0x1B, next)
      | 'f' => .ok (Char.ofNat 0x0C, next)
      | 'n' => .ok ('\n', next)
      | 'r' => .ok ('\r', next)
      | 't' => .ok ('\t', next)
      | 'v' => .ok (Char.ofNat 0x0B, next)
      | 'c' => next.control
      | ch =>
        if !ecma && Unicode.isWord ch then next.fail (.unrecognizedEscape ch)
        else .ok (ch, next)

/-- Reads the name of a category in braces. -/
def categoryName (c : Cursor) : Except Problem (String × Cursor) :=
  if c.rest.length < 3 then c.fail .incompleteCategory
  else match c.rest with
    | '\x7b' :: rest =>
      let (name, c) := takeWhile ⟨c.pos + 1, rest⟩ fun ch => Unicode.isWord ch || ch == '-'
      match c.rest with
      | [] => c.fail .incompleteCategory
      | '\x7d' :: rest => .ok (String.ofList name, ⟨c.pos + 1, rest⟩)
      | _ :: rest => fail ⟨c.pos + 1, rest⟩ .incompleteCategory
    | _ => c.skipOne.fail .malformedCategory

/-- Reads a category in braces and gives its class. -/
def category (c : Cursor) (ignoreCase : Bool) : Except Problem (CharClass × Cursor) := do
  let (name, c) ← c.categoryName
  match Unicode.Category.named? name ignoreCase with
  | some k => .ok (k, c)
  | none => c.fail (.unknownCategory name)

end PatternCompiler.Cursor
