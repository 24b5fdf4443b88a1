import PatternCompiler.CharClass.Level
import PatternCompiler.Pattern.Escape

/-! Classes in brackets.

There are two readers, both starting just past the opening bracket. `bracket`
gives the class. `skipBracket` only finds the end; it is for the survey of the
groups, which comes before anything else about the pattern is known. -/
namespace PatternCompiler.Cursor

/-- Past a name between colons, which must be closed by a bracket; otherwise stays. -/
def skipPosixName (c : Cursor) : Cursor :=
  match c.rest with
  | ':' :: rest =>
    let (_, after) := word ⟨c.pos + 1, rest⟩
    match after.rest with
    | ':' :: ']' :: rest => ⟨after.pos + 2, rest⟩
    | _ => c
  | _ => c

/-! ### Finding the end -/

/-- Looks for the bracket that closes the class, inside `depth` further ones. `first` holds
before the first character of a level, `dash` right after a dash. Every round takes at
least one character. -/
def skipBracketFrom : (rounds depth : Nat) → (first dash : Bool) → Cursor → Except Problem Cursor
  | 0, _, _, _, c => c.fail .unterminatedBracket
  | rounds + 1, depth, first, dash, c =>
    match c.rest with
    | [] => c.fail .unterminatedBracket
    | ch :: rest =>
      let next : Cursor := ⟨c.pos + 1, rest⟩
      if ch = ']' ∧ first = false then
        match depth with
        | 0 => .ok next
        | depth + 1 => skipBracketFrom rounds depth false false next
      else if ch = '\\' then skipBracketFrom rounds depth false false next.skipOne
      else if ch = '-' then skipBracketFrom rounds depth false true next
      else if ch = '[' then
        if dash then skipBracketFrom rounds (depth + 1) true false (next.skipChar '^')
        else skipBracketFrom rounds depth false false next.skipPosixName
      else skipBracketFrom rounds depth false false next

def skipBracket (c : Cursor) : Except Problem Cursor :=
  let c := c.skipChar '^'
  skipBracketFrom (c.rest.length + 1) 0 true false c

/-! ### Reading the class -/

/-- What reading a class depends on. -/
structure BracketMode where
  ignoreCase : Bool
  ecma : Bool
  culture : Culture

/-- How a level ended: at its closing bracket, or at a subtraction, whose class is ahead. -/
inductive LevelEnd where
  | closed
  | subtraction
deriving DecidableEq

/-- What one character of a bracket turned out to be. -/
inductive Member where
  /-- A literal character; `escaped` if it was written with a backslash. -/
  | char (c : Char) (escaped : Bool)
  /-- Part of the level already, and nothing that a range could begin or end with. -/
  | done (level : CharClass.Level) (pending : Option Char)
  /-- The closing bracket. -/
  | close

/-- Adds a range that must not be reversed. -/
def addRange (c : Cursor) (level : CharClass.Level) (lo hi : Char) :
    Except Problem CharClass.Level :=
  if hi < lo then c.fail .reversedCharRange else .ok (level.addRange ⟨lo, hi⟩)

/-- Reads what follows a backslash inside a bracket. `pending` is the first character of a
range that is being read. -/
def bracketEscape (m : BracketMode) (level : CharClass.Level) (pending : Option Char) (c : Cursor)
    (ch : Char) (next : Cursor) : Except Problem (Member × Cursor) :=
  match Shorthand.ofEscape? ch with
  | some (s, others) =>
    if pending.isSome then next.fail (.badClassInCharRange ch)
    else .ok (.done (level.addShorthand s others m.ecma) none, next)
  | none =>
    if ch = 'p' ∨ ch = 'P' then
      if pending.isSome then next.fail (.badClassInCharRange ch)
      else do
        let (k, next) ← next.category m.ignoreCase
        .ok (.done (level.addClass k (ch == 'P')) none, next)
    else if ch = '-' then
      match pending with
      | some lo => do .ok (.done (← next.addRange level lo ch) none, next)
      | none => .ok (.done (level.addChar ch) none, next)
    else do
      let (ch, next) ← c.charEscape m.ecma
      .ok (.char ch true, next)

/-- Reads one member of a bracket that begins with `ch`. -/
def member (m : BracketMode) (level : CharClass.Level) (pending : Option Char) (first : Bool)
    (ch : Char) (next : Cursor) : Except Problem (Member × Cursor) :=
  if ch = ']' then
    .ok (if first then .char ch false else .close, next)
  else if ch = '\\' then
    match next.rest with
    | [] => .ok (.char ch false, next)
    | e :: rest => bracketEscape m level pending next e ⟨next.pos + 1, rest⟩
  else if ch = '[' ∧ pending = none then .ok (.char ch false, next.skipPosixName)
  else .ok (.char ch false, next)

/-- A dash is ahead, and after it something other than the closing bracket. -/
def startsRange : List Char → Bool
  | '-' :: c :: _ => c != ']'
  | _ => false

/-- Reads the members of one level. Every round takes at least one character. -/
def levelFrom (m : BracketMode) :
    (rounds : Nat) → CharClass.Level → (pending : Option Char) → (first : Bool) → Cursor →
      Except Problem (CharClass.Level × LevelEnd × Cursor)
  | 0, _, _, _, c => c.fail .unterminatedBracket
  | rounds + 1, level, pending, first, c =>
    match c.rest with
    | [] => c.fail .unterminatedBracket
    | ch :: rest => do
      let (found, next) ← member m level pending first ch ⟨c.pos + 1, rest⟩
      match found with
      | .close => .ok (level, .closed, next)
      | .done level pending => levelFrom m rounds level pending false next
      | .char ch escaped =>
        match pending with
        | some lo =>
          if ch = '[' ∧ escaped = false ∧ first = false then
            .ok (level.addChar lo, .subtraction, next)
          else
            levelFrom m rounds (← next.addRange level lo ch) none false next
        | none =>
          if startsRange next.rest then
            levelFrom m rounds level (some ch) false next.skipOne
          else if ch = '-' ∧ escaped = false ∧ first = false ∧ next.rest.head? = some '[' then
            .ok (level, .subtraction, next.skipOne)
          else levelFrom m rounds (level.addChar ch) none false next

/-- Reads one level, from just past its opening bracket. -/
def level (m : BracketMode) (c : Cursor) :
    Except Problem (CharClass.Level × LevelEnd × Cursor) := do
  let negated := c.rest.head? == some '^'
  let start := c.skipChar '^'
  let empty : CharClass.Level := if negated then CharClass.Level.negate {} else {}
  let (l, stop, c) ← levelFrom m (start.rest.length + 1) empty none true start
  .ok (if m.ignoreCase then l.addLowercase m.culture else l, stop, c)

/-- Reads levels, the outermost first, up to the closing bracket of the innermost. -/
def levelsFrom (m : BracketMode) :
    (rounds : Nat) → Cursor → Except Problem (List CharClass.Level × Cursor)
  | 0, c => c.fail .unterminatedBracket
  | rounds + 1, c => do
    let (l, stop, c) ← level m c
    match stop with
    | .closed => .ok ([l], c)
    | .subtraction =>
      let (inner, c) ← levelsFrom m rounds c
      .ok (l :: inner, c)

/-- Reads the closing brackets of the levels around a subtraction. -/
def closeLevels : (count : Nat) → Cursor → Except Problem Cursor
  | 0, c => .ok c
  | count + 1, c =>
    match c.rest with
    | [] => c.fail .unterminatedBracket
    | ']' :: rest => closeLevels count ⟨c.pos + 1, rest⟩
    | _ => c.fail .subtractionMustBeLast

/-- Reads a class in brackets, from just past the opening bracket. -/
def bracket (m : BracketMode) (c : Cursor) : Except Problem (CharClass × Cursor) := do
  let (levels, c) ← levelsFrom m (c.rest.length + 1) c
  let c ← closeLevels (levels.length - 1) c
  .ok (CharClass.resolveChain levels, c)

end PatternCompiler.Cursor
