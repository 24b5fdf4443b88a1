import PatternCompiler.Pattern.Opening
import PatternCompiler.Pattern.Reduce
import PatternCompiler.Pattern.Survey

/-! From text to tree.

The reader keeps the groups that are still open in a list of frames, and the
options to return to in a list beside it. Each round of `Reader.step` takes a run
of literal characters and the construct that ended it, together with its
quantifier. A part is reduced when it is put into its group.

`Pattern.parse` surveys the groups first and then reads the tree. -/
namespace PatternCompiler

/-- A group that is still open. -/
structure Frame where
  kind : GroupKind
  /-- The options at its opening. -/
  options : Options
  /-- The finished alternatives; for a conditional, its condition and branches. -/
  branches : Array Node := #[]
  /-- The options at the beginning of the current alternative. -/
  seqOptions : Options
  /-- The parts of the current alternative. -/
  parts : Array Node := #[]
deriving Inhabited

namespace Frame

def opened (kind : GroupKind) (o : Options) : Frame :=
  { kind := kind, options := o, seqOptions := o }

/-- Puts a part into the current alternative. -/
def add (f : Frame) (n : Node) : Frame := { f with parts := f.parts.push n.reduce }

/-- The current alternative, in the order in which it is matched. -/
def sequence (f : Frame) : Node :=
  let parts := f.parts.toList
  .many f.seqOptions .concatenate (if f.seqOptions.rightToLeft then parts.reverse else parts)

/-- Ends the current alternative; the next one begins under the given options. -/
def endBranch (f : Frame) (o : Options) : Frame :=
  { f with branches := f.branches.push f.sequence.reduce, seqOptions := o, parts := #[] }

/-- The greatest number of parts a conditional has, its condition included. -/
def limit? (f : Frame) : Option Nat :=
  match f.kind with
  | .testref _ => some 2
  | .testgroup => some 3
  | _ => none

/-- The tree of the finished group. -/
def node (f : Frame) : Node :=
  let body := (Node.many f.options .alternate f.branches.toList).reduce
  match f.kind with
  | .capture number uncapture => .wrap f.options (.capture number uncapture) body
  | .plain => .many f.options .group [body]
  | .require => .wrap f.options .require body
  | .prevent => .wrap f.options .prevent body
  | .greedy => .wrap f.options .greedy body
  | .testref n => .many f.options (.testref n) f.branches.toList
  | .testgroup => .many f.options .testgroup f.branches.toList

/-- Ends the group, unless it is a conditional with too many branches. -/
def close? (f : Frame) (o : Options) : Option Node :=
  let f := f.endBranch o
  match f.limit? with
  | some limit => if limit < f.branches.size then none else some f.node
  | none => some f.node

/-- The group waits for its condition. -/
def awaitsCondition (f : Frame) : Bool := f.kind == .testgroup && f.branches.isEmpty

end Frame

structure Reader where
  cursor : Cursor
  options : Options
  /-- The options to return to at each closing parenthesis, the innermost first. -/
  saved : List Options := []
  /-- The number of the next group without a number or name of its own. -/
  autocap : Nat := 1
  /-- The next parenthesis opens a condition. -/
  ignoreNext : Bool := false
  /-- The innermost open group. -/
  frame : Frame
  /-- The groups around it, from the inside out. -/
  outer : List Frame := []
  /-- What was read last and may still be quantified. -/
  unit : Option Node := none
  /-- A quantifier was read last. -/
  afterQuantifier : Bool := false
deriving Inhabited

namespace Reader

def add (r : Reader) (n : Node) : Reader := { r with frame := r.frame.add n }

def leaf (r : Reader) (l : Leaf) : Node := .leaf r.options l

/-- The part that was read last is not quantified. -/
def place (r : Reader) : Reader :=
  match r.unit with
  | some n => { r.add n with unit := none }
  | none => r

/-- The part that was read last is quantified. -/
def placeQuantified (r : Reader) (lazy : Bool) (min max : Nat) : Reader :=
  match r.unit with
  | some n => { r.add (n.quantify lazy min max) with unit := none }
  | none => r

/-! ### Literal characters -/

def lower (e : Setting) (r : Reader) (c : Char) : Char :=
  if r.options.ignoreCase then e.culture.toLower c else c

/-- Adds a run of literal characters. -/
def addRun (e : Setting) (r : Reader) (run : List Char) : Reader :=
  match run.map (r.lower e) with
  | [] => r
  | [c] => r.add (r.leaf (.test (.one c)))
  | cs => r.add (r.leaf (.multi cs))

/-- Adds a run of literal characters, the last of which may be quantified. -/
def addRunQuantified (e : Setting) (r : Reader) (run : List Char) : Reader :=
  match run.getLast? with
  | none => r
  | some c =>
    { r.addRun e run.dropLast with unit := some (r.leaf (.test (.one (r.lower e c)))) }

/-! ### Groups -/

/-- The group that begins at a parenthesis without a mark. -/
def unmarked (r : Reader) : Reader :=
  if r.options.explicitCapture || r.ignoreNext then
    { r with frame := .opened .plain r.options, outer := r.frame :: r.outer, ignoreNext := false }
  else
    { r with
      frame := .opened (.capture (some r.autocap) none) r.options
      outer := r.frame :: r.outer
      autocap := r.autocap + 1
      ignoreNext := false }

/-- Reads what follows an opening parenthesis. -/
def openGroup (e : Setting) (r : Reader) : Except Problem Reader := do
  match ← r.cursor.opening? e.table r.options with
  | none => .ok { r.unmarked with saved := r.options :: r.saved }
  | some p =>
    let r' := { r with cursor := p.cursor, options := p.options, ignoreNext := p.condition }
    match p.kind with
    | none => .ok r'
    | some kind =>
      .ok { r' with
        frame := .opened kind p.options, outer := r.frame :: r.outer, saved := r.options :: r.saved }

/-- The options at the closing parenthesis of a group. -/
def restore (r : Reader) : Reader :=
  match r.saved with
  | [] => r
  | o :: rest => { r with options := o, saved := rest }

/-- Ends the innermost group. It becomes the condition of the group around it, if that one
waits for a condition, and may be quantified otherwise. -/
def closeGroup (r : Reader) : Except Problem Reader :=
  match r.outer with
  | [] => r.cursor.fail .tooManyParens
  | f :: rest =>
    match r.frame.close? r.options with
    | none => r.cursor.fail .tooManyAlternates
    | some n =>
      let r := { r with outer := rest }
      if f.awaitsCondition then
        .ok { r with frame := { f with branches := f.branches.push n.reduce } }.restore
      else .ok { r with frame := f, unit := some n }.restore

/-! ### One round -/

/-- Reads the quantifier of the part that was read last, if it has one. -/
def quantifier (r : Reader) : Except Problem Reader := do
  let c ← r.cursor.skipBlanks r.options
  if Cursor.startsQuantifier c.rest then
    match ← c.bounds? with
    | none => .ok { r.place with cursor := c, afterQuantifier := true }
    | some (min, max, c) =>
      let c ← c.skipBlanks r.options
      let lazy := c.rest.head? == some '?'
      let c := c.skipChar '?'
      if max < min then c.fail .reversedQuantifierRange
      else .ok { r.placeQuantified lazy min max with cursor := c, afterQuantifier := true }
  else .ok { r.place with cursor := c, afterQuantifier := false }

def withUnit (r : Reader) (l : Leaf) : Reader := { r with unit := some (r.leaf l) }

/-- Reads the construct that begins with the special character `ch`, which is behind the
cursor; `nested` tells that the quantifier before it is still the last thing read. -/
def special (e : Setting) (r : Reader) (ch : Char) (nested : Bool) : Except Problem Reader :=
  match ch with
  | '[' => do
    let mode : Cursor.BracketMode :=
      { ignoreCase := r.options.ignoreCase, ecma := r.options.ecmaScript, culture := e.culture }
    let (k, c) ← r.cursor.bracket mode
    { r.withUnit (.test (.set k)) with cursor := c }.quantifier
  | '(' => r.openGroup e
  | '|' => .ok { r with frame := r.frame.endBranch r.options }
  | ')' => do
    let r ← r.closeGroup
    if r.unit.isSome then r.quantifier else .ok r
  | '\\' => do
    let (l, c) ← r.cursor.backslash e r.options
    { r.withUnit l with cursor := c }.quantifier
  | '^' => (r.withUnit (.assertion (if r.options.multiline then .bol else .beginning))).quantifier
  | '$' => (r.withUnit (.assertion (if r.options.multiline then .eol else .endZ))).quantifier
  | '.' =>
    (r.withUnit (.test (if r.options.singleline then .set CharClass.any else .notone '\n'))).quantifier
  | ch =>
    if r.unit.isSome then
      { r with cursor := ⟨r.cursor.pos - 1, ch :: r.cursor.rest⟩ }.quantifier
    else if nested then r.cursor.fail (.nestedQuantifier ch)
    else r.cursor.fail .quantifierAfterNothing

/-- Reads a run of literal characters and the construct that ends it. -/
def step (e : Setting) (r : Reader) : Except Problem Reader := do
  let c ← r.cursor.skipBlanks r.options
  let (run, c) := c.literalRun r.options
  let c ← c.skipBlanks r.options
  let nested := r.afterQuantifier && run.isEmpty
  let r := { r with cursor := c, afterQuantifier := false }
  match c.rest with
  | [] => .ok (r.addRun e run)
  | ch :: rest =>
    if Cursor.isSpecial ch then
      let r := if Cursor.isQuantifier ch then r.addRunQuantified e run else r.addRun e run
      { r with cursor := ⟨c.pos + 1, rest⟩ }.special e ch nested
    else .ok (r.addRun e run)

/-- Reads the rest of the pattern. Every round takes at least one character. -/
def run (e : Setting) : (rounds : Nat) → Reader → Except Problem Reader
  | 0, r => .ok r
  | rounds + 1, r =>
    match r.cursor.rest with
    | [] => .ok r
    | _ :: _ => do run e rounds (← r.step e)

/-- The tree, once nothing is ahead. -/
def finish (r : Reader) : Except Problem Node :=
  match r.outer with
  | _ :: _ => r.cursor.fail .notEnoughParens
  | [] =>
    match r.frame.close? r.options with
    | none => r.cursor.fail .tooManyAlternates
    | some n => .ok n

/-- Before the first character: the whole pattern is group 0. -/
def start (pattern : List Char) (o : Options) : Reader :=
  { cursor := ⟨0, pattern⟩, options := o, frame := .opened (.capture (some 0) none) o }

end Reader

/-- A pattern that has been read. -/
structure Pattern where
  root : Node
  table : GroupTable
  options : Options
  culture : Culture
deriving Inhabited

namespace Pattern

def rightToLeft (p : Pattern) : Bool := p.options.rightToLeft

/-- Reads the characters of a pattern. -/
def read (pattern : List Char) (o : Options) (culture : Culture) : Except Problem Pattern := do
  let table ← GroupTable.ofPattern pattern o
  let r ← Reader.run ⟨culture, table⟩ pattern.length (Reader.start pattern o)
  .ok { root := ← r.finish, table := table, options := o, culture := culture }

/-- The culture that counts: culture invariance overrides the one asked for. -/
def effectiveCulture (o : Options) (culture : Culture) : Culture :=
  if o.cultureInvariant then .invariant else culture

def parse (pattern : String) (o : Options) (culture : Culture) : Except SyntaxError Pattern :=
  match read pattern.toList o (effectiveCulture o culture) with
  | .ok p => .ok p
  | .error problem => .error ⟨pattern, problem⟩

end Pattern

end PatternCompiler
