import PatternCompiler.Source.Start
import PatternCompiler.Source.States

/-! The whole source of a matcher.

At the top stand the items that the rest refers to: classes, the table of the
literal search, the groups. Then comes a type without fields, and what it does as
a matcher: finding a candidate, attempting a match, and a few constants. -/
namespace PatternCompiler

open Source

/-- How the generated source is named and placed. What is not set has a default. -/
structure SourceConfig where
  /-- The module around the items; `some none` asks for none. -/
  moduleName : Option (Option String) := none
  structName : Option String := none
  runtimePath : Option String := none
deriving DecidableEq, Inhabited

namespace SourceConfig

/-- What is set in `b`, and for the rest what is set in `a`. -/
def overwrite (a b : SourceConfig) : SourceConfig where
  moduleName := b.moduleName.or a.moduleName
  structName := b.structName.or a.structName
  runtimePath := b.runtimePath.or a.runtimePath

def getModule (c : SourceConfig) : Option String := c.moduleName.join

def getStructName (c : SourceConfig) : String := c.structName.getD "Pattern"

def getRuntimePath (c : SourceConfig) : String := c.runtimePath.getD "regex_emit::runtime"

end SourceConfig

/-- The source of a matcher, with what is known about it. -/
structure Compiled where
  source : String
  /-- The resumption of each tag. -/
  resumptions : List Resumption
  /-- The operations at which a state begins. -/
  labels : List Nat
  start : StartStrategy
deriving Inhabited

namespace Source

/-! ### Declarations -/

def bracketed (parts : List String) : String := "&[" ++ String.intercalate ", " parts ++ "]"

def pairCode (a b : String) : String := "(" ++ a ++ ", " ++ b ++ ")"

def rangesCode (k : CharClass) : String :=
  bracketed (k.ranges.toList.map fun r => pairCode (Quoted.charLiteral r.lo) (Quoted.charLiteral r.hi))

def cultureCode : Culture → String
  | .invariant => "Culture::Invariant"
  | .turkic => "Culture::Turkic"

def declareClass (g : Global) (k : CharClass) : Stmt :=
  .code ("const " ++ g.name ++ ": &[(char, char)] = " ++ rangesCode k ++ ";")

/-- The table of the literal search, which refers to the culture. -/
def declareSkip (l : Lead) : Stmt :=
  .line [
    .text ("static SKIP: SkipTable = SkipTable::new(" ++
      String.intercalate ", "
        [bracketed (l.literal.map Quoted.charLiteral),
          bracketed (l.shifts.map fun (c, n) => pairCode (Quoted.charLiteral c) (toString n)),
          toString l.ignoreCase, toString l.rightToLeft] ++ ", "),
    .global .culture, .text ");"]

def declareClasses (index : Nat) : List CharClass → List Stmt
  | [] => []
  | k :: rest => declareClass (.classTable index) k :: declareClasses (index + 1) rest

/-- A function without arguments besides the matcher, and its result. -/
def constantCode (name type value : String) : Stmt :=
  .block ("fn " ++ name ++ "(&self) -> " ++ type) [.code value]

end Source

namespace Program

/-! ### The head -/

/-- The names to bring into scope, in the order of their characters. -/
def importNames (culture skip charInClass : Bool) : List String :=
  (if culture then ["Culture"] else []) ++ ["Matcher", "Runner"] ++
    (if skip then ["SkipTable"] else []) ++ (if charInClass then ["char_in_class"] else [])

/-- The class of the first characters is declared unless there is only one. -/
def declareFirstChars (p : Program) : List Stmt :=
  match p.code.firstChars with
  | some f => if f.single?.isNone then [declareClass .firstChars f.members] else []
  | none => []

/-- The declarations that `body` needs. The literal search needs the culture for its table. -/
def headCode (p : Program) (runtimePath : String) (body : List Stmt) : List Stmt :=
  let skip := Stmt.anyMentions .skip body
  let culture := Stmt.anyMentions .culture body || skip
  let charInClass := Stmt.anyMentions .charInClass body
  [.code ("use " ++ runtimePath ++ "::\x7b" ++
      String.intercalate ", " (importNames culture skip charInClass) ++ "\x7d;"),
    .blank] ++
  (if culture then [.code ("const CULTURE: Culture = " ++ cultureCode p.code.culture ++ ";")]
    else []) ++
  declareClasses 0 p.code.classes.toList ++
  p.declareFirstChars ++
  (match skip, p.code.lead with
    | true, some l => [declareSkip l]
    | _, _ => []) ++
  [.code ("const CAPTURE_NUMBERS: &[u32] = " ++ bracketed (p.code.groupNumbers.map toString) ++ ";"),
    .code ("const GROUP_NAMES: &[&str] = " ++ bracketed (p.groupNames.map Quoted.stringLiteral) ++ ";"),
    .code ("const BACKTRACK: usize = " ++ toString p.operations.size ++ ";"),
    .blank]

/-! ### The matcher -/

def implCode (p : Program) (structName : String) (start attempt : List Stmt) : List Stmt :=
  [.code ("pub struct " ++ structName ++ ";"),
    .blank,
    .block ("impl Matcher for " ++ structName)
      [.code "#[allow(unused_variables)]",
        .block "fn find_first_char(&self, r: &mut Runner) -> bool" start,
        .blank,
        .code ("#[allow(unused_variables, unused_mut, unused_assignments, unreachable_code, " ++
          "unused_labels, clippy::all)]"),
        .block "fn go(&self, r: &mut Runner)" attempt,
        .blank,
        constantCode "track_count" "usize" (toString p.code.trackCount),
        .blank,
        constantCode "capture_numbers" "&'static [u32]" "CAPTURE_NUMBERS",
        .blank,
        constantCode "group_names" "&'static [&'static str]" "GROUP_NAMES",
        .blank,
        constantCode "right_to_left" "bool" (toString p.code.rightToLeft)]]

/-- All items of the source. -/
def itemsCode (p : Program) (config : SourceConfig) : List Stmt :=
  let start := p.startCode
  let attempt := (Routine.ofProgram p).code
  p.headCode config.getRuntimePath (start ++ attempt) ++
    p.implCode config.getStructName start attempt

/-- Writes the source of a matcher. -/
def compile (p : Program) (config : SourceConfig) : Except BufferFault Compiled := do
  let b ← Stmt.writeAll {} (p.itemsCode config)
  let b ← match config.getModule with
    | some name => b.wrapModule name ["#[allow(dead_code)]"]
    | none => .ok b
  .ok {
    source := ← b.finish
    resumptions := (Routine.ofProgram p).resumptions.toList
    labels := p.labels
    start := p.start.strategy }

end Program

end PatternCompiler
