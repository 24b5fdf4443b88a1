import PatternCompiler.Program.Lower
import PatternCompiler.Source.Compile

/-! From a pattern to the source of its matcher, in one step.

The options are checked before the pattern is read, so a forbidden combination
is told even if the pattern is wrong as well. -/
namespace PatternCompiler

/-- How a pattern is read. What is not set has a default. -/
structure PatternConfig where
  options : Option Options := none
  culture : Option Culture := none
deriving DecidableEq, Inhabited

namespace PatternConfig

/-- What is set in `b`, and for the rest what is set in `a`. -/
def overwrite (a b : PatternConfig) : PatternConfig where
  options := b.options.or a.options
  culture := b.culture.or a.culture

def getOptions (c : PatternConfig) : Options := c.options.getD .none

def getCulture (c : PatternConfig) : Culture := c.culture.getD .invariant

end PatternConfig

structure Builder where
  pattern : PatternConfig := {}
  source : SourceConfig := {}
deriving Inhabited

/-- Why there is no matcher. -/
inductive BuildError where
  | options (c : Options.Conflict)
  | pattern (e : SyntaxError)
  /-- The tree of the pattern has no program. -/
  | program (e : ProgramError)
  | source (e : BufferFault)

namespace BuildError

/-- What the reader is told; the last two kinds are no fault of the pattern. -/
def message? : BuildError → Option String
  | options c => some c.message
  | pattern e => some e.message
  | program _ => none
  | source _ => none

end BuildError

/-- The source of a matcher, with the pattern and the program it came from. -/
structure Emitted where
  pattern : String
  program : Program
  compiled : Compiled
deriving Inhabited

namespace Emitted

/-- The source after a comment that names the pattern. -/
def document (e : Emitted) : String :=
  "// Generated by regex-emit. Do not edit.\n// pattern: " ++ Quoted.comment e.pattern ++ "\n\n" ++
    e.compiled.source

end Emitted

namespace Builder

/-- Changes how patterns are read. -/
def reading (b : Builder) (c : PatternConfig) : Builder :=
  { b with pattern := b.pattern.overwrite c }

/-- Changes how the source is named and placed. -/
def writing (b : Builder) (c : SourceConfig) : Builder := { b with source := b.source.overwrite c }

def build (b : Builder) (pattern : String) : Except BuildError Emitted := do
  let options := b.pattern.getOptions
  if let some c := options.conflict? then .error (.options c)
  let p ← (Pattern.parse pattern options b.pattern.getCulture).mapError .pattern
  let program ← p.program.mapError .program
  let compiled ← (program.compile b.source).mapError .source
  .ok ⟨pattern, program, compiled⟩

end Builder

/-- The source of a matcher for a pattern, with its comment and the default names. -/
def emit (pattern : String) (o : Options) : Except BuildError String :=
  Emitted.document <$> (({} : Builder).reading { options := some o }).build pattern

end PatternCompiler
