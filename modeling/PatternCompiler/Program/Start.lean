import PatternCompiler.Program.Code

/-! Where a match can start.

`Program.start` chooses the fastest way of finding the next candidate that is
sure to miss none: anchors that pin the position, then a search for the literal
at the beginning, then one for the first character. -/
namespace PatternCompiler

/-- How the next candidate is found. -/
inductive StartStrategy where
  /-- The anchors leave at most one candidate. -/
  | anchors (set : AnchorSet)
  /-- The literal at the beginning is searched for. -/
  | skip (lead : Lead)
  /-- The only possible first character is searched for. -/
  | firstChar (c : Char) (ignoreCase : Bool)
  /-- A possible first character is searched for. -/
  | firstClass (members : CharClass) (ignoreCase : Bool)
  /-- Every position is a candidate. -/
  | anywhere
deriving DecidableEq, Inhabited

structure StartPlan where
  /-- Only beginnings of lines are candidates. -/
  lineStart : Bool
  strategy : StartStrategy
deriving DecidableEq, Inhabited

namespace Program

def startStrategy (p : Program) : StartStrategy :=
  match p.code.lead, p.code.firstChars with
  | some l, _ => .skip l
  | none, some f => match f.single? with
    | some c => .firstChar c f.ignoreCase
    | none => .firstClass f.members f.ignoreCase
  | none, none => .anywhere

def start (p : Program) : StartPlan :=
  let positional := p.code.leading.positional
  if positional.isEmpty then
    ⟨!p.code.rightToLeft && p.code.leading.contains .bol, p.startStrategy⟩
  else ⟨false, .anchors positional⟩

end Program

end PatternCompiler
