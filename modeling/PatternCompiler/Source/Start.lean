import PatternCompiler.Program.Start
import PatternCompiler.Source.Stmt

/-! The code that finds the next candidate, as a plan tells it. -/
namespace PatternCompiler

open Source

namespace Source

/-- Where the search ends. -/
def farEnd (rightToLeft : Bool) : String := if rightToLeft then "r.text_beg" else "r.text_end"

def moveTo (position : String) : Stmt := .code ("r.text_pos = " ++ position ++ ";")

/-! ### Anchors -/

/-- Moves to a position under a condition. -/
def clampCode (condition position : String) : Stmt :=
  .ifScope (.plain condition) [moveTo position]

/-- Gives up under a condition. -/
def rejectCode (condition stop : String) : Stmt :=
  .ifScope (.plain condition) [moveTo stop, .code "return false;"]

def anchorsForwardCode (s : AnchorSet) : List Stmt :=
  (if s.contains .finish then [clampCode "r.text_pos < r.text_end" "r.text_end"]
    else if s.contains .endZ then [clampCode "r.text_pos + 1 < r.text_end" "r.text_end - 1"]
    else []) ++
  (if s.contains .beginning then [rejectCode "r.text_pos > r.text_beg" "r.text_end"] else []) ++
  (if s.contains .start then [rejectCode "r.text_pos > r.text_start" "r.text_end"] else []) ++
  [.code "true"]

def anchorsBackwardCode (s : AnchorSet) : List Stmt :=
  (if s.contains .beginning then [clampCode "r.text_pos > r.text_beg" "r.text_beg"] else []) ++
  (if s.contains .finish then [rejectCode "r.text_pos < r.text_end" "r.text_beg"] else []) ++
  (if s.contains .endZ then
    [rejectCode
      ("r.text_pos + 1 < r.text_end " ++
        "|| (r.text_pos + 1 == r.text_end && r.text[r.text_pos] != '\\n')")
      "r.text_beg"]
    else []) ++
  (if s.contains .start then [rejectCode "r.text_pos < r.text_start" "r.text_beg"] else []) ++
  [.code "true"]

/-! ### Lines, literals and characters -/

/-- Goes on to the beginning of a line. -/
def lineStartCode : Stmt :=
  .ifScope (.plain "r.text_pos > r.text_beg && r.text[r.text_pos - 1] != '\\n'")
    [.block "match r.text[r.text_pos..r.text_end].iter().position(|&c| c == '\\n')"
      [.code "Some(i) => r.text_pos += i + 1,",
        .block "None =>" [moveTo "r.text_end", .code "return false;"]]]

def skipCode (rightToLeft : Bool) : List Stmt :=
  [.scope
    [.text "match ", .global .skip,
      .text ".find(&r.text, r.text_beg, r.text_pos, r.text_end)"]
    [.block "Some(p) =>" [moveTo "p", .code "true"],
      .block "None =>" [moveTo (farEnd rightToLeft), .code "false"]] ""]

/-- Looks for a character `ch` that meets a condition. -/
def scanCode (rightToLeft ignoreCase : Bool) (condition : Phrase) : List Stmt :=
  let char := if rightToLeft then "r.text[i - 1]" else "r.text[i]"
  let char : Phrase :=
    if ignoreCase then [.global .culture, .text (".to_lower(" ++ char ++ ")")] else .plain char
  [.declareMut "i" (.plain "r.text_pos"),
    .whileScope (.plain (if rightToLeft then "i > r.text_beg" else "i < r.text_end"))
      [.declare "ch" char, .ifScope condition [moveTo "i", .code "return true;"],
        .code (if rightToLeft then "i -= 1;" else "i += 1;")],
    moveTo (farEnd rightToLeft), .code "false"]

def strategyCode (rightToLeft : Bool) : StartStrategy → List Stmt
  | .anchors s => if rightToLeft then anchorsBackwardCode s else anchorsForwardCode s
  | .skip _ => skipCode rightToLeft
  | .firstChar c ignoreCase =>
    scanCode rightToLeft ignoreCase (.plain ("ch == " ++ Quoted.charLiteral c))
  | .firstClass _ ignoreCase =>
    scanCode rightToLeft ignoreCase
      [.global .charInClass, .text "(ch, ", .global .firstChars, .text ")"]
  | .anywhere => [.code "true"]

end Source

/-- The body of the search for a candidate. -/
def Program.startCode (p : Program) : List Stmt :=
  let plan := p.start
  (if plan.lineStart then [lineStartCode] else []) ++
    strategyCode p.code.rightToLeft plan.strategy

end PatternCompiler
