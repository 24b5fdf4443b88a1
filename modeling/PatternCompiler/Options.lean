/-! The options of a pattern.

Eight switches say how a pattern is read and matched. Five of them can be
changed inside a pattern by a flag letter (`ofInlineFlag?`); the direction, the
ECMAScript dialect and culture invariance hold for a whole pattern. Switches
combine as sets: `union`, `difference`, `contains`. A set also has a number, one
bit per switch (`bits`, `ofBits`), and a spelling, one letter per switch
(`letters`).

`conflict?` names the one forbidden combination: ECMAScript mode goes only with
case insensitivity, multiline mode and culture invariance. -/
namespace PatternCompiler

structure Options where
  /-- Literals, classes and references match without regard to case. -/
  ignoreCase : Bool := false
  /-- `^` and `$` match at line ends as well. -/
  multiline : Bool := false
  /-- Unnamed groups do not capture. -/
  explicitCapture : Bool := false
  /-- `.` matches a line break as well. -/
  singleline : Bool := false
  /-- Blanks in the pattern are skipped and `#` starts a comment. -/
  ignoreWhitespace : Bool := false
  /-- The search goes from the end of the text towards its start. -/
  rightToLeft : Bool := false
  /-- Classes, escapes and references follow ECMAScript. -/
  ecmaScript : Bool := false
  /-- Case folding does not depend on the culture. -/
  cultureInvariant : Bool := false
deriving DecidableEq, Inhabited

namespace Options

def none : Options := {}

/-- The switches in the order of their bits. -/
def switches (o : Options) : List Bool :=
  [o.ignoreCase, o.multiline, o.explicitCapture, o.singleline, o.ignoreWhitespace,
    o.rightToLeft, o.ecmaScript, o.cultureInvariant]

/-- Switch by switch. -/
def zipWith (f : Bool → Bool → Bool) (a b : Options) : Options where
  ignoreCase := f a.ignoreCase b.ignoreCase
  multiline := f a.multiline b.multiline
  explicitCapture := f a.explicitCapture b.explicitCapture
  singleline := f a.singleline b.singleline
  ignoreWhitespace := f a.ignoreWhitespace b.ignoreWhitespace
  rightToLeft := f a.rightToLeft b.rightToLeft
  ecmaScript := f a.ecmaScript b.ecmaScript
  cultureInvariant := f a.cultureInvariant b.cultureInvariant

def union (a b : Options) : Options := zipWith (fun x y => x || y) a b

def difference (a b : Options) : Options := zipWith (fun x y => x && !y) a b

/-- Every switch of `b` is on in `a`. -/
def contains (a b : Options) : Bool := b.difference a == none

def isEmpty (o : Options) : Bool := o == none

/-- The switches of `b` turned on or off in `a`. -/
def set (a b : Options) (on : Bool) : Options :=
  if on then a.union b else a.difference b

/-! ### Numbers and letters -/

/-- One bit per switch; higher bits are dropped. -/
def ofBits (n : Nat) : Options where
  ignoreCase := n.testBit 0
  multiline := n.testBit 1
  explicitCapture := n.testBit 2
  singleline := n.testBit 3
  ignoreWhitespace := n.testBit 4
  rightToLeft := n.testBit 5
  ecmaScript := n.testBit 6
  cultureInvariant := n.testBit 7

def bits (o : Options) : Nat :=
  o.switches.foldr (fun on n => on.toNat + 2 * n) 0

/-- The letters of the switches that are on. -/
def letters (o : Options) : String :=
  String.ofList ((o.switches.zip "imnsxrec".toList).filterMap fun (on, letter) =>
    if on then some letter else Option.none)

/-- Reads the letters back; a character that is no letter of a switch counts for nothing. -/
def ofLetters (s : String) : Options :=
  let on (c : Char) : Bool := s.toList.contains c
  { ignoreCase := on 'i', multiline := on 'm', explicitCapture := on 'n', singleline := on 's',
    ignoreWhitespace := on 'x', rightToLeft := on 'r', ecmaScript := on 'e',
    cultureInvariant := on 'c' }

/-- The switch that a flag letter inside a pattern stands for. -/
def ofInlineFlag? : Char → Option Options
  | 'i' | 'I' => some { ignoreCase := true }
  | 'm' | 'M' => some { multiline := true }
  | 'n' | 'N' => some { explicitCapture := true }
  | 's' | 'S' => some { singleline := true }
  | 'x' | 'X' => some { ignoreWhitespace := true }
  | _ => Option.none

/-! ### Conflicts -/

/-- The switches that ECMAScript mode goes with, itself included. -/
def ecmaCompatible : Options :=
  { ignoreCase := true, multiline := true, ecmaScript := true, cultureInvariant := true }

/-- A combination that is not allowed. -/
structure Conflict where
  options : Options
deriving DecidableEq

def Conflict.message (c : Conflict) : String :=
  "ECMAScript mode can only be combined with ignore-case, multiline and culture-invariant " ++
    "options, but got Options(" ++ c.options.letters ++ ")"

def conflict? (o : Options) : Option Conflict :=
  if o.ecmaScript && !(o.difference ecmaCompatible).isEmpty then some ⟨o⟩ else Option.none

end Options

end PatternCompiler
