import PatternCompiler.Source.Buffer

/-! Generated source as a tree.

Scopes are closed by construction, and the places where the source refers to an
item declared at its top are marked, so that exactly these items can be declared.
The jumps of the generated state machine and the tags that it leaves are
statements of their own. -/
namespace PatternCompiler.Source

/-- An item that is declared, or brought into scope, only if something refers to it. -/
inductive Global where
  | culture
  | charInClass
  | classTable (index : Nat)
  | firstChars
  | skip
deriving DecidableEq, Inhabited

namespace Global

def name : Global → String
  | culture => "CULTURE"
  | charInClass => "char_in_class"
  | classTable i => "CLASS_" ++ toString i
  | firstChars => "FIRST_CHARS"
  | skip => "SKIP"

end Global

inductive Token where
  | text (s : String)
  | global (g : Global)
deriving DecidableEq, Inhabited

/-- A piece of a line. -/
abbrev Phrase := List Token

namespace Token

def toText : Token → String
  | text s => s
  | global g => g.name

end Token

namespace Phrase

def plain (s : String) : Phrase := [.text s]

def toText (p : Phrase) : String := String.join (p.map Token.toText)

def mentions (p : Phrase) (g : Global) : Bool := p.contains (.global g)

/-- The phrases with a text between each two of them. -/
def join (between : String) : List Phrase → Phrase
  | [] => []
  | [p] => p
  | p :: rest => p ++ .text between :: join between rest

end Phrase

inductive Stmt where
  | line (p : Phrase)
  | blank
  | comment (s : String)
  /-- The next state is the one with this number. -/
  | setState (id : Nat)
  /-- The next state takes a tag from the track. -/
  | setBacktrack
  /-- Goes to the next state. -/
  | continueRun
  /-- Leaves a tag on the track. -/
  | pushTag (tag : Nat)
  /-- A header and what it holds; `tail` stands after the closing brace. -/
  | scope (header : Phrase) (body : List Stmt) (tail : String)
  /-- Two branches. -/
  | branch (condition : Phrase) (yes no : List Stmt)
deriving Inhabited

namespace Stmt

/-! ### Short forms -/

def code (s : String) : Stmt := line (.plain s)

def ifScope (condition : Phrase) (body : List Stmt) : Stmt := scope (.text "if " :: condition) body ""

def whileScope (condition : Phrase) (body : List Stmt) : Stmt :=
  scope (.text "while " :: condition) body ""

def block (header : String) (body : List Stmt) : Stmt := scope (.plain header) body ""

def declare (name : String) (value : Phrase) : Stmt :=
  line (.text ("let " ++ name ++ " = ") :: value ++ [.text ";"])

def declareMut (name : String) (value : Phrase) : Stmt :=
  line (.text ("let mut " ++ name ++ " = ") :: value ++ [.text ";"])

/-! ### Writing -/

mutual

def write (b : Buffer) : Stmt → Except BufferFault Buffer
  | line p => .ok (b.line p.toText)
  | blank => .ok b.blank
  | comment s => .ok (b.comment s)
  | setState id => .ok (b.stmt ("state = " ++ toString id))
  | setBacktrack => .ok (b.stmt "state = BACKTRACK")
  | continueRun => .ok (b.stmt "continue 'run")
  | pushTag tag => .ok (b.stmt ("r.track_push(" ++ toString tag ++ ")"))
  | scope header body tail => do
    let b ← writeAll (b.openScope header.toText) body
    b.closeWith tail
  | branch condition yes no => do
    let b ← writeAll (b.openIf condition.toText) yes
    let b ← writeAll (← b.openElse) no
    b.close

def writeAll (b : Buffer) : List Stmt → Except BufferFault Buffer
  | [] => .ok b
  | s :: rest => do writeAll (← write b s) rest

end

/-! ### References -/

mutual

/-- The statement refers to an item. -/
def mentions (g : Global) : Stmt → Bool
  | line p => p.mentions g
  | scope header body _ => header.mentions g || anyMentions g body
  | branch condition yes no => condition.mentions g || anyMentions g yes || anyMentions g no
  | _ => false

def anyMentions (g : Global) : List Stmt → Bool
  | [] => false
  | s :: rest => s.mentions g || anyMentions g rest

end

end Stmt

end PatternCompiler.Source
