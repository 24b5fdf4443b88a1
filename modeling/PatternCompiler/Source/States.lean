import PatternCompiler.Source.Forward

/-! The match routine as a state machine.

A state begins at every operation that something jumps to: the first one, the
targets of jumps, and those at which a resumption goes on. The operations from
there up to the next such one are written into one arm. A further arm takes a tag
from the track and runs the code of the resumption it stands for. -/
namespace PatternCompiler

open Source

/-- A state and its code. -/
structure Arm where
  label : Nat
  body : List Stmt
deriving Inhabited

/-- A tag and the code of its resumption. -/
structure DispatchCase where
  tag : Nat
  body : List Stmt
deriving Inhabited

namespace Operation

/-- The operation and its modifiers, as they are shown to a reader. -/
def describe (o : Operation) : String :=
  toString o.id ++ ": " ++
    Quoted.comment (o.op.toText ++ (if o.rightToLeft then " rtl" else "") ++
      (if o.ignoreCase then " ci" else ""))

/-- The operation leads to the one with the given number, by a jump or when it is resumed. -/
def leadsTo (o : Operation) (id : Nat) : Bool :=
  o.op.target? == some id || (o.op.resumesAtNext && o.id + 1 == id)

end Operation

namespace Program

/-- A state begins at the operation with this number. -/
def isLabel (p : Program) (id : Nat) : Bool :=
  id == 0 || p.operations.any (·.leadsTo id)

/-- The operations at which a state begins. -/
def labels (p : Program) : List Nat := (List.range p.operations.size).filter p.isLabel

end Program

namespace Routine

/-! ### Arms -/

/-- Cuts the operations before each at which a state begins. -/
def segments (isLabel : Nat → Bool) : List Operation → List (List Operation)
  | [] => []
  | o :: rest => match segments isLabel rest with
    | [] => [[o]]
    | [] :: more => [o] :: more
    | (next :: seg) :: more =>
      if isLabel next.id then [o] :: (next :: seg) :: more else (o :: next :: seg) :: more

/-- The code of operations, each after a comment that names it. -/
def operationsCode (m : Routine) (ops : List Operation) : List Stmt :=
  ops.flatMap fun o => .comment o.describe :: m.forwardCode o

/-- How an arm ends whose last operation lets control through: with the next state, or with
the end of the match if there is none. -/
def armEnd (last : Operation) (next : Option Nat) : List Stmt :=
  if last.op.terminates then []
  else match next with
    | some id => [.setState id]
    | none => Source.stop

/-- The number of the operation that a list of segments begins with. -/
def firstLabel? (segs : List (List Operation)) : Option Nat :=
  (segs.head?.bind List.head?).map (·.id)

def armsOf (m : Routine) : List (List Operation) → List Arm
  | [] => []
  | [] :: rest => armsOf m rest
  | (o :: seg) :: rest =>
    { label := o.id
      body := m.operationsCode (o :: seg) ++
        armEnd ((o :: seg).getLast?.getD o) (firstLabel? rest) } :: armsOf m rest

def arms (m : Routine) : List Arm :=
  m.armsOf (segments m.program.isLabel m.operations.toList)

/-! ### Cases -/

def casesFrom (m : Routine) (tag : Nat) : List Resumption → List DispatchCase
  | [] => []
  | s :: rest =>
    { tag := tag
      body := match m.operations[s.id]? with
        | some o => m.resumeCode o s.secondary
        | none => [] } :: casesFrom m (tag + 1) rest

/-- The code of each tag. -/
def cases (m : Routine) : List DispatchCase := m.casesFrom 0 m.resumptions.toList

/-! ### The routine -/

def armCode (a : Arm) : Stmt := .block (toString a.label ++ " =>") a.body

def caseCode (c : DispatchCase) : Stmt := .block (toString c.tag ++ " =>") c.body

/-- The arm that takes a tag from the track. -/
def dispatchCode (m : Routine) : Stmt :=
  .scope (.plain "BACKTRACK => match r.track_pop()")
    (m.cases.map caseCode ++ [.code "_ => unreachable!(\"unknown backtrack tag\"),"]) ","

def loopCode (m : Routine) : Stmt :=
  .block "'run: loop"
    [.block "match state"
      (m.arms.map armCode ++ [m.dispatchCode, .code "_ => unreachable!(\"unknown state\"),"])]

/-- The body of the match routine. -/
def code (m : Routine) : List Stmt :=
  [.code "r.ensure_storage();", .declare "beg" (.plain "r.text_beg"),
    .declare "end" (.plain "r.text_end"), .declare "start" (.plain "r.text_start"),
    .declareMut "pos" (.plain "r.text_pos"), .code "let mut state: usize = 0;", m.loopCode]

end Routine

end PatternCompiler
