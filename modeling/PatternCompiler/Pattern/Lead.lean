import PatternCompiler.Pattern.Edge

/-! The literal that every match begins with.

A search for a long enough literal can skip positions: after a mismatch the
window moves until its far character meets an equal one of the literal. How far
that is, is the character's `shift`. -/
namespace PatternCompiler

/-- A literal at the beginning of every match, as it stands in the text. -/
structure Lead where
  literal : List Char
  /-- The literal is lowered, and so is the text it is compared with. -/
  ignoreCase : Bool
  rightToLeft : Bool
deriving DecidableEq, Inhabited

namespace Lead

/-- The greatest length that is kept. -/
def maxLength : Nat := 64

def size (l : Lead) : Nat := l.literal.length

/-! ### Shifts -/

/-- The characters of the literal in the order in which a moving window lets its far end meet
them: the first is met after one step, the second after two, and so on. -/
def approach (l : Lead) : List Char :=
  if l.rightToLeft then l.literal.drop 1 else l.literal.dropLast.reverse

/-- Of the entries for one character only the first. -/
def nearest : List (Char × Nat) → List (Char × Nat)
  | [] => []
  | p :: rest => p :: (nearest rest).filter (·.1 ≠ p.1)

/-- The shift of every character that the window can meet, by character. Any other one shifts
the window by its whole length. -/
def shifts (l : Lead) : List (Char × Nat) :=
  (nearest (l.approach.zipIdx 1)).mergeSort fun p q => p.1 ≤ q.1

/-- The entry of a character among those from `low` to before `high` of a table that is sorted
by character. The one in the middle tells which half to look into. -/
def bisect (table : Array (Char × Nat)) (c : Char) (low high : Nat) : Option Nat :=
  if low < high then
    let middle := low + (high - low) / 2
    match table[middle]? with
    | none => none
    | some (d, n) =>
      if d = c then some n
      else if d < c then bisect table c (middle + 1) high
      else bisect table c low middle
  else none
termination_by high - low

def shift (l : Lead) (c : Char) : Nat :=
  let table := l.shifts.toArray
  (bisect table c 0 table.size).getD l.size

/-! ### The literal of a pattern -/

/-- What a part says about the literal at the beginning of a match. -/
inductive Find where
  | found (l : Lead)
  /-- It takes no characters, so the next part decides. -/
  | pass
  /-- There is no literal. -/
  | blocked
deriving DecidableEq

namespace Find

/-- The first part that decides. -/
def gather : List Find → Find
  | [] => blocked
  | pass :: rest => gather rest
  | f :: _ => f

/-- Nothing after this part is looked at. -/
def alone : Find → Find
  | pass => blocked
  | f => f

def lead? : Find → Option Lead
  | found l => some l
  | _ => none

end Find

/-- The literal `cs` under the given options, cut to the characters matched first. -/
def ofText (o : Options) (cs : List Char) : Lead where
  literal := if o.rightToLeft then cs.drop (cs.length - maxLength) else cs.take maxLength
  ignoreCase := o.ignoreCase
  rightToLeft := o.rightToLeft

def findLeaf (o : Options) : Leaf → Find
  | .test (.one c) => .found (ofText o [c])
  | .span _ (.one c) min _ =>
    if min = 0 then .blocked else .found (ofText o (List.replicate (Nat.min min maxLength) c))
  | .multi cs => .found (ofText o cs)
  | .empty => .pass
  | .assertion a => if a.anchor?.isSome then .pass else .blocked
  | _ => .blocked

end Lead

namespace Node

mutual

def findLead : Node → Lead.Find
  | leaf o l => Lead.findLeaf o l
  | wrap _ .require _ => .pass
  | wrap _ .prevent _ => .pass
  | wrap _ (.capture _ _) n => n.findLead.alone
  | wrap _ .greedy n => n.findLead.alone
  | wrap _ (.loop _ _ _) _ => .blocked
  | many _ .concatenate ns => Lead.Find.gather (findLeads ns)
  | many _ _ _ => .blocked

def findLeads : List Node → List Lead.Find
  | [] => []
  | n :: ns => n.findLead :: findLeads ns

end

/-- The literal that every match begins with. -/
def lead? (n : Node) : Option Lead := n.findLead.lead?

end Node

end PatternCompiler
