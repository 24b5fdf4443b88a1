/-! The groups that a pattern declares.

Every group has a number and the offset at which it was first declared; number 0
is the whole match. Numbers are noted as they are met. Names are noted too, and
get their numbers only once the whole pattern has been seen (`assignNames`): each
takes the least number that is still free, in the order of their first
appearance. -/
namespace PatternCompiler

structure GroupTable where
  /-- Number and offset of every group, by number. -/
  groups : List (Nat × Nat) := []
  /-- Every name with its number, by number. -/
  names : List (String × Nat) := []
  /-- Names that have no number yet, with their offsets, in the order of appearance. -/
  pending : List (String × Nat) := []
deriving DecidableEq, Inhabited

namespace GroupTable

def contains (t : GroupTable) (number : Nat) : Bool := t.groups.any (·.1 == number)

/-- Where the group with this number was first declared. -/
def offset? (t : GroupTable) (number : Nat) : Option Nat := t.groups.lookup number

/-- Puts an entry before the first one with a greater number. -/
def place (number offset : Nat) : List (Nat × Nat) → List (Nat × Nat)
  | [] => [(number, offset)]
  | g :: rest => if number < g.1 then (number, offset) :: g :: rest else g :: place number offset rest

/-- Notes that a number is declared at an offset; only the first time counts. -/
def noteNumber (t : GroupTable) (number offset : Nat) : GroupTable :=
  if t.contains number then t else { t with groups := place number offset t.groups }

/-- Notes that a name is declared at an offset; only the first time counts. -/
def noteName (t : GroupTable) (name : String) (offset : Nat) : GroupTable :=
  if t.pending.any (·.1 == name) then t
  else { t with pending := t.pending ++ [(name, offset)] }

/-- The least number from `next` on that no group has, looked for in as many rounds. -/
def freeFrom (t : GroupTable) : (rounds next : Nat) → Nat
  | 0, next => next
  | rounds + 1, next => if t.contains next then freeFrom t rounds (next + 1) else next

/-- The least number from `next` on that no group has: past as many numbers as there are
groups, one is free. -/
def free (t : GroupTable) (next : Nat) : Nat := t.freeFrom t.groups.length next

/-- Gives each of the names the least free number above those given before. -/
def assignFrom (t : GroupTable) (next : Nat) : List (String × Nat) → GroupTable
  | [] => t
  | (name, offset) :: rest =>
    let number := t.free next
    assignFrom ({ t with names := t.names ++ [(name, number)] }.noteNumber number offset)
      (number + 1) rest

/-- Numbers the names that are pending, from `next` on. -/
def assignNames (t : GroupTable) (next : Nat) : GroupTable :=
  assignFrom { t with pending := [] } next t.pending

def numbers (t : GroupTable) : List Nat := t.groups.map (·.1)

/-- The number of groups, the whole match included. -/
def size (t : GroupTable) : Nat := t.groups.length

/-- One more than the greatest number. -/
def top (t : GroupTable) : Nat := t.numbers.foldl (fun n number => max n (number + 1)) 0

/-- The numbers have no gap. -/
def isDense (t : GroupTable) : Bool := t.top == t.size

def numberOf? (t : GroupTable) (name : String) : Option Nat := t.names.lookup name

def nameOf? (t : GroupTable) (number : Nat) : Option String :=
  (t.names.find? (·.2 == number)).map (·.1)

/-- What each group is called: its name, or else its number. -/
def groupNames (t : GroupTable) : List String :=
  t.numbers.map fun n => (t.nameOf? n).getD (toString n)

end GroupTable

end PatternCompiler
