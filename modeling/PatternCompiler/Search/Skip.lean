import PatternCompiler.Pattern.Lead
import PatternCompiler.Culture
import PatternCompiler.Search.Word

/-! The search for a literal.

A window of the literal's length is compared with it, and after a mismatch moves
on by the shift of the character at its far end. -/
namespace PatternCompiler.Lead

def fold (l : Lead) (culture : Culture) (c : Char) : Char :=
  if l.ignoreCase then culture.toLower c else c

/-- The characters are those of the literal, as far as both go. -/
def agrees (l : Lead) (culture : Culture) : List Char → List Char → Bool
  | a :: as, b :: bs => l.fold culture b == a && agrees l culture as bs
  | _, _ => true

/-- The literal stands in the text at `pos`, as far as the text goes. -/
def standsAt (l : Lead) (culture : Culture) (text : Array Char) (pos : Nat) : Except Fault Bool :=
  if text.size < pos then .error (.outsideText pos)
  else .ok (l.agrees culture l.literal (text.extract pos (pos + l.size)).toList)

/-- The shift of the character at `i`. -/
def shiftAt (l : Lead) (culture : Culture) (text : Array Char) (i : Nat) : Except Fault Nat :=
  match text[i]? with
  | some c => .ok (l.shift (l.fold culture c))
  | none => .error (.outsideText i)

/-- Looks for the literal from the window that begins at `i` on. -/
def findForward (l : Lead) (culture : Culture) (text : Array Char) (finish : Nat) :
    (rounds i : Nat) → Except Fault (Option Nat)
  | 0, _ => .error .outOfSteps
  | rounds + 1, i => do
    if (← Word.after i l.size) ≤ finish then
      if ← l.standsAt culture text i then .ok (some i)
      else
        let n ← l.shiftAt culture text (i + l.size - 1)
        findForward l culture text finish rounds (← Word.after i n)
    else .ok none

/-- Looks for the literal from the window that ends at `j` on, towards the start. -/
def findBackward (l : Lead) (culture : Culture) (text : Array Char) (beg : Nat) :
    (rounds j : Nat) → Except Fault (Option Nat)
  | 0, _ => .error .outOfSteps
  | rounds + 1, j => do
    if (← Word.after beg l.size) ≤ j then
      let first ← Word.before j l.size
      if ← l.standsAt culture text first then .ok (some j)
      else
        let n ← l.shiftAt culture text first
        findBackward l culture text beg rounds (← Word.before j n)
    else .ok none

/-- Where the literal next begins at or after `pos`; right to left, where it last ends at or
before `pos`. A window moves by at least one character, which bounds the rounds. -/
def find (l : Lead) (culture : Culture) (text : Array Char) (beg pos finish : Nat) :
    Except Fault (Option Nat) :=
  if l.literal.isEmpty then .ok (some pos)
  else if l.rightToLeft then l.findBackward culture text beg (pos + 1) pos
  else l.findForward culture text finish (finish - pos + 1) pos

end PatternCompiler.Lead
