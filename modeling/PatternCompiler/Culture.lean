import PatternCompiler.Unicode.Property
import Std.Data.HashMap

/-! Lower case, by culture.

A pattern that ignores case is lowered when it is read, and the text is lowered
by the same map when it is matched. In the Turkic culture the dotted and the
dotless i are different letters. -/
namespace PatternCompiler

inductive Culture where
  | invariant
  | turkic
deriving DecidableEq, Inhabited

namespace Culture

/-- The characters that have a lower-case form of their own, with that form. -/
def lowercasePairs : List (Char × Char) := Unicode.Table.pairs Unicode.CaseTable.lowercase

def lowercaseMap : @Std.HashMap Char Char instBEqOfDecidableEq instHashableChar :=
  .ofList lowercasePairs

def dottedCapitalI : Char := Char.ofNat 0x130

def dotlessI : Char := Char.ofNat 0x131

/-- The lower-case form of a character. -/
def toLower (k : Culture) (c : Char) : Char :=
  if Unicode.isAscii c then
    if k = .turkic ∧ c = 'I' then dotlessI else c.toLower
  else if k = .turkic ∧ c = dottedCapitalI then 'i'
  else lowercaseMap.getD c c

def lowerText (k : Culture) (cs : List Char) : List Char := cs.map k.toLower

/-- Every character that `toLower` may change; the culture only decides what it becomes. -/
def cased : List Char := lowercasePairs.map (·.1)

/-- The lower-case forms, where they differ, of the characters in the given ranges. -/
def lowerImage (k : Culture) (rs : List CharRange) : List CharRange :=
  (cased.filter fun c => k.toLower c != c && rs.any (·.contains c)).map fun c =>
    CharRange.single (k.toLower c)

def name : Culture → String
  | .invariant => "invariant"
  | .turkic => "turkic"

def ofName? : String → Option Culture
  | "invariant" => some .invariant
  | "turkic" => some .turkic
  | _ => none

end Culture

end PatternCompiler
