import PatternCompiler.CharClass.Basic
import PatternCompiler.Culture

/-! The parts of a class in brackets.

A bracket holds ranges that are written out, shorthands and categories, and may
be negated; a subtraction puts another bracket inside it. A `Level` gathers one
bracket without its subtraction, and `resolve` takes the innermost of a chain of
levels from the next one, and so on outwards. -/
namespace PatternCompiler

/-- What `\w`, `\d` and `\s` stand for. -/
inductive Shorthand where
  | word
  | digit
  | space
deriving DecidableEq

namespace Shorthand

/-- The shorthand of an escape letter, and whether the letter asks for the others. -/
def ofEscape? : Char → Option (Shorthand × Bool)
  | 'w' => some (word, false)
  | 'W' => some (word, true)
  | 'd' => some (digit, false)
  | 'D' => some (digit, true)
  | 's' => some (space, false)
  | 'S' => some (space, true)
  | _ => none

/-- The class of a shorthand; in ECMAScript mode only ASCII characters count. -/
def charClass (s : Shorthand) (ecma : Bool) : CharClass :=
  match s, ecma with
  | word, false => Unicode.wordClass
  | digit, false => Unicode.digitClass
  | space, false => Unicode.spaceClass
  | word, true => CharClass.ofRanges [⟨'0', '9'⟩, ⟨'A', 'Z'⟩, ⟨'_', '_'⟩, ⟨'a', 'z'⟩]
  | digit, true => CharClass.ofRanges [⟨'0', '9'⟩]
  | space, true => CharClass.ofRanges [⟨'\t', '\r'⟩, ⟨' ', ' '⟩]

end Shorthand

namespace CharClass

/-- One bracket, without its subtraction. -/
structure Level where
  /-- The ranges that are written out. -/
  ranges : List CharRange := []
  /-- The ranges of shorthands and categories. -/
  categories : List CharRange := []
  negated : Bool := false
deriving Inhabited

namespace Level

def negate (l : Level) : Level := { l with negated := true }

def addRange (l : Level) (r : CharRange) : Level := { l with ranges := l.ranges ++ [r] }

def addChar (l : Level) (c : Char) : Level := l.addRange (CharRange.single c)

/-- Adds the members of a class, or all others. -/
def addClass (l : Level) (k : CharClass) (others : Bool) : Level :=
  let k := if others then k.complement else k
  { l with categories := l.categories ++ k.ranges.toList }

def addShorthand (l : Level) (s : Shorthand) (others ecma : Bool) : Level :=
  l.addClass (s.charClass ecma) others

/-- Adds the lower-case forms of the ranges that are written out. -/
def addLowercase (l : Level) (culture : Culture) : Level :=
  { l with ranges := l.ranges ++ culture.lowerImage l.ranges }

def resolve (l : Level) : CharClass :=
  let k := ofRanges (l.ranges ++ l.categories)
  if l.negated then k.complement else k

end Level

/-- The class of a chain of levels, the outermost first: each is taken from the one around it. -/
def resolveChain : List Level → CharClass
  | [] => empty
  | [l] => l.resolve
  | l :: inner => l.resolve.difference (resolveChain inner)

end CharClass

end PatternCompiler
