import PatternCompiler.Text.Quoted

/-! What can be wrong with a pattern.

Reading a pattern stops at the first `Problem`: its cause, and the offset, in
characters, at which the reader gave up. A `SyntaxError` is a problem together
with the pattern it was found in. -/
namespace PatternCompiler

inductive SyntaxError.Cause where
  /-- A bracket is never closed. -/
  | unterminatedBracket
  /-- A comment in parentheses is never closed. -/
  | unterminatedComment
  /-- A closing parenthesis without an opening one. -/
  | tooManyParens
  /-- The pattern ends inside a group. -/
  | notEnoughParens
  /-- A quantifier right after another one. -/
  | nestedQuantifier (c : Char)
  /-- A quantifier with nothing before it. -/
  | quantifierAfterNothing
  /-- A range whose first character is after its last one. -/
  | reversedCharRange
  /-- A counted repetition whose least count is above its greatest. -/
  | reversedQuantifierRange
  | invalidGroupName
  /-- A group that asks for the number of the whole match. -/
  | captureNumberZero
  | undefinedBackref (number : Nat)
  | undefinedNameRef (name : String)
  | malformedNameRef
  /-- A numbered condition that is not closed. -/
  | malformedReference (number : Nat)
  /-- A condition on a group that does not exist. -/
  | undefinedReference (number : Nat)
  | incompleteCategory
  | malformedCategory
  | unknownCategory (name : String)
  /-- A class as the end of a range. -/
  | badClassInCharRange (c : Char)
  /-- Something after a subtraction. -/
  | subtractionMustBeLast
  | missingControl
  | unrecognizedControl
  | insufficientHex
  /-- An escape for a code point that is no character. -/
  | surrogateEscape
  /-- A number above the greatest that is allowed. -/
  | captureNumberOverflow
  | unrecognizedEscape (c : Char)
  | illegalEndEscape
  | illegalCondition
  | conditionCantCapture
  | conditionCantComment
  | tooManyAlternates
  | unrecognizedGrouping
deriving DecidableEq

/-- Where reading a pattern gave up, and why. -/
structure Problem where
  cause : SyntaxError.Cause
  offset : Nat
deriving DecidableEq

structure SyntaxError where
  pattern : String
  problem : Problem
deriving DecidableEq

namespace SyntaxError

def Cause.message : Cause → String
  | .unterminatedBracket => "unterminated [] set"
  | .unterminatedComment => "unterminated (?#...) comment"
  | .tooManyParens => "too many )'s"
  | .notEnoughParens => "not enough )'s"
  | .nestedQuantifier c => "nested quantifier '" ++ c.toString ++ "'"
  | .quantifierAfterNothing => "quantifier following nothing"
  | .reversedCharRange => "[x-y] range in reverse order"
  | .reversedQuantifierRange => "illegal \x7bx,y\x7d with x > y"
  | .invalidGroupName => "invalid group name: group names must begin with a word character"
  | .captureNumberZero => "capture number cannot be zero"
  | .undefinedBackref n => "reference to undefined group number " ++ toString n
  | .undefinedNameRef name => "reference to undefined group name " ++ name
  | .malformedNameRef => "malformed \\k<...> named back reference"
  | .malformedReference n => "(?(" ++ toString n ++ ") ) malformed"
  | .undefinedReference n => "(?(" ++ toString n ++ ") ) reference to undefined group"
  | .incompleteCategory => "incomplete \\p\x7bX\x7d character escape"
  | .malformedCategory => "malformed \\p\x7bX\x7d character escape"
  | .unknownCategory name => "unknown property '" ++ name ++ "'"
  | .badClassInCharRange c => "cannot include class \\" ++ c.toString ++ " in character range"
  | .subtractionMustBeLast => "a subtraction must be the last element in a character class"
  | .missingControl => "missing control character"
  | .unrecognizedControl => "unrecognized control character"
  | .insufficientHex => "insufficient hexadecimal digits"
  | .surrogateEscape => "escape names a lone surrogate code unit"
  | .captureNumberOverflow =>
    "capture group numbers must be less than or equal to Int32.MaxValue"
  | .unrecognizedEscape c => "unrecognized escape sequence \\" ++ c.toString
  | .illegalEndEscape => "illegal \\ at end of pattern"
  | .illegalCondition => "illegal conditional (?(...)) expression"
  | .conditionCantCapture => "alternation conditions do not capture and cannot be named"
  | .conditionCantComment => "alternation conditions cannot be comments"
  | .tooManyAlternates => "too many | in (?()|)"
  | .unrecognizedGrouping => "unrecognized grouping construct"

def cause (e : SyntaxError) : Cause := e.problem.cause

def offset (e : SyntaxError) : Nat := e.problem.offset

def message (e : SyntaxError) : String :=
  "invalid pattern " ++ Quoted.stringDiagnostic e.pattern ++ " at offset " ++
    toString e.offset ++ ": " ++ e.cause.message

end SyntaxError

end PatternCompiler
