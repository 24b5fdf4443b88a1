/-! How a search goes wrong.

A search that is asked for something that does not exist breaks off, and a
`Fault` says why. It is not a failure to match: after that the search goes on. -/
namespace PatternCompiler

/-- Why a search breaks off. -/
inductive Fault where
  /-- There is nothing to return to. -/
  | trackUnderflow
  /-- There is no mark. -/
  | markUnderflow
  /-- There is no capture to undo. -/
  | crawlUnderflow
  /-- A slot that does not exist, or that has captured nothing. -/
  | noCapture (slot : Nat)
  /-- A position outside the text. -/
  | outsideText (pos : Nat)
  | unknownTag (tag : Int)
  /-- More storage than there can be. -/
  | noStorage
  /-- A number of rounds was not enough. -/
  | outOfSteps
deriving DecidableEq

end PatternCompiler
