import PatternCompiler.Scalar

/-! Character classes as sorted lists of ranges.

A class is kept as ranges in ascending order, the ends of each in order, so that
`contains` can look a character up by bisection. `ofRanges` brings any list of
ranges into that form and joins those that overlap or whose code points follow
one another.

Code points decide what is joined, and the surrogates are code points: a range
up to U+D7FF and one from U+E000 on stay apart, though no character lies between
them. `complement` names every stretch between two ranges by the characters at
its ends, and where these two ranges meet, its ends are U+D7FF and U+E000
themselves. -/
namespace PatternCompiler

/-- The characters from `lo` to `hi`. -/
structure CharRange where
  lo : Char
  hi : Char
deriving DecidableEq, Inhabited

namespace CharRange

/-- The range between two characters given in either order. -/
def between (a b : Char) : CharRange := if b < a then ⟨b, a⟩ else ⟨a, b⟩

def single (c : Char) : CharRange := ⟨c, c⟩

def contains (r : CharRange) (c : Char) : Bool := r.lo ≤ c && c ≤ r.hi

/-- The range `s`, which starts no earlier than `r`, overlaps `r` or starts at the code point
after it. -/
def meets (r s : CharRange) : Bool := s.lo.toNat ≤ r.hi.toNat + 1

/-- The smallest range with `r` and the range `s` that starts no earlier. -/
def extend (r s : CharRange) : CharRange := ⟨r.lo, if r.hi < s.hi then s.hi else r.hi⟩

/-- The number of code points from one end to the other. -/
def width (r : CharRange) : Nat := r.hi.toNat - r.lo.toNat + 1

end CharRange

structure CharClass where
  ranges : Array CharRange
deriving DecidableEq, Inhabited

namespace CharClass

/-! ### The one form -/

/-- Merges `r` with those of the following ranges, sorted by their lower ends, that it meets. -/
def mergeFrom (r : CharRange) : List CharRange → List CharRange
  | [] => [r]
  | s :: rest => if r.meets s then mergeFrom (r.extend s) rest else r :: mergeFrom s rest

def merge : List CharRange → List CharRange
  | [] => []
  | r :: rest => mergeFrom r rest

/-- The class of the characters between the ends of each range, taken in either order. -/
def ofRanges (rs : List CharRange) : CharClass :=
  ⟨(merge ((rs.map fun r => CharRange.between r.lo r.hi).mergeSort fun r s => r.lo ≤ s.lo)).toArray⟩

/-- The class of every character. -/
def any : CharClass := ⟨#[⟨Char.ofNat 0, Scalar.top⟩]⟩

def empty : CharClass := ⟨#[]⟩

def isEmpty (k : CharClass) : Bool := k.ranges.isEmpty

/-! ### Membership -/

/-- Looks for `c` among the ranges at the indices from `lo` up to `hi`. Each round halves
the stretch, so as many rounds as it has ranges are enough. -/
def bisect (ranges : Array CharRange) (c : Char) : (rounds lo hi : Nat) → Bool
  | 0, _, _ => false
  | rounds + 1, lo, hi =>
    if lo < hi then
      let mid := (lo + hi) / 2
      match ranges[mid]? with
      | none => false
      | some r =>
        if r.hi < c then bisect ranges c rounds (mid + 1) hi
        else if c < r.lo then bisect ranges c rounds lo mid
        else true
    else false

def contains (k : CharClass) (c : Char) : Bool := bisect k.ranges c k.ranges.size 0 k.ranges.size

/-- The only member, if there is exactly one. -/
def singleton? (k : CharClass) : Option Char :=
  match k.ranges.toList with
  | [r] => if r.lo = r.hi then some r.lo else none
  | _ => none

/-- The only character that is not a member, if there is exactly one. -/
def missing? (k : CharClass) : Option Char :=
  match k.ranges.toList with
  | [r] =>
    if r.lo.toNat = 0 ∧ r.hi ≠ Scalar.top then
      if Scalar.next? r.hi = some Scalar.top then some Scalar.top else none
    else if r.hi = Scalar.top ∧ r.lo.toNat ≠ 0 then
      if (Scalar.prev? r.lo).map Char.toNat = some 0 then Scalar.prev? r.lo else none
    else none
  | [r, s] =>
    if r.lo.toNat = 0 ∧ s.hi = Scalar.top then
      if Scalar.next? r.hi = Scalar.prev? s.lo then Scalar.next? r.hi else none
    else none
  | _ => none

/-- The number of code points the ranges span. -/
def width (k : CharClass) : Nat := k.ranges.foldl (fun n r => n + r.width) 0

/-! ### Set operations -/

def union (k l : CharClass) : CharClass := ofRanges (k.ranges.toList ++ l.ranges.toList)

/-- What is left out before a range. -/
def gapBefore (r : CharRange) : List CharRange :=
  match Scalar.prev? r.lo with
  | none => []
  | some b => [⟨Char.ofNat 0, b⟩]

/-- What is left out between a range and a later one: from the character after the one to the
character before the other. -/
def gapBetween (r s : CharRange) : List CharRange :=
  match Scalar.next? r.hi, Scalar.prev? s.lo with
  | some a, some b => [CharRange.between a b]
  | _, _ => []

/-- What is left out after a range. -/
def gapAfter (r : CharRange) : List CharRange :=
  match Scalar.next? r.hi with
  | none => []
  | some a => [⟨a, Scalar.top⟩]

/-- What is left out after `r`, among the ranges that follow it. -/
def gapsFrom (r : CharRange) : List CharRange → List CharRange
  | [] => gapAfter r
  | s :: rest => gapBetween r s ++ gapsFrom s rest

def complement (k : CharClass) : CharClass :=
  match k.ranges.toList with
  | [] => any
  | r :: rest => ⟨(gapBefore r ++ gapsFrom r rest).toArray⟩

/-- The stretch of a range before the range `s`. -/
def headBefore (r s : CharRange) : List CharRange :=
  match Scalar.prev? s.lo with
  | none => []
  | some b => if r.lo < s.lo then [⟨r.lo, b⟩] else []

/-- Cuts the given ranges, in ascending order, out of `r`. -/
def cut (r : CharRange) : List CharRange → List CharRange
  | [] => [r]
  | s :: rest =>
    if s.hi < r.lo then cut r rest
    else if r.hi < s.lo then [r]
    else headBefore r s ++
      match Scalar.next? s.hi with
      | none => []
      | some a => if s.hi < r.hi then cut ⟨a, r.hi⟩ rest else []

/-- The members of `k` that are not in `l`. -/
def difference (k l : CharClass) : CharClass :=
  ⟨(k.ranges.toList.flatMap fun r => cut r l.ranges.toList).toArray⟩

/-! ### Text -/

def hex (c : Char) : String := String.ofList (Nat.toDigits 16 c.toNat)

/-- The ranges in hexadecimal, separated by blanks. -/
def toText (k : CharClass) : String :=
  String.intercalate " " (k.ranges.toList.map fun r =>
    if r.lo = r.hi then hex r.lo else hex r.lo ++ "-" ++ hex r.hi)

end CharClass

end PatternCompiler
