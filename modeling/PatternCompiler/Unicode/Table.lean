import PatternCompiler.CharClass.Basic

/-! Character tables as text.

A table lists code points in hexadecimal: `61-7a` is a stretch, `b5` a single
one, and `101-135/2` is every second code point of the stretch. In a table of
mappings, `41-5a:61` sends the stretch that begins at 41 to the one that begins
at 61. Entries stand in ascending order, parted by blanks and line breaks. -/
namespace PatternCompiler.Unicode.Table

/-- Every `step`-th code point from `first` to `last`, and where `first` is mapped to. -/
structure Stretch where
  first : Nat
  last : Nat
  step : Nat
  target : Nat

/-- The pieces between occurrences of `sep`. -/
def fields (sep : Char) (cs : List Char) : List (List Char) :=
  cs.foldr (fun c pieces =>
    if c = sep then [] :: pieces
    else match pieces with
      | [] => [[c]]
      | p :: rest => (c :: p) :: rest) [[]]

def digit (c : Char) : Nat := if c.isDigit then c.toNat - '0'.toNat else c.toNat - 'a'.toNat + 10

def number (cs : List Char) : Nat := cs.foldl (fun n c => 16 * n + digit c) 0

def Stretch.read (entry : List Char) : Stretch :=
  let (ends, target) := match fields ':' entry with
    | [e, t] => (e, number t)
    | _ => (entry, 0)
  let (span, step) := match fields '/' ends with
    | [s, n] => (s, number n)
    | _ => (ends, 1)
  match fields '-' span with
  | [a, b] => ⟨number a, number b, step, target⟩
  | _ => ⟨number span, number span, step, target⟩

/-- The words of a text, however many blanks or line breaks part them. -/
def words (text : String) : List (List Char) :=
  (fields ' ' (text.toList.map fun c => if c = '\n' then ' ' else c)).filter (!·.isEmpty)

def read (text : String) : List Stretch := (words text).map Stretch.read

/-- The distances of the members of a stretch from its first one. -/
def Stretch.distances (s : Stretch) : List Nat :=
  (List.range ((s.last - s.first) / s.step + 1)).map (s.step * ·)

def Stretch.ranges (s : Stretch) : List CharRange :=
  if s.step = 1 then [⟨Char.ofNat s.first, Char.ofNat s.last⟩]
  else s.distances.map fun d => CharRange.single (Char.ofNat (s.first + d))

/-- The members of a stretch with what they are mapped to. -/
def Stretch.pairs (s : Stretch) : List (Char × Char) :=
  s.distances.map fun d => (Char.ofNat (s.first + d), Char.ofNat (s.target + d))

/-- The characters that a table lists. -/
def ranges (text : String) : List CharRange := (read text).flatMap Stretch.ranges

/-- The mapping that a table lists. -/
def pairs (text : String) : List (Char × Char) := (read text).flatMap Stretch.pairs

end PatternCompiler.Unicode.Table
