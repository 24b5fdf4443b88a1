import PatternCompiler.Unicode.CaseTable
import PatternCompiler.Unicode.Category

/-! Properties of single characters.

The ASCII characters are decided without a table; the classes behind the others
are built once. -/
namespace PatternCompiler.Unicode

/-- Letters, marks, digits, numerals that look like letters, connecting punctuation, the
two joiners and the circled and squared letters. -/
def wordClass : CharClass :=
  CharClass.ofRanges
    ((Category.letters ++ Category.marks ++ [Category.nd, Category.nl, Category.pc]).flatMap Category.ranges ++
      Table.ranges "200c-200d 24b6-24e9 1f130-1f149 1f150-1f169 1f170-1f189")

def digitClass : CharClass := Category.classOf [.nd]

def spaceClass : CharClass :=
  CharClass.ofRanges
    (Table.ranges "9-d 20 85 a0 1680 2000-200a 2028-2029 202f 205f 3000")

def isAscii (c : Char) : Bool := c.toNat < 0x80

/-- A character that can stand in a group name, and that `\b` takes for part of a word. -/
def isWord (c : Char) : Bool :=
  if isAscii c then c.isAlphanum || c == '_' else wordClass.contains c

/-- The word characters of ECMAScript: ASCII, with the dotted capital I and the dotless i. -/
def isEcmaWord (c : Char) : Bool :=
  (isAscii c && c.isAlphanum) || c == '_' || c.toNat == 0x130 || c.toNat == 0x131

def alphanumericClass : CharClass :=
  CharClass.ofRanges
    ((Category.letters ++ Category.numbers).flatMap Category.ranges ++
      Table.ranges CaseTable.alphanumericExtra)

def isAlphanumeric (c : Char) : Bool :=
  if isAscii c then c.isAlphanum else alphanumericClass.contains c

def isControl (c : Char) : Bool := c.toNat < 0x20 || (0x7F ≤ c.toNat && c.toNat ≤ 0x9F)

/-- Characters that do not show on their own: control and format characters, unassigned
and private ones, separators, and marks that combine with what is before them. -/
def invisibleClass : CharClass :=
  CharClass.ofRanges
    (([.cc, .cf, .cn, .co, .zl, .zp, .zs, .mn, .me] : List Category).flatMap Category.ranges)

/-- The blank shows; of the other invisible characters none does. -/
def isInvisible (c : Char) : Bool :=
  if isAscii c then isControl c else invisibleClass.contains c

end PatternCompiler.Unicode
