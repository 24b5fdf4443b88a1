import PatternCompiler.Unicode.CategoryTable
import PatternCompiler.Unicode.Table

/-! General categories and the names that a pattern may give them.

`Category.ofName?` reads the name in `\p{name}`: a category's two letters, or
one letter for a whole family. The currency symbols and the surrogates have no
name of their own there, though their families include them. -/
namespace PatternCompiler.Unicode

inductive Category where
  | cc | cf | cn | co | cs
  | ll | lm | lo | lt | lu
  | mc | me | mn
  | nd | nl | no
  | pc | pd | pe | pf | pi | po | ps
  | sc | sk | sm | so
  | zl | zp | zs
deriving DecidableEq

namespace Category

/-- The categories that have a table: all but the unassigned characters and the surrogates. -/
def assigned : List Category :=
  [cc, cf, co, ll, lm, lo, lt, lu, mc, me, mn, nd, nl, no, pc, pd, pe, pf, pi, po, ps, sc, sk, sm,
    so, zl, zp, zs]

def table : Category → String
  | cc => CategoryTable.control
  | cf => CategoryTable.format
  | cn => ""
  | co => CategoryTable.privateUse
  | cs => ""
  | ll => CategoryTable.lowercaseLetter
  | lm => CategoryTable.modifierLetter
  | lo => CategoryTable.otherLetter
  | lt => CategoryTable.titlecaseLetter
  | lu => CategoryTable.uppercaseLetter
  | mc => CategoryTable.spacingMark
  | me => CategoryTable.enclosingMark
  | mn => CategoryTable.nonspacingMark
  | nd => CategoryTable.decimalNumber
  | nl => CategoryTable.letterNumber
  | no => CategoryTable.otherNumber
  | pc => CategoryTable.connectorPunctuation
  | pd => CategoryTable.dashPunctuation
  | pe => CategoryTable.closePunctuation
  | pf => CategoryTable.finalPunctuation
  | pi => CategoryTable.initialPunctuation
  | po => CategoryTable.otherPunctuation
  | ps => CategoryTable.openPunctuation
  | sc => CategoryTable.currencySymbol
  | sk => CategoryTable.modifierSymbol
  | sm => CategoryTable.mathSymbol
  | so => CategoryTable.otherSymbol
  | zl => CategoryTable.lineSeparator
  | zp => CategoryTable.paragraphSeparator
  | zs => CategoryTable.spaceSeparator

/-- The code points D800 to DFFF, which are no characters, with their neighbours: an
unassigned character before them and a private one after them. -/
def surrogates : CharRange := ⟨Char.ofNat 0xD7FF, Char.ofNat 0xE000⟩

/-- The characters of one category. The unassigned ones are those in no table. No character is
a surrogate; their range joins the categories on either side of them. -/
def ranges : Category → List CharRange
  | cn =>
    (CharClass.ofRanges (assigned.flatMap fun k => Table.ranges k.table)).complement.ranges.toList
  | cs => [surrogates]
  | k => Table.ranges k.table

/-- The class of the characters of several categories. -/
def classOf (ks : List Category) : CharClass := CharClass.ofRanges (ks.flatMap ranges)

def letters : List Category := [ll, lm, lo, lt, lu]

def marks : List Category := [mc, me, mn]

def numbers : List Category := [nd, nl, no]

/-- The categories that a name stands for. -/
def ofName? : String → Option (List Category)
  | "C" => some [cc, cf, cn, co, cs]
  | "Cc" => some [cc]
  | "Cf" => some [cf]
  | "Cn" => some [cn]
  | "Co" => some [co]
  | "L" => some letters
  | "Ll" => some [ll]
  | "Lm" => some [lm]
  | "Lo" => some [lo]
  | "Lt" => some [lt]
  | "Lu" => some [lu]
  | "M" => some marks
  | "Mc" => some [mc]
  | "Me" => some [me]
  | "Mn" => some [mn]
  | "N" => some numbers
  | "Nd" => some [nd]
  | "Nl" => some [nl]
  | "No" => some [no]
  | "P" => some [pc, pd, pe, pf, pi, po, ps]
  | "Pc" => some [pc]
  | "Pd" => some [pd]
  | "Pe" => some [pe]
  | "Pf" => some [pf]
  | "Pi" => some [pi]
  | "Po" => some [po]
  | "Ps" => some [ps]
  | "S" => some [sc, sk, sm, so]
  | "Sk" => some [sk]
  | "Sm" => some [sm]
  | "So" => some [so]
  | "Z" => some [zl, zp, zs]
  | "Zl" => some [zl]
  | "Zp" => some [zp]
  | "Zs" => some [zs]
  | _ => none

/-- The class a name stands for. Without regard to case, each of the three cased
categories stands for all of them. -/
def named? (name : String) (ignoreCase : Bool) : Option CharClass :=
  (ofName? name).map fun ks =>
    if ignoreCase && (ks == [ll] || ks == [lt] || ks == [lu]) then classOf [ll, lt, lu]
    else classOf ks

end Category

end PatternCompiler.Unicode
