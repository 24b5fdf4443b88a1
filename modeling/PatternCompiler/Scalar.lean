/-! Scalar values: the characters in their order.

The code points D800 to DFFF are no characters, so D7FF and E000 are neighbours:
`next?` and `prev?` step over the gap. -/
namespace PatternCompiler.Scalar

/-- The last scalar value. -/
def top : Char := Char.ofNat 0x10FFFF

/-- The scalar value after `c`, unless `c` is the last one. -/
def next? (c : Char) : Option Char :=
  if c.toNat = 0xD7FF then some (Char.ofNat 0xE000)
  else if c = top then none
  else some (Char.ofNat (c.toNat + 1))

/-- The scalar value before `c`, unless `c` is the first one. -/
def prev? (c : Char) : Option Char :=
  if c.toNat = 0xE000 then some (Char.ofNat 0xD7FF)
  else if c.toNat = 0 then none
  else some (Char.ofNat (c.toNat - 1))

/-- The character with the given code point, unless there is none. -/
def ofCode? (n : Nat) : Option Char :=
  if n.isValidChar then some (Char.ofNat n) else none

end PatternCompiler.Scalar
