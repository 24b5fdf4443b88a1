import PatternCompiler.Search.Fault

/-! Stack entries and positions.

The stacks of a search and the histories of its groups hold words: integers of 64
bits with a sign. A position is one of the same size without a sign, so the two
are converted modulo 2^64: a position in any text is a word of the same value, and
a negative word is a position beyond every text. Positions themselves are added
without wrapping: past the last one there is none (`after`), and neither is there one before
the first (`before`). -/
namespace PatternCompiler.Word

/-- The number of words. -/
def modulus : Nat := 18446744073709551616

/-- A position as a word. -/
def ofPosition (n : Nat) : Int := (n : Int).bmod modulus

/-- A word read as a position. -/
def position (v : Int) : Nat := (v % modulus).toNat

/-- The position `n` characters after `pos`. -/
def after (pos n : Nat) : Except Fault Nat :=
  if pos + n < modulus then .ok (pos + n) else .error (.outsideText (pos + n))

/-- The position `n` characters before `pos`. -/
def before (pos n : Nat) : Except Fault Nat :=
  if n ≤ pos then .ok (pos - n) else .error (.outsideText pos)

theorem position_natCast {n : Nat} (h : n < modulus) : position n = n := by
  unfold position
  rw [Int.emod_eq_of_lt (by omega) (by omega)]
  exact Int.toNat_natCast n

theorem position_ofPosition {n : Nat} (h : n < modulus) : position (ofPosition n) = n := by
  unfold position ofPosition
  rw [Int.bmod_emod, Int.emod_eq_of_lt (by omega) (by omega)]
  exact Int.toNat_natCast n

theorem ofPosition_of_lt {n : Nat} (h : 2 * n < modulus) : ofPosition n = n := by
  unfold ofPosition
  unfold modulus at *
  rw [Int.bmod_def]
  omega

theorem after_of_lt {pos n : Nat} (h : pos + n < modulus) : after pos n = .ok (pos + n) :=
  if_pos h

theorem before_of_le {pos n : Nat} (h : n ≤ pos) : before pos n = .ok (pos - n) := if_pos h

end PatternCompiler.Word
