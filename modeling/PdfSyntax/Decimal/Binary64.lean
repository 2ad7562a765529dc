/-!
# Binary floating point in 64 bits

A `Binary64` is a pattern of 64 bits: the sign, and below it the rank. Ranks number the magnitudes in
increasing order from zero over the finite ones to infinity, and the patterns above infinity hold no
number. Every finite magnitude is a whole number of units, a unit being `2 ^ -1074`, so that all
arithmetic here is on natural numbers. `rankOfRatio` rounds a ratio to the nearest magnitude.
-/

set_option autoImplicit false

namespace PdfSyntax

structure Binary64 where
  bits : UInt64
deriving DecidableEq, Repr

namespace Binary64

/-- How many units make one. -/
def unitsPerOne : Nat := Nat.pow 2 1074

/-- How many magnitudes share one spacing. -/
def ranksPerSpacing : Nat := 0x10000000000000

def infinityRank : Nat := 2047 * ranksPerSpacing

def signPlace : Nat := 0x8000000000000000

def ofRank (negative : Bool) (rank : Nat) : Binary64 :=
  ⟨UInt64.ofNat (if negative then rank + signPlace else rank)⟩

section Parts
variable (x : Binary64)

def isNegative : Bool := decide (signPlace ≤ x.bits.toNat)

def rank : Nat := x.bits.toNat % signPlace

def isFinite : Bool := decide (x.rank < infinityRank)

def isNaN : Bool := decide (infinityRank < x.rank)

def isZero : Bool := x.rank == 0

end Parts

/-- The binary logarithm of the spacing, in units, of the magnitudes around a rank. -/
def spacing (rank : Nat) : Nat :=
  rank / ranksPerSpacing - 1

/-- How many spacings a magnitude is from zero. -/
def significand (rank : Nat) : Nat :=
  rank - spacing rank * ranksPerSpacing

def unitsOfRank (rank : Nat) : Nat :=
  significand rank * Nat.pow 2 (spacing rank)

/-- The whole number nearest a ratio, and of two equally near ones the even one. -/
def roundHalfEven (numerator denominator : Nat) : Nat :=
  let whole := numerator / denominator
  let twice := 2 * (numerator % denominator)
  if twice < denominator then whole
  else if denominator < twice then whole + 1
  else whole + whole % 2

def rankOfRatio (numerator denominator : Nat) : Nat :=
  let units := numerator * unitsPerOne
  let spacing := (units / denominator).log2 - 52
  min (spacing * ranksPerSpacing + roundHalfEven units (denominator * Nat.pow 2 spacing)) infinityRank

def wholePart (x : Binary64) : Nat :=
  unitsOfRank x.rank / unitsPerOne

theorem ofRank_inj_bits {x y : Binary64} (h : x.bits = y.bits) : x = y := by
  cases x; cases y; cases h; rfl

theorem ofRank_rank (x : Binary64) : ofRank x.isNegative x.rank = x := by
  apply ofRank_inj_bits
  apply UInt64.toNat_inj.mp
  have := x.bits.toNat_lt
  simp only [ofRank, isNegative, Binary64.rank, UInt64.toNat_ofNat', signPlace]
  by_cases h : 0x8000000000000000 ≤ x.bits.toNat <;> simp only [h, decide_true, decide_false, if_true,
    Bool.false_eq_true, if_false] <;> omega

end Binary64
end PdfSyntax
