/-! # Binary64 floating-point numbers

A number is kept as its bit pattern, so zero signs and NaN payloads survive. A finite number has
the magnitude `significand * 2 ^ exponent`. -/

namespace ShaderGen

/-- A binary64 number, as its bit pattern. -/
structure Binary64 where
  bits : UInt64
deriving DecidableEq, Repr

namespace Binary64

/-- Value of the bit above the fraction, which the significand of a normal number has. -/
def hiddenBit : Nat := 0x10000000000000

/-- Value of the sign bit. -/
def signBit : Nat := 0x8000000000000000

/-- Whether the sign bit is set; zeros and NaNs have one too. -/
def isNegative (v : Binary64) : Bool := signBit ≤ v.bits.toNat

/-- The eleven exponent bits. -/
def exponentField (v : Binary64) : Nat := v.bits.toNat / hiddenBit % 2048

/-- The low fifty-two bits. -/
def fractionField (v : Binary64) : Nat := v.bits.toNat % hiddenBit

/-- Whether the number is neither an infinity nor a NaN. -/
def isFinite (v : Binary64) : Bool := v.exponentField != 2047

/-- Whether the pattern stands for no number at all. -/
def isNaN (v : Binary64) : Bool := !v.isFinite && v.fractionField != 0

/-- Whole-number significand of a finite number; subnormal numbers have no hidden bit. -/
def significand (v : Binary64) : Nat :=
  if v.exponentField = 0 then v.fractionField else v.fractionField + hiddenBit

/-- Binary exponent that goes with `significand`. -/
def exponent (v : Binary64) : Int :=
  (if v.exponentField = 0 then 1 else v.exponentField : Nat) - 1075

/-- Whether the number is the least of its binade, so that the gap below it is half the gap above
    it. The least normal number is not: the subnormal numbers below it are as far apart. -/
def gapNarrowsBelow (v : Binary64) : Bool := v.fractionField == 0 && 1 < v.exponentField

def zero : Binary64 := ⟨0x0000000000000000⟩
def half : Binary64 := ⟨0x3fe0000000000000⟩
def minusHalf : Binary64 := ⟨0xbfe0000000000000⟩
def one : Binary64 := ⟨0x3ff0000000000000⟩
def minusOne : Binary64 := ⟨0xbff0000000000000⟩

end Binary64

end ShaderGen
