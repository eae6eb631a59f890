/-!
# Binary floating-point formats

A format lays a number out as a sign bit, an exponent field and a fraction field. A bit pattern is a
natural number below `2 ^ width`. Patterns of all-ones exponents are the infinities and the NaNs;
every other pattern is a finite number `significand * 2 ^ exponent` with a sign.
-/

namespace Relata

/-- A binary interchange format, given by the widths of its two fields. -/
structure Binary where
  exponentBits : Nat
  fractionBits : Nat
  deriving DecidableEq, Repr

namespace Binary

/-- The 64-bit format. -/
def double : Binary := ⟨11, 52⟩

/-- The 32-bit format. -/
def single : Binary := ⟨8, 23⟩

/-- The number of bits below the sign. -/
def magnitudeBits (f : Binary) : Nat := f.exponentBits + f.fractionBits

/-- The offset of the exponent field. -/
def bias (f : Binary) : Nat := Nat.pow 2 (f.exponentBits - 1) - 1

/-- The exponent of the least positive number: every finite number is a multiple of it. -/
def leastExponent (f : Binary) : Int := 1 - (f.bias + f.fractionBits : Nat)

/-- The pattern of positive infinity. -/
def infinity (f : Binary) : Nat := (Nat.pow 2 f.exponentBits - 1) * Nat.pow 2 f.fractionBits

/-- The pattern of the positive quiet NaN with an empty payload. -/
def quietNaN (f : Binary) : Nat := f.infinity + Nat.pow 2 (f.fractionBits - 1)

/-- Whether the sign bit is set. -/
def isNegative (f : Binary) (bits : Nat) : Bool := Nat.pow 2 f.magnitudeBits ≤ bits

/-- The pattern below the sign bit. -/
def magnitude (f : Binary) (bits : Nat) : Nat := bits % Nat.pow 2 f.magnitudeBits

/-- The pattern with its sign bit set. -/
def negate (f : Binary) (magnitude : Nat) : Nat := Nat.pow 2 f.magnitudeBits + magnitude

/-- The place of a pattern in the total order of the format: negative patterns come before positive
ones and grow downwards, so a zero with a sign is below zero and the NaNs lie at the two ends. -/
def place (f : Binary) (bits : Nat) : Int :=
  if f.isNegative bits then -(f.magnitude bits : Int) - 1 else f.magnitude bits

/-- A finite number `significand * 2 ^ exponent`. The gap to the number below it is half the gap to
the number above when `narrowBelow` holds. -/
structure Finite where
  significand : Nat
  exponent : Int
  narrowBelow : Bool
  deriving DecidableEq, Repr

/-- The finite number of a magnitude below infinity. -/
def finite (f : Binary) (magnitude : Nat) : Finite :=
  let hidden := Nat.pow 2 f.fractionBits
  let field := magnitude / hidden
  let fraction := magnitude % hidden
  if field = 0 then ⟨fraction, f.leastExponent, false⟩
  else ⟨hidden + fraction, f.leastExponent + (field - 1 : Nat), fraction = 0 && 1 < field⟩

end Binary

end Relata
