import Relata.Number.Binary
/-!
# The nearest binary number

A quotient of naturals is rounded to the nearest number of a format; of two equally near ones the
one with the even significand is taken. Quotients too large for the format become infinity.
-/

namespace Relata.Binary

/-- The quotient rounded to the nearest natural number, a tie to the even one. -/
def roundEven (num den : Nat) : Nat :=
  let q := num / den
  let r := num % den
  if 2 * r < den then q
  else if den < 2 * r then q + 1
  else q + q % 2

/-- The exponent of the leading binary digit of a positive quotient: the greatest `l` with
`2 ^ l ≤ num / den`. -/
def leading (num den : Nat) : Int :=
  let l : Int := (num.log2 : Int) - (den.log2 : Int)
  if den * Nat.pow 2 l.toNat ≤ num * Nat.pow 2 (-l).toNat then l else l - 1

/-- The magnitude nearest to a quotient of naturals. -/
def nearest (f : Binary) (num den : Nat) : Nat :=
  if num = 0 then 0
  else
    let exponent := max f.leastExponent (leading num den - f.fractionBits)
    let significand := roundEven (num * Nat.pow 2 (-exponent).toNat) (den * Nat.pow 2 exponent.toNat)
    let hidden := Nat.pow 2 f.fractionBits
    let pattern :=
      if significand < hidden then significand
      else (exponent - f.leastExponent).toNat * hidden + significand
    min f.infinity pattern

/-- The magnitude nearest to `m * 10 ^ e`. Powers of ten that are out of the format's range on either
side are not computed. -/
def nearestDecimal (f : Binary) (m : Nat) (e : Int) : Nat :=
  let top : Int := (Nat.toDigits 10 m).length + e
  if m = 0 then 0
  else if (f.bias : Int) + 1 < top then f.infinity
  else if top < -(f.bias + f.fractionBits + 2 : Nat) then 0
  else f.nearest (m * Nat.pow 10 e.toNat) (Nat.pow 10 (-e).toNat)

end Relata.Binary
