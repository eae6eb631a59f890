import Relata.Number.Binary
/-!
# The shortest decimal of a binary number

A decimal reads back to a finite binary number when it lies in the interval of the reals that round
to it. The shortest decimal has the fewest digits among those; of two with equally many digits the
nearer one is taken, and of two equally near ones the greater.
-/

namespace Relata

/-- The decimal `0.d₁d₂… * 10 ^ point` with the given digits. -/
structure Decimal where
  digits : List Char
  point : Int
  deriving DecidableEq, Repr

namespace Decimal

/-- The decimal `n * 10 ^ exponent`, without zeros at the end of its digits. -/
def ofScaled (n : Nat) (exponent : Int) : Decimal :=
  let digits := Nat.toDigits 10 n
  ⟨(digits.reverse.dropWhile (· == '0')).reverse, digits.length + exponent⟩

/-- The decimal written out without an exponent: no point in an integer, and a zero before a point
that would come first. -/
def positional (d : Decimal) : List Char :=
  if d.point ≤ 0 then '0' :: '.' :: (List.replicate (-d.point).toNat '0' ++ d.digits)
  else if d.point.toNat < d.digits.length then
    d.digits.take d.point.toNat ++ '.' :: d.digits.drop d.point.toNat
  else d.digits ++ List.replicate (d.point.toNat - d.digits.length) '0'

end Decimal

namespace Binary.Finite

/-- `n * 10 ^ e` compared with `m * 2 ^ q`, exactly. -/
def compareScaled (n : Nat) (e : Int) (m : Nat) (q : Int) : Ordering :=
  compare (n * Nat.pow 10 e.toNat * Nat.pow 2 (-q).toNat) (m * Nat.pow 2 q.toNat * Nat.pow 10 (-e).toNat)

/-- Whether `n * 10 ^ e` rounds to the number: it lies between the midpoints to the two neighbours,
and may be one of the midpoints when the significand is even. -/
def readsBack (x : Finite) (n : Nat) (e : Int) : Bool :=
  let lower := compareScaled n e (4 * x.significand - if x.narrowBelow then 1 else 2) (x.exponent - 2)
  let upper := compareScaled n e (4 * x.significand + 2) (x.exponent - 2)
  if x.significand % 2 = 0 then lower != .lt && upper != .gt else lower == .gt && upper == .lt

/-- The number as a quotient of naturals. -/
def quotient (x : Finite) : Nat × Nat :=
  (x.significand * Nat.pow 2 x.exponent.toNat, Nat.pow 2 (-x.exponent).toNat)

/-- The place of the leading digit of a positive number: the least `k` with `x < 10 ^ k`. -/
def scale (x : Finite) : Int :=
  let (num, den) := x.quotient
  if den ≤ num then (Nat.toDigits 10 (num / den)).length
  else 1 - (Nat.toDigits 10 ((den + num - 1) / num - 1)).length

/-- The multiple of `10 ^ e` that is kept, as its factor: of the two multiples next to the number
those that read back, and of these the nearer, the upper one on a tie. -/
def candidate? (x : Finite) (e : Int) : Option Nat :=
  let (num, den) := x.quotient
  let n := num * Nat.pow 10 (-e).toNat / (den * Nat.pow 10 e.toNat)
  match x.readsBack n e, x.readsBack (n + 1) e with
  | true, true =>
    if compareScaled (2 * n + 1) e (2 * x.significand) x.exponent = .gt then some n else some (n + 1)
  | true, false => some n
  | false, true => some (n + 1)
  | false, false => none

/-- The shortest decimal of a positive number. Seventeen digits identify a number of up to 53 bits;
a number that needed more would be written exactly. -/
def shortest (x : Finite) : Decimal :=
  let k := x.scale
  let found := (List.range 17).findSome? fun (i : Nat) =>
    (x.candidate? (k - 1 - i)).map fun n => Decimal.ofScaled n (k - 1 - i)
  found.getD (Decimal.ofScaled
    (x.significand * Nat.pow 2 x.exponent.toNat * Nat.pow 5 (-x.exponent).toNat) (-(-x.exponent).toNat))

end Binary.Finite

end Relata
