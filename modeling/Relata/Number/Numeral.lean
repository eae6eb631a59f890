/-!
# Decimal numerals

A numeral of an integer is an optional sign followed by one or more ASCII digits. Leading zeros are
allowed, and the size is not bounded here: widths are checked where a numeral is given a type.
-/

namespace Relata.Numeral

/-- The natural number a sequence of ASCII digits denotes; nothing else denotes one. -/
def readNat? (digits : List Char) : Option Nat :=
  if !digits.isEmpty && digits.all Char.isDigit then some (Nat.ofDigitChars 10 digits 0) else none

/-- The integer a numeral denotes. -/
def readInt? : List Char → Option Int
  | [] => none
  | c :: digits =>
    if c = '-' then (readNat? digits).map fun n => -(n : Int)
    else if c = '+' then (readNat? digits).map fun n => (n : Int)
    else (readNat? (c :: digits)).map fun n => (n : Int)

/-- The shortest numeral of an integer: no plus sign and no leading zero. -/
def ofInt (n : Int) : List Char :=
  if n < 0 then '-' :: Nat.toDigits 10 n.natAbs else Nat.toDigits 10 n.natAbs

end Relata.Numeral
