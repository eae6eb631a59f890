import Relata.Number.Numeral
import Relata.Number.Nearest
import Relata.Number.Shortest
/-!
# Floating-point literals

A literal is an optional sign followed by digits with an optional point and an optional exponent, or
by one of the words `inf`, `infinity` and `nan` in any ASCII case. At least one digit stands before
or after the point. It denotes the nearest number of its format.

A number is written without an exponent and with the fewest digits that read back.
-/

namespace Relata.Binary

/-- The power of ten a literal ends with: nothing, or a mark and a numeral. -/
def exponentOf? : List Char → Option Int
  | [] => some 0
  | c :: numeral => if c = 'e' || c = 'E' then Numeral.readInt? numeral else none

/-- The decimal `m * 10 ^ e` that an unsigned literal spells. -/
def decimalOf? (s : List Char) : Option (Nat × Int) :=
  let whole := s.takeWhile Char.isDigit
  let (fraction, rest) := match s.dropWhile Char.isDigit with
    | '.' :: r => (r.takeWhile Char.isDigit, r.dropWhile Char.isDigit)
    | r => ([], r)
  if whole.isEmpty && fraction.isEmpty then none
  else (exponentOf? rest).map fun e =>
    (Nat.ofDigitChars 10 (whole ++ fraction) 0, e - fraction.length)

/-- The magnitude an unsigned literal denotes. -/
def readMagnitude? (f : Binary) (s : List Char) : Option Nat :=
  match decimalOf? s with
  | some (m, e) => some (f.nearestDecimal m e)
  | none =>
    let word := String.ofList (s.map Char.toLower)
    if word = "inf" || word = "infinity" then some f.infinity
    else if word = "nan" then some f.quietNaN
    else none

/-- The bit pattern a literal denotes. -/
def read? (f : Binary) : List Char → Option Nat
  | [] => none
  | c :: s =>
    if c = '-' then (f.readMagnitude? s).map f.negate
    else if c = '+' then f.readMagnitude? s
    else f.readMagnitude? (c :: s)

/-- The text of a bit pattern. A NaN has neither a sign nor a payload in its text. -/
def write (f : Binary) (bits : Nat) : List Char :=
  let magnitude := f.magnitude bits
  if f.infinity < magnitude then ['N', 'a', 'N']
  else
    let unsigned :=
      if magnitude = f.infinity then ['i', 'n', 'f']
      else if magnitude = 0 then ['0']
      else (f.finite magnitude).shortest.positional
    if f.isNegative bits then '-' :: unsigned else unsigned

end Relata.Binary
