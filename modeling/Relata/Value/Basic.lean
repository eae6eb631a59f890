import Relata.Domain
import Relata.Number.Binary
/-!
# Values

A value carries one payload of one domain. A floating-point payload is its bit pattern, so a NaN is
equal to itself and the two zeros differ. Values are ordered by domain first; within a domain
integers go by size, floating-point numbers by the total order of their format, and texts by code
points.
-/

namespace Relata

/-- A value of one of the eight domains. -/
inductive Value where
  | integer (n : Int32)
  | long (n : Int64)
  | short (n : Int16)
  | byte (n : Int8)
  | double (bits : UInt64)
  | float (bits : UInt32)
  | character (c : Char)
  | string (s : String)
  deriving DecidableEq, Inhabited

namespace Value

def domain : Value → Domain
  | integer _ => .integer
  | long _ => .long
  | short _ => .short
  | byte _ => .byte
  | double _ => .double
  | float _ => .float
  | character _ => .character
  | string _ => .string

/-- What orders a value among those of its domain: one number, or the code points of a text. -/
def payloadKey : Value → List Int
  | integer n => [n.toInt]
  | long n => [n.toInt]
  | short n => [n.toInt]
  | byte n => [n.toInt]
  | double bits => [Binary.double.place bits.toNat]
  | float bits => [Binary.single.place bits.toNat]
  | character c => [(c.toNat : Int)]
  | string s => s.toList.map fun c => (c.toNat : Int)

/-- What orders a value among all values: the rank of its domain, then its payload. -/
def sortKey (v : Value) : List Int := (v.domain.rank : Int) :: v.payloadKey

/-- Values are ordered as their sort keys are, lexicographically. -/
instance : Ord Value := ⟨fun a b => compare a.sortKey b.sortKey⟩

/-- The text of a string value; no other value has one. -/
def text? : Value → Option String
  | string s => some s
  | _ => none

end Value

end Relata
