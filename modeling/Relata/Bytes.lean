/-!
# Bytes

A byte sequence is a list of bytes. Texts become bytes by UTF-8, and numbers of a fixed width by
their little-endian digits.
-/

namespace Relata

abbrev Bytes := List UInt8

namespace Bytes

def utf8 (s : String) : Bytes := s.toByteArray.data.toList

/-- The text whose UTF-8 form the bytes are, if they are one. -/
def utf8? (bytes : Bytes) : Option String := String.fromUTF8? ⟨bytes.toArray⟩

/-- The first `width` digits of a number in base 256, least significant first. -/
def littleEndian : Nat → Nat → Bytes
  | 0, _ => []
  | width + 1, n => n.toUInt8 :: littleEndian width (n / 256)

/-- The number whose digits in base 256, least significant first, the bytes are. -/
def ofLittleEndian : Bytes → Nat
  | [] => 0
  | b :: rest => b.toNat + 256 * ofLittleEndian rest

end Bytes

end Relata
