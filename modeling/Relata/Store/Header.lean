import Relata.Store.Codec
/-!
# Snapshot headers

A header is 24 bytes: four that mark a snapshot, the version in two, the code of the codec, one byte
that is kept free, and the payload's two lengths in eight bytes each. Numbers are little-endian.
-/

namespace Relata

/-- How a snapshot's payload is kept, and its length before and after the codec. -/
structure Header where
  codec : Codec
  uncompressed : UInt64
  compressed : UInt64
  deriving DecidableEq

namespace Header

def magic : Bytes := [0x52, 0x4C, 0x41, 0x47]

def version : Nat := 1

def size : Nat := 24

def bytes (h : Header) : Bytes :=
  magic ++ Bytes.littleEndian 2 version ++ [h.codec.code, 0] ++ Bytes.littleEndian 8 h.uncompressed.toNat
    ++ Bytes.littleEndian 8 h.compressed.toNat

/-- The number that some of the bytes spell. -/
def number (bytes : Bytes) (position width : Nat) : Nat :=
  Bytes.ofLittleEndian ((bytes.drop position).take width)

def read (bytes : Bytes) : Except StoreFault Header := do
  if bytes.length < size then .error (.format .shortHeader)
  else if bytes.take 4 ≠ magic then .error (.format .badMagic)
  else if number bytes 4 2 ≠ version then .error (.format (.unsupportedVersion (number bytes 4 2)))
  else
    let codec ← Codec.ofCode (bytes.getD 6 0)
    return ⟨codec, (number bytes 8 8).toUInt64, (number bytes 16 8).toUInt64⟩

/-- Whether the lengths are within a bound and agree with the codec. -/
def check (h : Header) (max : UInt64) : Except StoreFault Unit :=
  if h.uncompressed > max ∨ h.compressed > max then
    .error (.format (.oversized h.compressed h.uncompressed max))
  else if h.codec = .stored ∧ h.compressed ≠ h.uncompressed then .error (.format .differingLengths)
  else .ok ()

end Header

end Relata
