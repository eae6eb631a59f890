import Relata.Json.Reader
import Relata.Store.Digest
import Relata.Store.Header
import Relata.Store.Image
/-!
# Snapshots

A snapshot is a header, a payload and the digest of both. The payload is a table image in JSON, as the
codec keeps it.
-/

namespace Relata.Snapshot

/-- The greatest payload that is read: 256 MiB. -/
def maxPayload : UInt64 := 268435456

def digestSize : Nat := 32

def payload (t : Table) : Bytes := (TableImage.ofTable t).toJson.write

def encode (t : Table) (codec : Codec) : Except StoreFault Bytes := do
  let packed ← codec.compress (payload t)
  let header : Header := ⟨codec, (payload t).length.toUInt64, packed.length.toUInt64⟩
  let body := header.bytes ++ packed
  return body ++ Bytes.digest body

/-- The table of a snapshot. Sizes are looked at first, then the digest, and the payload last. -/
def decode (bytes : Bytes) : Except StoreFault Table := do
  let header ← Header.read bytes
  header.check maxPayload
  let bodySize := Header.size + header.compressed.toNat
  if bytes.length ≠ bodySize + digestSize then
    .error (.format (.wrongSize (bodySize + digestSize) bytes.length))
  else
    let body := bytes.take bodySize
    if Bytes.digest body ≠ bytes.drop bodySize then .error .checksumMismatch
    else
      let text ← header.codec.decompress (body.drop Header.size)
      if text.length ≠ header.uncompressed.toNat then .error (.format .wrongPayloadLength)
      else match (Json.read? text).bind TableImage.ofJson? with
        | none => .error .unreadablePayload
        | some image => image.toTable

end Relata.Snapshot
