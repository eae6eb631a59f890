import Relata.Store.Fault
/-!
# Codecs

A snapshot's payload may be stored as it is or compressed. Three codecs are known; only the one that
stores the payload as it is can be used, and the others are refused by name.
-/

namespace Relata

namespace Codec

/-- The codec of a code. -/
def ofCode (code : UInt8) : Except StoreFault Codec :=
  match all.find? fun c => c.code == code with
  | some c => .ok c
  | none => .error (.unsupported none)

/-- The codec of a name in any ASCII case, among white space. No name at all stands for the codec that
stores. -/
def parse (s : String) : Except StoreFault Codec :=
  let word := Text.lowercase (String.ofList (Text.trim s.toList))
  if word = "" then .ok stored
  else match all.find? fun c => c.name == word with
    | some c => .ok c
    | none => .error (.unsupported none)

/-- Whether a codec can be used. -/
def isAvailable (c : Codec) : Bool := c == stored

/-- The stored form of a payload. -/
def compress (c : Codec) (payload : Bytes) : Except StoreFault Bytes :=
  match c with
  | stored => .ok payload
  | c => .error (.unsupported (some c))

/-- The payload of a stored form. -/
def decompress (c : Codec) (bytes : Bytes) : Except StoreFault Bytes :=
  match c with
  | stored => .ok bytes
  | c => .error (.unsupported (some c))

def toJson (c : Codec) : Json := Json.ofString c.name

end Codec

end Relata
