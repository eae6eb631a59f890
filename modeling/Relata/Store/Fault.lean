import Relata.Fault
import Relata.Json.Shape
/-!
# Faults of the store

Why a table is not saved or not loaded: the storage refuses a path, the bytes are no snapshot, or the
snapshot holds no table. Each fault carries its cause, and the wording is in the `message` functions
alone.
-/

namespace Relata

/-- How a snapshot's payload is kept. -/
inductive Codec where
  /-- As it is. -/
  | stored
  | zstd
  | lz4
  deriving DecidableEq, Repr

namespace Codec

def all : List Codec := [stored, zstd, lz4]

def name : Codec → String
  | stored => "none"
  | zstd => "zstd"
  | lz4 => "lz4"

def code : Codec → UInt8
  | stored => 0
  | zstd => 1
  | lz4 => 2

end Codec

/-- Why a file tree does not take a path. -/
inductive PathFault where
  /-- A part of the path leads nowhere. -/
  | noEntry
  /-- Something is there already. -/
  | alreadyExists
  /-- A part of the path that must be a directory is a file. -/
  | notDirectory
  /-- The path leads to a directory where a file is wanted. -/
  | isDirectory
  /-- A name or the whole path is too long. -/
  | nameTooLong
  /-- The path holds a NUL character. -/
  | nulCharacter
  deriving DecidableEq, Repr

/-- What a storage was doing with a path that its file tree did not take. -/
inductive FileAction where
  | makingParent
  | creating
  | reading (path : String)
  | deleting
  deriving DecidableEq

/-- Why a storage or a catalog refuses a path or a slot. -/
inductive StorageFault where
  | missingPath (path : String)
  | file (action : FileAction) (cause : PathFault)
  | invalidSlot (slot : String)
  | missingSlot (slot : String)
  deriving DecidableEq

/-- Why bytes are no snapshot, or a snapshot's payload no table. -/
inductive FormatFault where
  | shortHeader
  | badMagic
  | unsupportedVersion (version : Nat)
  | oversized (compressed uncompressed max : UInt64)
  | differingLengths
  | wrongSize (expected found : Nat)
  | wrongPayloadLength
  | unevenLists (names domains : Nat)
  deriving DecidableEq

/-- A fault of the store. -/
inductive StoreFault where
  | storage (fault : StorageFault)
  /-- A codec that cannot be used, or one that is not known at all. -/
  | unsupported (codec : Option Codec)
  /-- A payload that does not spell a table image. -/
  | unreadablePayload
  | checksumMismatch
  | format (fault : FormatFault)
  | fault (fault : Fault)
  deriving DecidableEq

/-- The wording of a path's fault, with the number that systems give it. -/
def PathFault.message : PathFault → String
  | noEntry => "No such file or directory (os error 2)"
  | alreadyExists => "File exists (os error 17)"
  | notDirectory => "Not a directory (os error 20)"
  | isDirectory => "Is a directory (os error 21)"
  | nameTooLong => "File name too long (os error 36)"
  | nulCharacter => "file name contained an unexpected NUL byte"

def FileAction.name : FileAction → String
  | makingParent => "mkparent"
  | creating => "create"
  | reading path => "read " ++ path
  | deleting => "delete"

def StorageFault.message : StorageFault → String
  | missingPath path => "path not found: " ++ path
  | file action cause => action.name ++ ": " ++ cause.message
  | invalidSlot slot => s!"invalid slot name '{slot}'"
  | missingSlot slot => s!"no slot named '{slot}'"

def FormatFault.message : FormatFault → String
  | shortHeader => "short header"
  | badMagic => "bad magic"
  | unsupportedVersion version => s!"unsupported version {version}"
  | oversized compressed uncompressed max =>
    s!"payload of {compressed.toNat}/{uncompressed.toNat} bytes exceeds max {max.toNat}"
  | differingLengths => "uncompressed payload with differing lengths"
  | wrongSize expected found => s!"expected {expected} bytes, found {found}"
  | wrongPayloadLength => "payload length does not match header"
  | unevenLists names domains => s!"{names} attribute names but {domains} domains"

namespace StoreFault

def message : StoreFault → String
  | storage f => "storage error: " ++ f.message
  | unsupported codec => "unsupported codec: " ++ (codec.map Codec.name).getD "unknown"
  | unreadablePayload => "codec error: json deserialize"
  | checksumMismatch => "checksum mismatch"
  | format f => "snapshot format error: " ++ f.message
  | fault f => f.message

def lift {α : Type} (result : Except Fault α) : Except StoreFault α := result.mapError fault

end StoreFault

end Relata
