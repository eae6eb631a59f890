import Relata.Index.Basic
import Relata.Store.Storage
/-!
# Storage in memory

A storage that is a list of paths with their bytes, in ascending order of the paths.
-/

namespace Relata

/-- Paths and their bytes. -/
structure Memory where
  entries : List (String × Bytes)
  deriving DecidableEq

namespace Memory

def empty : Memory := ⟨[]⟩

def insert (m : Memory) (path : String) (bytes : Bytes) : Memory :=
  ⟨Entries.insert path bytes m.entries⟩

def size (m : Memory) : Nat := m.entries.length

def isEmpty (m : Memory) : Bool := m.entries.isEmpty

instance : Storage Memory where
  write m path bytes := (.ok (), m.insert path bytes)
  read m path := match m.entries.lookup path with
    | some bytes => .ok bytes
    | none => .error (.storage (.missingPath path))
  delete m path := (.ok (), ⟨Entries.erase path m.entries⟩)
  list m beginning := (m.entries.map Prod.fst).filter fun path => Text.startsWith path beginning
  contains m path := (m.entries.lookup path).isSome

end Memory

end Relata
