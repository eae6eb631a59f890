import Relata.Store.Snapshot
import Relata.Store.Storage
/-!
# Catalogs

A catalog keeps tables in slots, each under the name of its table. The slot of a name is the path of
that name with the ending ".dbf", and it holds a snapshot. A name that could lead elsewhere is refused.
-/

namespace Relata

/-- A storage of slots, and the codec of the snapshots that are saved. -/
structure Catalog (σ : Type) where
  storage : σ
  codec : Codec

namespace Catalog

/-- The ending of the path of a slot. -/
def ending : String := ".dbf"

/-- Whether a name can be a slot's: it is no step to another directory and has neither separators nor
control characters. -/
def isSlotName (name : String) : Bool :=
  name ≠ "" && name ≠ "." && name ≠ ".."
    && name.toList.all fun c => c ≠ '/' && c ≠ '\\' && !Text.isControl c

/-- The path of the slot of a name. -/
def slotPath (name : String) : Except StoreFault String :=
  if isSlotName name then .ok (name ++ ending) else .error (.storage (.invalidSlot name))

/-- The name of the slot at a path, for the paths of slots. -/
def slotName? (path : String) : Option String :=
  let s := path.toList
  if s.contains '/' || !(ending.toList.isSuffixOf s) || s.length ≤ ending.length then none
  else some (String.ofList (s.take (s.length - ending.length)))

variable {σ : Type} [Storage σ]

/-- Save a table in the slot of its name, and give the path of the slot. -/
def save (c : Catalog σ) (t : Table) : Except StoreFault String × Catalog σ :=
  match slotPath t.name, Snapshot.encode t c.codec with
  | .error fault, _ => (.error fault, c)
  | .ok _, .error fault => (.error fault, c)
  | .ok path, .ok bytes =>
    let (result, storage) := Storage.write c.storage path bytes
    (result.map fun _ => path, { c with storage })

/-- The table in the slot of a name. -/
def load (c : Catalog σ) (name : String) : Except StoreFault Table := do
  let path ← slotPath name
  if !Storage.contains c.storage path then .error (.storage (.missingSlot name))
  else Snapshot.decode (← Storage.read c.storage path)

/-- The names of the slots, in the order of their paths. -/
def slots (c : Catalog σ) : List String := (Storage.list c.storage "").filterMap slotName?

def contains (c : Catalog σ) (name : String) : Except StoreFault Bool :=
  (slotPath name).map (Storage.contains c.storage)

/-- Remove the slot of a name, if there is one. -/
def remove (c : Catalog σ) (name : String) : Except StoreFault Unit × Catalog σ :=
  match slotPath name with
  | .error fault => (.error fault, c)
  | .ok path =>
    let (result, storage) := Storage.delete c.storage path
    (result, { c with storage })

end Catalog

end Relata
