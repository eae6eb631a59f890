import Relata.Schema.Basic
import Relata.Index.Basic
/-!
# Tables

A table has a name, a schema, a sequence of tuples and one index over its key. A table that is filled
row by row checks each row and refuses a key it has. A table made from tuples at once takes them as
they are: its key may repeat, and its index keeps the first tuple of each key.
-/

namespace Relata

/-- A named sequence of tuples over a schema, with an index over the key. -/
structure Table where
  name : String
  schema : Schema
  tuples : List Tuple
  index : Index

namespace Table

def empty (name : String) (schema : Schema) (kind : IndexKind) : Table :=
  ⟨name, schema, [], Index.empty kind⟩

/-- The index with a tuple under its key, unless the key is there. -/
def indexFirst (schema : Schema) (index : Index) (t : Tuple) : Index :=
  if index.contains (schema.keyOf t) then index else index.insert (schema.keyOf t) t

/-- The table of the given tuples. The index keeps the first tuple of each key. -/
def ofTuples (name : String) (schema : Schema) (kind : IndexKind) (tuples : List Tuple) : Table :=
  ⟨name, schema, tuples, tuples.foldl (indexFirst schema) (Index.empty kind)⟩

def indexKind (t : Table) : IndexKind := t.index.kind

def size (t : Table) : Nat := t.tuples.length

def isEmpty (t : Table) : Bool := t.tuples.isEmpty

/-- The first tuple with the given key, by the index. -/
def find? (t : Table) (key : Key) : Option Tuple := t.index.find? key

/-- The table with one more row, which must fit the schema and bring a new key. -/
def insert (t : Table) (row : Tuple) : Except Fault Table := do
  t.schema.check row
  let key := t.schema.keyOf row
  if t.index.contains key then .error (.duplicateKey t.name key)
  else .ok { t with tuples := t.tuples ++ [row], index := t.index.insert key row }

/-- The table after the rows up to the first that is rejected, and the fault of that row. -/
def insertAll (t : Table) : List Tuple → Table × Except Fault Unit
  | [] => (t, .ok ())
  | row :: rest =>
    match t.insert row with
    | .error fault => (t, .error fault)
    | .ok t => t.insertAll rest

/-- The same tuples under another name, with an index made anew. -/
def rename (t : Table) (name : String) : Table := ofTuples name t.schema t.indexKind t.tuples

def copy (t : Table) : Table := t.rename t.name

end Table

end Relata
