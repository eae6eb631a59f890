import Relata.Schema.Json
import Relata.Store.Fault
import Relata.Table.Basic
/-!
# Table images

The image of a table is what is saved of it: its name, its schema spelled out, how its index is kept,
and its tuples. The index itself is made anew when the table is.
-/

namespace Relata

/-- A table spelled out. -/
structure TableImage where
  name : String
  attributes : List String
  domains : List Domain
  key : List String
  index : IndexKind
  tuples : List Tuple
  deriving DecidableEq

namespace TableImage

def ofTable (t : Table) : TableImage :=
  ⟨t.name, t.schema.names, t.schema.domains, t.schema.key, t.indexKind, t.tuples⟩

/-- The table of an image. Lists of names and domains must have one length, the schema must be valid,
and each tuple must fit it; the key may repeat. -/
def toTable (image : TableImage) : Except StoreFault Table :=
  if image.attributes.length ≠ image.domains.length then
    .error (.format (.unevenLists image.attributes.length image.domains.length))
  else do
    let schema ← StoreFault.lift (Schema.build (Schema.pair image.attributes image.domains) image.key)
    StoreFault.lift (image.tuples.forM schema.check)
    return Table.ofTuples image.name schema image.index image.tuples

def toJson (image : TableImage) : Json :=
  Json.record [("name", Json.ofString image.name), ("attributes", Json.ofStrings image.attributes),
    ("domains", .array (image.domains.map Domain.toJson)), ("key", Json.ofStrings image.key),
    ("index", image.index.toJson), ("tuples", .array (image.tuples.map Tuple.toJson))]

def tuplesOfJson? (v : Json) : Option (List Tuple) :=
  v.items?.bind fun items => items.mapM Tuple.ofJson?

def ofJson? (v : Json) : Option TableImage := do
  let fields ← v.fields? ["name", "attributes", "domains", "key", "index", "tuples"]
  match fields with
  | [name, attributes, domains, key, index, tuples] =>
    return ⟨← name.string?, ← attributes.strings?, ← Schema.domainsOfJson? domains, ← key.strings?,
      ← IndexKind.ofJson? index, ← tuplesOfJson? tuples⟩
  | _ => none

end TableImage

end Relata
