import Relata.Schema.Basic
import Relata.Value.Json
/-!
# The JSON form of schemas

A schema is a record of its attribute names, their domains and its key. Reading builds the schema
anew, so a record that is no schema is refused.
-/

namespace Relata.Schema

def toJson (s : Schema) : Json :=
  Json.record [("attributes", Json.ofStrings s.names), ("domains", .array (s.domains.map Domain.toJson)),
    ("key", Json.ofStrings s.key)]

/-- The domains of a JSON array of domains. -/
def domainsOfJson? (v : Json) : Option (List Domain) :=
  v.items?.bind fun items => items.mapM Domain.ofJson?

def ofJson? (v : Json) : Option Schema := do
  let fields ← v.fields? ["attributes", "domains", "key"]
  match fields with
  | [names, domains, key] =>
    let names ← names.strings?
    let domains ← domainsOfJson? domains
    let key ← key.strings?
    (ofLists names domains key).toOption
  | _ => none

end Relata.Schema
