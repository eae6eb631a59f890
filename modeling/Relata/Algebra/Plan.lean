import Relata.Schema.Json
/-!
# Plans

A plan says what an operator would make of tables with given schemas: the schema of its result and
the class of its cost. No tuple is looked at.
-/

namespace Relata

/-- How the work of an operator grows with its inputs of `n` and `m` tuples. -/
inductive Cost where
  /-- One probe of an index. -/
  | lookup
  /-- One pass over the input. -/
  | linear
  /-- One pass over each input. -/
  | sum
  /-- Every pair of tuples is compared. -/
  | product
  deriving DecidableEq, Repr

namespace Cost

def all : List Cost := [lookup, linear, sum, product]

def name : Cost → String
  | lookup => "Lookup"
  | linear => "Linear"
  | sum => "Sum"
  | product => "Product"

def render : Cost → String
  | lookup => "O(1)"
  | linear => "O(n)"
  | sum => "O(n+m)"
  | product => "O(n*m)"

/-- The number of tuples visited, as far as 64 bits can count. -/
def estimate (c : Cost) (n m : UInt64) : UInt64 :=
  match c with
  | lookup => 1
  | linear => n
  | sum => (min (n.toNat + m.toNat) (UInt64.size - 1)).toUInt64
  | product => (min (n.toNat * m.toNat) (UInt64.size - 1)).toUInt64

def toJson (c : Cost) : Json := Json.ofString c.name

def ofJson? (v : Json) : Option Cost := v.name?.bind fun s => all.find? fun c => c.name == s

end Cost

/-- What an operator would make of its inputs. -/
structure Plan where
  schema : Schema
  cost : Cost
  deriving DecidableEq

def Plan.toJson (p : Plan) : Json :=
  Json.record [("output_schema", p.schema.toJson), ("complexity", p.cost.toJson)]

end Relata
