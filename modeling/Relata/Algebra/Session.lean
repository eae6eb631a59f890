import Relata.Table.Basic
import Relata.Settings
/-!
# Sessions

A session hands out the names of results and knows the suffix of colliding attribute names. A name is
the name of the first input followed by a counter, which belongs to the session.
-/

namespace Relata

/-- The suffix of colliding attribute names and the counter of derived names. -/
structure Session where
  suffix : String
  derived : UInt64
  deriving DecidableEq

namespace Session

/-- A session that has handed out no name. -/
def ofSettings (s : Settings) : Session := ⟨s.renameSuffix, 0⟩

/-- The name of the next result that is derived from a base, and the session after it. -/
def fresh (s : Session) (base : String) : String × Session :=
  (base ++ toString s.derived.toNat, { s with derived := s.derived + 1 })

/-- The result that an operator leaves: a fresh name, the index kind of the first input, and an index
with the first tuple of each key. -/
def derive (s : Session) (base : Table) (schema : Schema) (tuples : List Tuple) : Table × Session :=
  (Table.ofTuples (s.fresh base.name).1 schema base.indexKind tuples, (s.fresh base.name).2)

end Session

end Relata
