import Relata.Algebra.Operator
/-!
# Queries

The operators as functions on tables, with attribute lists as words separated by white space. Joins
take the suffix of the session.
-/

namespace Relata.Table

abbrev Query := Session → Except Rejection (Table × Session)

def project (t : Table) (attributes : String) : Query :=
  (Operator.project (Text.words attributes)).eval [t]

def select (t : Table) (predicate : Tuple → Option Bool) : Query := (Operator.select predicate).eval [t]

/-- The tuples that satisfy a condition on a literal. -/
def selectWhere (t : Table) (condition : String) : Query := (Operator.filter condition).eval [t]

def selectKey (t : Table) (key : Key) : Query := (Operator.selectKey key).eval [t]

def union (t u : Table) : Query := Operator.union.eval [t, u]

def minus (t u : Table) : Query := Operator.minus.eval [t, u]

def intersect (t u : Table) : Query := Operator.intersect.eval [t, u]

def join (t : Table) (left right : String) (u : Table) : Query := fun session =>
  (Operator.join (Text.words left) (Text.words right) session.suffix).eval [t, u] session

def indexJoin (t : Table) (left right : String) (u : Table) : Query := fun session =>
  (Operator.indexJoin (Text.words left) (Text.words right) session.suffix).eval [t, u] session

def hashJoin (t : Table) (left right : String) (u : Table) : Query := fun session =>
  (Operator.hashJoin (Text.words left) (Text.words right) session.suffix).eval [t, u] session

def thetaJoin (t : Table) (condition : String) (u : Table) : Query := fun session =>
  (Operator.thetaJoin condition session.suffix).eval [t, u] session

def naturalJoin (t u : Table) : Query := Operator.naturalJoin.eval [t, u]

end Relata.Table
