import Relata.Algebra.Join
import Relata.Algebra.Plan
import Relata.Algebra.Session
import Relata.Condition
/-!
# Operators

The operators of the algebra, as data. `Operator.plan` gives the schema of the result and the cost
from the schemas of the inputs, and refuses what does not fit. `Operator.run` makes the result table
under the next name of a session; `Operator.eval` is what it leaves when it succeeds.
-/

namespace Relata

/-- An operator of the relational algebra. A predicate has no answer on a row that lacks a column it
reads. -/
inductive Operator where
  /-- Keep the named attributes, in the given order. Equal tuples stay. -/
  | project (attributes : List String)
  /-- Keep the tuples that satisfy a predicate. -/
  | select (predicate : Tuple → Option Bool)
  /-- Keep the tuples that satisfy the condition a text spells. -/
  | filter (condition : String)
  /-- Keep the first tuple with a key. A key that does not fit the schema finds nothing. -/
  | selectKey (key : Key)
  /-- The left tuples, then each right tuple that has not come yet. -/
  | union
  /-- The left tuples that do not occur on the right. -/
  | minus
  /-- The left tuples that occur on the right. -/
  | intersect
  /-- Pairs of tuples that agree on paired attributes. -/
  | join (left right : List String) (suffix : String)
  /-- The same pairs, found through an index over the right table. -/
  | indexJoin (left right : List String) (suffix : String)
  /-- The same pairs by hashing; it can be planned but not evaluated. -/
  | hashJoin (left right : List String) (suffix : String)
  /-- Pairs of tuples that satisfy the comparison of two attributes a text spells. -/
  | thetaJoin (condition : String) (suffix : String)
  /-- Pairs of tuples that agree on the attributes both sides name, with one copy of those. -/
  | naturalJoin

namespace Operator

def defaultSuffix : String := "2"

def name : Operator → String
  | project _ => "project"
  | select _ => "select"
  | filter _ => "filter"
  | selectKey _ => "select_key"
  | union => "union"
  | minus => "minus"
  | intersect => "intersect"
  | join .. => "join"
  | indexJoin .. => "index_join"
  | hashJoin .. => "hash_join"
  | thetaJoin .. => "theta_join"
  | naturalJoin => "natural_join"

/-! ## Inputs -/

/-- The only input of an operator with one. -/
def one {α : Type} (op : Operator) : List α → Except Rejection α
  | [input] => .ok input
  | inputs => .error (.inputs op.name 1 inputs.length)

/-- The two inputs of an operator with two. -/
def two {α : Type} (op : Operator) : List α → Except Rejection (α × α)
  | [left, right] => .ok (left, right)
  | inputs => .error (.inputs op.name 2 inputs.length)

/-! ## Planning -/

def planSet (op : Operator) (inputs : List Schema) : Except Rejection Plan := do
  let (left, right) ← op.two inputs
  if left.unionCompatible right then return ⟨left, .sum⟩
  else .error (.incompatible op.name left right)

def planJoin (op : Operator) (inputs : List Schema) (leftNames rightNames : List String)
    (suffix : String) (cost : Cost) : Except Rejection Plan := do
  let (left, right) ← op.two inputs
  let _ ← Rejection.lift (Join.columns left right leftNames rightNames)
  return ⟨← Rejection.lift (Join.schema left right suffix), cost⟩

def plan (op : Operator) (inputs : List Schema) : Except Rejection Plan :=
  match op with
  | project attributes => do
    let s ← op.one inputs
    return ⟨← Rejection.lift (s.restrict attributes), .linear⟩
  | select _ => return ⟨← op.one inputs, .linear⟩
  | filter condition => do
    let s ← op.one inputs
    let c ← Rejection.lift (Condition.parse condition)
    let _ ← Rejection.lift (c.bindLiteral s)
    return ⟨s, .linear⟩
  | selectKey _ => return ⟨← op.one inputs, .lookup⟩
  | union => op.planSet inputs
  | minus => op.planSet inputs
  | intersect => op.planSet inputs
  | join l r suffix => op.planJoin inputs l r suffix .product
  | indexJoin l r suffix => op.planJoin inputs l r suffix .sum
  | hashJoin l r suffix => op.planJoin inputs l r suffix .sum
  | thetaJoin condition suffix => do
    let (left, right) ← op.two inputs
    let c ← Rejection.lift (Condition.parse condition)
    let _ ← Rejection.lift (c.bindColumns left right)
    return ⟨← Rejection.lift (Join.schema left right suffix), .product⟩
  | naturalJoin => do
    let (left, right) ← op.two inputs
    return ⟨(← Rejection.lift (Join.layout left right)).schema, .product⟩

/-! ## Evaluation -/

/-- The left tuples, then each right tuple that is neither on the left nor came before. -/
def unionTuples (left right : List Tuple) : List Tuple :=
  right.foldl (fun all t => if t ∈ all then all else all ++ [t]) left

/-- A result that has no name yet: the input it is named after, its schema and its tuples. -/
structure Result where
  base : Table
  schema : Schema
  tuples : List Tuple

/-- The result of an operator on tables. Every operator checks its inputs before it looks at a tuple:
most by planning, a filter and a natural join on their own. -/
def result (op : Operator) (inputs : List Table) : Except Rejection Result :=
  match op with
  | project attributes => do
    let t ← op.one inputs
    let plan ← op.plan [t.schema]
    let columns ← Rejection.lift (t.schema.columns attributes)
    return ⟨t, plan.schema, ← Rejection.defined (t.tuples.mapM fun row => row.project? columns)⟩
  | select predicate => do
    let t ← op.one inputs
    let plan ← op.plan [t.schema]
    return ⟨t, plan.schema, ← Rejection.defined (t.tuples.filterM predicate)⟩
  | filter condition => do
    let t ← op.one inputs
    let c ← Rejection.lift (Condition.parse condition)
    let c ← Rejection.lift (c.bindLiteral t.schema)
    return ⟨t, t.schema, ← Rejection.defined (t.tuples.filterM c.matches?)⟩
  | selectKey key => do
    let t ← op.one inputs
    let plan ← op.plan [t.schema]
    return ⟨t, plan.schema, (t.find? key).toList⟩
  | union => do
    let (left, right) ← op.two inputs
    let plan ← op.plan [left.schema, right.schema]
    return ⟨left, plan.schema, unionTuples left.tuples right.tuples⟩
  | minus => do
    let (left, right) ← op.two inputs
    let plan ← op.plan [left.schema, right.schema]
    return ⟨left, plan.schema, left.tuples.filter fun t => t ∉ right.tuples⟩
  | intersect => do
    let (left, right) ← op.two inputs
    let plan ← op.plan [left.schema, right.schema]
    return ⟨left, plan.schema, left.tuples.filter fun t => t ∈ right.tuples⟩
  | join l r _ => do
    let (left, right) ← op.two inputs
    let plan ← op.plan [left.schema, right.schema]
    let (l, r) ← Rejection.lift (Join.columns left.schema right.schema l r)
    return ⟨left, plan.schema, ← Rejection.defined (Join.byScan? l r left.tuples right.tuples)⟩
  | indexJoin l r _ => do
    let (left, right) ← op.two inputs
    let plan ← op.plan [left.schema, right.schema]
    let (l, r) ← Rejection.lift (Join.columns left.schema right.schema l r)
    return ⟨left, plan.schema, ← Rejection.defined (Join.byIndex? l r left.tuples right.tuples)⟩
  | hashJoin .. => do
    let (left, right) ← op.two inputs
    let _ ← op.plan [left.schema, right.schema]
    .error (.unsupported op.name)
  | thetaJoin condition _ => do
    let (left, right) ← op.two inputs
    let plan ← op.plan [left.schema, right.schema]
    let c ← Rejection.lift (Condition.parse condition)
    let (l, r) ← Rejection.lift (c.bindColumns left.schema right.schema)
    return ⟨left, plan.schema,
      ← Rejection.defined (Join.theta? c.comparison.holds l r left.tuples right.tuples)⟩
  | naturalJoin => do
    let (left, right) ← op.two inputs
    let layout ← Rejection.lift (Join.layout left.schema right.schema)
    return ⟨left, layout.schema,
      ← Rejection.defined (Join.natural? layout.common layout.kept left.tuples right.tuples)⟩

/-- An operator run in a session: its result under the next name, or why it has none, and the session
that goes on. An operator that fails uses up no name. -/
def run (op : Operator) (inputs : List Table) (session : Session) : Except Rejection Table × Session :=
  match op.result inputs with
  | .error rejection => (.error rejection, session)
  | .ok result =>
    let (t, session) := session.derive result.base result.schema result.tuples
    (.ok t, session)

/-- The result of an operator on tables, with the session after it. -/
def eval (op : Operator) (inputs : List Table) (session : Session) :
    Except Rejection (Table × Session) :=
  let (result, session) := op.run inputs session
  result.map fun t => (t, session)

end Operator

end Relata
