import Relata.Algebra.Rejection
import Relata.Index.Multi
/-!
# Joins

A join puts tuples of two tables side by side. The schema of the result is the left one followed by
the right one, where an attribute name that is taken gets a suffix; the key is the left key. A natural
join keeps only one copy of the columns that both sides name.
-/

namespace Relata.Join

/-! ## The schema of a join -/

/-- A right-hand attribute name in a result where some names are taken: the name itself if it is free,
else with the suffix, else with the suffix and the least number from one that makes it free. -/
def freshName (taken : List String) (suffix name : String) : String :=
  if name ∉ taken then name
  else if name ++ suffix ∉ taken then name ++ suffix
  else
    let numbered (n : Nat) := name ++ suffix ++ "_" ++ toString (n + 1)
    let n? := (List.range taken.length).find? fun n => numbered n ∉ taken
    numbered (n?.getD taken.length)

/-- Attributes that follow those of a result, renamed where their names are taken. -/
def renamed (suffix : String) : (taken : List String) → List Attribute → List Attribute
  | _, [] => []
  | taken, a :: rest =>
    let name := freshName taken suffix a.name
    ⟨name, a.domain⟩ :: renamed suffix (taken ++ [name]) rest

/-- The schema of a join: the left attributes, the right ones renamed where they collide, and the
left key. -/
def schema (left right : Schema) (suffix : String) : Except Fault Schema :=
  Schema.build (left.attributes ++ renamed suffix left.names right.attributes) left.key

/-! ## The columns of an equi-join -/

/-- Whether columns in pairs have the same domain on both sides. -/
def checkPairs (left right : Schema) : List (Nat × Nat) → Except Fault Unit
  | [] => .ok ()
  | (l, r) :: rest =>
    match left.attributes[l]?, right.attributes[r]? with
    | some a, some b => do
      Value.checkDomains a.domain b.domain
      checkPairs left right rest
    | _, _ => checkPairs left right rest

/-- The columns of paired attribute lists, which must have the same length and the same domains. -/
def columns (left right : Schema) (leftNames rightNames : List String) :
    Except Fault (List Nat × List Nat) :=
  if leftNames = [] ∨ leftNames.length ≠ rightNames.length then
    .error (.schema (.unpairedLists leftNames.length rightNames.length))
  else do
    let l ← left.columns leftNames
    let r ← right.columns rightNames
    checkPairs left right (l.zip r)
    return (l, r)

/-! ## Rows

A row that lacks a column that is compared or copied leaves a join without rows. -/

/-- Whether two rows agree on columns in pairs, looked at one pair after the other up to the first
that differs. -/
def agree? : (pairs : List (Nat × Nat)) → Tuple → Tuple → Option Bool
  | [], _, _ => some true
  | p :: rest, l, r =>
    match l[p.1]?, r[p.2]? with
    | some v, some w => if v = w then agree? rest l r else some false
    | _, _ => none

/-- Every pair of a left and a right row that is related, put together, left rows first. -/
def nested? (related : Tuple → Tuple → Option Bool) (together : Tuple → Tuple → Option Tuple)
    (left right : List Tuple) : Option (List Tuple) := do
  let parts ← left.mapM fun l => do
    let found ← right.filterM (related l)
    found.mapM (together l)
  return parts.flatten

def beside (l r : Tuple) : Option Tuple := some (l ++ r)

/-- The rows of an equi-join, found by comparing every pair. -/
def byScan? (l r : List Nat) (left right : List Tuple) : Option (List Tuple) :=
  nested? (agree? (l.zip r)) beside left right

/-- The rows of an equi-join, found by probing an index over the right table. -/
def byIndex? (l r : List Nat) (left right : List Tuple) : Option (List Tuple) := do
  let index ← MultiIndex.build? right r
  let parts ← left.mapM fun row => do
    let key ← row.project? l
    return (index.find key).map fun found => row ++ found
  return parts.flatten

/-- The rows of a theta-join on one column of each side. -/
def theta? (holds : Ordering → Bool) (l r : Nat) (left right : List Tuple) : Option (List Tuple) :=
  nested? (fun a b => do return holds (compare (← a[l]?) (← b[r]?))) beside left right

/-! ## The natural join -/

/-- The columns that a natural join compares and those of the right side that it keeps. -/
structure Layout where
  common : List (Nat × Nat)
  kept : List Nat
  schema : Schema

/-- The columns that both sides name, from a position on, in left order. Their domains must agree. -/
def commonColumns (right : Schema) : (position : Nat) → List Attribute → Except Fault (List (Nat × Nat))
  | _, [] => .ok []
  | position, a :: rest =>
    match right.column? a.name with
    | none => commonColumns right (position + 1) rest
    | some r =>
      match right.attributes[r]? with
      | none => commonColumns right (position + 1) rest
      | some b => do
        Value.checkDomains a.domain b.domain
        let more ← commonColumns right (position + 1) rest
        return (position, r) :: more

/-- How a natural join of two schemas is laid out. -/
def layout (left right : Schema) : Except Fault Layout := do
  let common ← commonColumns right 0 left.attributes
  let kept := (List.range right.arity).filter fun r => !(common.any fun p => p.2 == r)
  let schema ← Schema.build
    (left.attributes ++ kept.filterMap fun r => right.attributes[r]?) left.key
  return ⟨common, kept, schema⟩

/-- The rows of a natural join: pairs that agree on the common columns, without the right copies. -/
def natural? (common : List (Nat × Nat)) (kept : List Nat) (left right : List Tuple) :
    Option (List Tuple) :=
  nested? (agree? common) (fun l r => do return l ++ (← r.project? kept)) left right

end Relata.Join
