import Relata.Schema.Basic
/-!
# Rejections

Why an operator does not take its inputs.
-/

namespace Relata

/-- Why an operator has no result on its inputs. -/
inductive Rejection where
  /-- A fault of a schema, a literal or a comparison. -/
  | fault (fault : Fault)
  /-- A set operator on schemas whose domains differ. -/
  | incompatible (operator : String) (left right : Schema)
  /-- A number of inputs that the operator does not take. -/
  | inputs (operator : String) (expected found : Nat)
  /-- An operator that can be planned but not evaluated. -/
  | unsupported (operator : String)
  /-- A row that lacks a column which is read. -/
  | undefined
  deriving DecidableEq

namespace Rejection

def message : Rejection → String
  | fault f => f.message
  | incompatible operator left right =>
    s!"incompatible schemas: {operator}: {left.render} vs {right.render}"
  | inputs operator expected found =>
    let number := if expected = 1 then "one input" else "two inputs"
    s!"planning error: {operator} expects {number}, got {found}"
  | unsupported operator => s!"unsupported operator: {operator}"
  | undefined => "a row lacks a column that is read"

/-- The fault behind a rejection. -/
def fault? : Rejection → Option Fault
  | fault f => some f
  | _ => none

def lift {α : Type} (result : Except Fault α) : Except Rejection α := result.mapError fault

/-- What was computed from rows, if they have every column that was read. -/
def defined {α : Type} : Option α → Except Rejection α
  | some a => .ok a
  | none => .error undefined

end Rejection

end Relata
