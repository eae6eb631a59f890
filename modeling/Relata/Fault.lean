import Relata.Tuple
/-!
# Faults of schemas and tables

Why a text is not read, a schema is refused or a row is rejected. Each fault carries its cause;
the wording is in `Fault.message` alone.
-/

namespace Relata

/-- What a text was expected to spell. -/
inductive Unreadable where
  | literal (text : String) (domain : Domain)
  | domain (text : String)
  | indexKind (text : String)
  | comparison (text : String)
  | condition (text : String)
  deriving DecidableEq

/-- Why attributes and a key do not form a schema, or lists of attributes do not fit an operation. -/
inductive SchemaFault where
  | noAttributes
  | noKey
  | duplicateAttribute (name : String)
  | repeatedKey (name : String)
  | unevenLists (names domains : Nat)
  | emptyProjection
  | unpairedLists (left right : Nat)
  deriving DecidableEq

/-- A fault of a schema, a row, a literal or a comparison. -/
inductive Fault where
  | unknownAttribute (name : String)
  | unreadable (what : Unreadable)
  | arity (expected found : Nat)
  | typeMismatch (position : Nat) (expected found : Domain)
  | duplicateKey (table : String) (key : Key)
  | incomparable (left right : Domain)
  | schema (fault : SchemaFault)
  deriving DecidableEq

def Unreadable.message : Unreadable → String
  | literal text d => s!"cannot parse '{text}' as {d.name}"
  | domain text => s!"unknown domain '{text}'"
  | indexKind text => s!"unknown index kind '{text}'"
  | comparison text => s!"unsupported comparison operator '{text}'"
  | condition text => s!"malformed condition '{text}'"

def SchemaFault.message : SchemaFault → String
  | noAttributes => "a schema needs at least one attribute"
  | noKey => "a schema needs at least one key attribute"
  | duplicateAttribute name => s!"duplicate attribute name '{name}'"
  | repeatedKey name => s!"key attribute '{name}' listed twice"
  | unevenLists names domains => s!"{names} attribute names but {domains} domains"
  | emptyProjection => "projection needs at least one attribute"
  | unpairedLists left right =>
    s!"join needs equally long, non-empty attribute lists ({left} vs {right})"

namespace Fault

def message : Fault → String
  | unknownAttribute name => s!"unknown attribute '{name}'"
  | unreadable what => "parse error: " ++ what.message
  | arity expected found => s!"type mismatch: expected {expected} values, found {found}"
  | typeMismatch position expected found =>
    s!"type mismatch at position {position}: expected {expected.name}, found {found.name}"
  | duplicateKey table key => s!"duplicate key {Tuple.render key} in table '{table}'"
  | incomparable left right => s!"cannot compare {left.name} with {right.name}"
  | schema fault => "schema error: " ++ fault.message

/-- Whether the fault is about the shape of a row: its length or the domain of a value. -/
def isTypeMismatch : Fault → Bool
  | arity .. => true
  | typeMismatch .. => true
  | _ => false

end Fault

end Relata
