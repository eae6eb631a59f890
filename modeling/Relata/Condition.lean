import Relata.Schema.Basic
import Relata.Json.Shape
/-!
# Conditions

A condition compares its subject, an attribute, with an operand. Its text is an attribute name, a
comparison and the operand; the comparison is the first run of the characters `=`, `!`, `<` and `>`.
The operand is a literal in a selection, and the name of a right-hand attribute in a join.
-/

namespace Relata

/-- A comparison of two values of one domain. -/
inductive Comparison where
  | eq
  | ne
  | lt
  | le
  | gt
  | ge
  deriving DecidableEq, Repr

namespace Comparison

def all : List Comparison := [eq, ne, lt, le, gt, ge]

/-- Whether values in the given order satisfy the comparison. -/
def holds : Comparison → Ordering → Bool
  | eq, o => o == .eq
  | ne, o => o != .eq
  | lt, o => o == .lt
  | le, o => o != .gt
  | gt, o => o == .gt
  | ge, o => o != .lt

def symbol : Comparison → String
  | eq => "=="
  | ne => "!="
  | lt => "<"
  | le => "<="
  | gt => ">"
  | ge => ">="

def name : Comparison → String
  | eq => "Eq"
  | ne => "Ne"
  | lt => "Lt"
  | le => "Le"
  | gt => "Gt"
  | ge => "Ge"

/-- The comparison with the given symbol. -/
def parse (s : String) : Except Fault Comparison :=
  match all.find? fun c => c.symbol == s with
  | some c => .ok c
  | none => .error (.unreadable (.comparison s))

def toJson (c : Comparison) : Json := Json.ofString c.name

def ofJson? (v : Json) : Option Comparison := v.name?.bind fun s => all.find? fun c => c.name == s

end Comparison

/-- An attribute compared with an operand, both by name. -/
structure Condition where
  subject : String
  comparison : Comparison
  operand : String
  deriving DecidableEq

/-- A column compared with a value. -/
structure BoundCondition where
  column : Nat
  comparison : Comparison
  value : Value
  deriving DecidableEq

namespace Condition

/-- Whether a character belongs to a comparison. -/
def isMark (c : Char) : Bool := c = '=' || c = '!' || c = '<' || c = '>'

/-- The condition that a text spells. -/
def parse (text : String) : Except Fault Condition :=
  let malformed := Fault.unreadable (.condition text)
  let left := text.toList.takeWhile fun c => !isMark c
  let marked := text.toList.dropWhile fun c => !isMark c
  if marked.isEmpty then .error malformed
  else do
    let comparison ← Comparison.parse (String.ofList (marked.takeWhile isMark))
    let subject := Text.trim left
    let operand := Text.trim (marked.dropWhile isMark)
    if subject.isEmpty || subject.any Text.isBlank || operand.isEmpty then .error malformed
    else .ok ⟨String.ofList subject, comparison, String.ofList operand⟩

def render (c : Condition) : String := c.subject ++ " " ++ c.comparison.symbol ++ " " ++ c.operand

def toJson (c : Condition) : Json :=
  Json.record [("attribute", Json.ofString c.subject), ("op", c.comparison.toJson),
    ("operand", Json.ofString c.operand)]

def ofJson? (v : Json) : Option Condition := do
  let fields ← v.fields? ["attribute", "op", "operand"]
  match fields with
  | [subject, comparison, operand] =>
    return ⟨← subject.string?, ← Comparison.ofJson? comparison, ← operand.string?⟩
  | _ => none

/-- The condition on the columns of a schema, with the operand read as a literal in the domain of the
attribute. -/
def bindLiteral (c : Condition) (s : Schema) : Except Fault BoundCondition := do
  let (column, domain) ← s.locate c.subject
  let value ← Value.parse domain c.operand
  return ⟨column, c.comparison, value⟩

/-- The columns of the attribute on the left and of the attribute that the operand names on the right;
their domains must be the same. -/
def bindColumns (c : Condition) (left right : Schema) : Except Fault (Nat × Nat) := do
  let (l, leftDomain) ← left.locate c.subject
  let (r, rightDomain) ← right.locate c.operand
  Value.checkDomains leftDomain rightDomain
  return (l, r)

end Condition

namespace BoundCondition

/-- Whether a row satisfies the condition; a row without the column has no answer. -/
def matches? (c : BoundCondition) (t : Tuple) : Option Bool :=
  (t[c.column]?).map fun v => c.comparison.holds (compare v c.value)

/-- Whether a row has the column and satisfies the condition. -/
def satisfied (c : BoundCondition) (t : Tuple) : Bool := (c.matches? t).getD false

end BoundCondition

end Relata
