import Relata.Json.Reader
import Relata.Number.Numeral
/-!
# Shapes of JSON values

Readers of the shapes that records, variants and numbers take. A record is an object with exactly
one member for each of its fields, in any order and among others that are ignored, or an array of
all its fields in order. A variant is an object with one member, and a variant without a payload may
also be its bare name.
-/

namespace Relata.Json

/-- The text of a JSON string, if its bytes and escapes are well-formed Unicode. -/
def string? : Json → Option String
  | string body => (unescape? body).bind Bytes.utf8?
  | _ => none

/-- The integer of a JSON number without a fraction or an exponent. Negative zero is no integer. -/
def int? : Json → Option Int
  | number spelling =>
    if spelling = ascii ['-', '0'] then none
    else Numeral.readInt? (spelling.map fun b => Char.ofNat b.toNat)
  | _ => none

def items? : Json → Option (List Json)
  | array items => some items
  | _ => none

def strings? (v : Json) : Option (List String) := v.items?.bind fun items => items.mapM string?

/-- The members of a JSON object with their names as texts. -/
def members? : Json → Option (List (String × Json))
  | object members => members.mapM fun m => ((unescape? m.1).bind Bytes.utf8?).map fun name => (name, m.2)
  | _ => none

/-- The only value under a name. -/
def unique? (members : List (String × Json)) (name : String) : Option Json :=
  match members.filter fun m => m.1 == name with
  | [m] => some m.2
  | _ => none

/-- The fields of a record, in the order of the given names. -/
def fields? (names : List String) (v : Json) : Option (List Json) :=
  match v with
  | array items => if items.length = names.length then some items else none
  | _ => v.members?.bind fun members => names.mapM (unique? members)

/-- The name and the payload of a variant. -/
def variant? (v : Json) : Option (String × Json) :=
  match v.members? with
  | some [m] => some m
  | _ => none

/-- The name of a variant without a payload. -/
def name? (v : Json) : Option String :=
  match v with
  | string _ => v.string?
  | _ => match v.variant? with
    | some (name, null) => some name
    | _ => none

end Relata.Json
