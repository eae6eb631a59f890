import Relata.Json.Shape
import Relata.Value.Text
import Relata.Tuple
/-!
# The JSON form of values

A value is a variant named for its domain. Integers are JSON numbers, and so are floating-point
numbers, by their bit pattern: JSON has no spelling for the NaNs and the infinities.
-/

namespace Relata

def Domain.toJson (d : Domain) : Json := Json.ofString d.name

def Domain.ofJson? (v : Json) : Option Domain := v.name?.bind Domain.ofName?

namespace Value

def payloadJson : Value → Json
  | integer n => Json.ofNumeral (Numeral.ofInt n.toInt)
  | long n => Json.ofNumeral (Numeral.ofInt n.toInt)
  | short n => Json.ofNumeral (Numeral.ofInt n.toInt)
  | byte n => Json.ofNumeral (Numeral.ofInt n.toInt)
  | double bits => Json.ofNumeral (Numeral.ofInt bits.toNat)
  | float bits => Json.ofNumeral (Numeral.ofInt bits.toNat)
  | character c => Json.ofString (String.ofList [c])
  | string s => Json.ofString s

def toJson (v : Value) : Json := Json.record [(v.domain.name, v.payloadJson)]

/-- The bit pattern of the given width that a JSON number spells. -/
def patternOf? (width : Nat) (v : Json) : Option Nat :=
  v.int?.bind fun n => if 0 ≤ n ∧ n < Nat.pow 2 width then some n.toNat else none

/-- The value of a domain with the given payload. -/
def ofPayload? (domain : Domain) (v : Json) : Option Value :=
  match domain with
  | .integer => (v.int?.bind (fit? 32)).map fun n => integer (Int32.ofInt n)
  | .long => (v.int?.bind (fit? 64)).map fun n => long (Int64.ofInt n)
  | .short => (v.int?.bind (fit? 16)).map fun n => short (Int16.ofInt n)
  | .byte => (v.int?.bind (fit? 8)).map fun n => byte (Int8.ofInt n)
  | .double => (patternOf? 64 v).map fun bits => double bits.toUInt64
  | .float => (patternOf? 32 v).map fun bits => float bits.toUInt32
  | .character => match v.string?.map String.toList with
    | some [c] => some (character c)
    | _ => none
  | .string => v.string?.map string

def ofJson? (v : Json) : Option Value :=
  v.variant?.bind fun m => (Domain.ofName? m.1).bind fun d => ofPayload? d m.2

end Value

def Tuple.toJson (t : Tuple) : Json := .array (t.map Value.toJson)

def Tuple.ofJson? (v : Json) : Option Tuple := v.items?.bind fun items => items.mapM Value.ofJson?

end Relata
