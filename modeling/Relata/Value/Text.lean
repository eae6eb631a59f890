import Relata.Value.Basic
import Relata.Text.Basic
import Relata.Text.Blank
import Relata.Number.Literal
/-!
# The text of values

A value is written without a mark of its domain: integers in decimal, floating-point numbers with
the fewest digits, texts as they are. A literal is read in a given domain. Characters and strings
may be quoted, which keeps white space at their ends.
-/

namespace Relata.Value

def render : Value → String
  | integer n => String.ofList (Numeral.ofInt n.toInt)
  | long n => String.ofList (Numeral.ofInt n.toInt)
  | short n => String.ofList (Numeral.ofInt n.toInt)
  | byte n => String.ofList (Numeral.ofInt n.toInt)
  | double bits => String.ofList (Binary.double.write bits.toNat)
  | float bits => String.ofList (Binary.single.write bits.toNat)
  | character c => String.ofList [c]
  | string s => s

/-- The text between a pair of equal quotes that enclose it; any other text is left as it is. -/
def unquote (s : List Char) : List Char :=
  match s with
  | [] => []
  | c :: rest =>
    if (c = '\'' || c = '"') && rest.getLast? = some c then rest.dropLast else s

/-- The integer as an integer of the given width, if it fits. -/
def fit? (bits : Nat) (n : Int) : Option Int :=
  let half : Int := Nat.pow 2 (bits - 1)
  if -half ≤ n ∧ n < half then some n else none

/-- The value of an integer literal of a domain with the given width. -/
def readInteger? (bits : Nat) (literal : List Char) : Option Int :=
  (Numeral.readInt? literal).bind (fit? bits)

/-- The value a literal denotes in a domain, read after its white space is trimmed. -/
def readTrimmed? (domain : Domain) (literal : List Char) : Option Value :=
  match domain with
  | .integer => (readInteger? 32 literal).map fun n => integer (Int32.ofInt n)
  | .long => (readInteger? 64 literal).map fun n => long (Int64.ofInt n)
  | .short => (readInteger? 16 literal).map fun n => short (Int16.ofInt n)
  | .byte => (readInteger? 8 literal).map fun n => byte (Int8.ofInt n)
  | .double => (Binary.double.read? literal).map fun bits => double bits.toUInt64
  | .float => (Binary.single.read? literal).map fun bits => float bits.toUInt32
  | .character => match unquote literal with
    | [c] => some (character c)
    | _ => none
  | .string => some (string (String.ofList (unquote literal)))

/-- The value a text denotes in a domain. -/
def read? (domain : Domain) (text : String) : Option Value :=
  readTrimmed? domain (Text.trim text.toList)

end Relata.Value
