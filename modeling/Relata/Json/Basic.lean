import Relata.Bytes
/-!
# JSON values

A JSON value keeps its numbers and strings as they are spelled. What a spelling means is asked only
where a value is used, so a part that nobody reads may hold a number of any size or a text that is
not well-formed Unicode. Values are written without white space.
-/

namespace Relata

/-- A JSON value. A number is the bytes of its numeral, a string the bytes between its quotes. -/
inductive Json where
  | null
  | bool (b : Bool)
  | number (spelling : Bytes)
  | string (body : Bytes)
  | array (items : List Json)
  | object (members : List (Bytes × Json))

namespace Json

/-- The bytes of a text of ASCII characters. -/
def ascii (s : List Char) : Bytes := s.map fun c => c.toNat.toUInt8

/-! ## Strings -/

/-- The digit of a number below sixteen, in lower case. -/
def hexDigit (n : Nat) : UInt8 := (if n < 10 then 0x30 + n else 0x57 + n).toUInt8

/-- The letter that stands behind a backslash for a byte, for the bytes that have one. -/
def letterOf? (b : UInt8) : Option UInt8 :=
  if b = 0x22 then some 0x22
  else if b = 0x5C then some 0x5C
  else if b = 0x08 then some 0x62
  else if b = 0x09 then some 0x74
  else if b = 0x0A then some 0x6E
  else if b = 0x0C then some 0x66
  else if b = 0x0D then some 0x72
  else none

/-- A byte of a text as it stands between quotes: a quote, a backslash and the control characters
are escaped, every other byte stands for itself. -/
def escapeByte (b : UInt8) : Bytes :=
  match letterOf? b with
  | some l => [0x5C, l]
  | none =>
    if b < 0x20 then [0x5C, 0x75, 0x30, 0x30, hexDigit (b.toNat / 16), hexDigit (b.toNat % 16)]
    else [b]

/-- The bytes of a text as they stand between quotes. -/
def escape (s : Bytes) : Bytes := s.flatMap escapeByte

/-- The JSON string of a text. -/
def ofString (s : String) : Json := string (escape (Bytes.utf8 s))

/-- The byte an escape letter stands for. -/
def byteOf? (letter : UInt8) : Option UInt8 :=
  if letter = 0x22 then some 0x22
  else if letter = 0x5C then some 0x5C
  else if letter = 0x2F then some 0x2F
  else if letter = 0x62 then some 0x08
  else if letter = 0x74 then some 0x09
  else if letter = 0x6E then some 0x0A
  else if letter = 0x66 then some 0x0C
  else if letter = 0x72 then some 0x0D
  else none

/-- The value of a hexadecimal digit of either case. -/
def hexValue? (b : UInt8) : Option Nat :=
  if 0x30 ≤ b && b ≤ 0x39 then some (b.toNat - 0x30)
  else if 0x41 ≤ b && b ≤ 0x46 then some (b.toNat - 0x37)
  else if 0x61 ≤ b && b ≤ 0x66 then some (b.toNat - 0x57)
  else none

/-- Where the reader of a string body stands between two bytes. -/
inductive BodyState where
  /-- At a byte of its own. -/
  | plain
  /-- After a backslash. -/
  | backslash
  /-- Inside a code unit, with the digits read so far and the number still owed. -/
  | unit (value owed : Nat)

/-- A partly read string body: the text so far, last byte first, and the first half of a surrogate
pair whose second half is owed. -/
structure Body where
  state : BodyState
  half : Option Nat
  done : Bytes

/-- The body after a complete 16-bit code unit. A surrogate must be one half of a pair. -/
def Body.unit (body : Body) (u : Nat) : Option Body :=
  let push (n : Nat) : Body :=
    ⟨.plain, none, (Bytes.utf8 (String.ofList [Char.ofNat n])).reverse ++ body.done⟩
  let isSecond := 0xDC00 ≤ u && u < 0xE000
  match body.half with
  | some h => if isSecond then some (push (0x10000 + (h - 0xD800) * 0x400 + (u - 0xDC00))) else none
  | none =>
    if isSecond then none
    else if 0xD800 ≤ u && u < 0xDC00 then some ⟨.plain, some u, body.done⟩
    else some (push u)

/-- The body after one more byte. -/
def Body.step (body : Body) (b : UInt8) : Option Body :=
  match body.state with
  | .plain =>
    if b = 0x5C then some { body with state := .backslash }
    else if body.half.isSome then none
    else some { body with done := b :: body.done }
  | .backslash =>
    if b = 0x75 then some { body with state := .unit 0 4 }
    else if body.half.isSome then none
    else (byteOf? b).map fun c => { body with state := .plain, done := c :: body.done }
  | .unit value owed =>
    match hexValue? b with
    | none => none
    | some d => if owed ≤ 1 then body.unit (16 * value + d)
      else some { body with state := .unit (16 * value + d) (owed - 1) }

/-- The bytes of the text that a string body spells. -/
def unescape? (body : Bytes) : Option Bytes :=
  match body.foldlM Body.step ⟨.plain, none, []⟩ with
  | some ⟨.plain, none, done⟩ => some done.reverse
  | _ => none

/-! ## Writing -/

/-- The JSON number of an integer. -/
def ofNumeral (numeral : List Char) : Json := number (ascii numeral)

/-- The JSON object with the given members in the given order. -/
def record (members : List (String × Json)) : Json :=
  object (members.map fun m => (escape (Bytes.utf8 m.1), m.2))

/-- The JSON array of texts. -/
def ofStrings (l : List String) : Json := array (l.map ofString)

mutual

/-- The bytes of a value. -/
def write : Json → Bytes
  | null => ascii ['n', 'u', 'l', 'l']
  | bool true => ascii ['t', 'r', 'u', 'e']
  | bool false => ascii ['f', 'a', 'l', 's', 'e']
  | number spelling => spelling
  | string body => 0x22 :: body ++ [0x22]
  | array [] => [0x5B, 0x5D]
  | array (v :: rest) => 0x5B :: write v ++ writeItems rest
  | object [] => [0x7B, 0x7D]
  | object ((name, v) :: rest) => 0x7B :: 0x22 :: name ++ 0x22 :: 0x3A :: write v ++ writeMembers rest

/-- The bytes of the items that follow in an array, up to its end. -/
def writeItems : List Json → Bytes
  | [] => [0x5D]
  | v :: rest => 0x2C :: write v ++ writeItems rest

/-- The bytes of the members that follow in an object, up to its end. -/
def writeMembers : List (Bytes × Json) → Bytes
  | [] => [0x7D]
  | (name, v) :: rest => 0x2C :: 0x22 :: name ++ 0x22 :: 0x3A :: write v ++ writeMembers rest

end

/-- The text of a value. -/
def text (v : Json) : String := (Bytes.utf8? v.write).getD ""

end Json

end Relata
