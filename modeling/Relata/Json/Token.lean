import Relata.Json.Basic
/-!
# JSON tokens

A JSON text is a sequence of tokens with white space between them: space, tab, line feed and carriage
return. The lexer reads one byte at a time. Of a string it checks the form of the escapes only, and
of a number its grammar.
-/

namespace Relata.Json

/-- A token. A number keeps its numeral, a string the bytes between its quotes. -/
inductive Token where
  | beginArray
  | endArray
  | beginObject
  | endObject
  | comma
  | colon
  | null
  | bool (b : Bool)
  | number (spelling : Bytes)
  | string (body : Bytes)
  deriving DecidableEq

/-- How much of a numeral has been read. -/
inductive NumberState where
  /-- A minus sign: a digit is owed. -/
  | minus
  /-- A leading zero, which no digit may follow. -/
  | zero
  /-- Digits before the point. -/
  | whole
  /-- The point: a digit is owed. -/
  | point
  /-- Digits after the point. -/
  | fraction
  /-- The exponent's mark: a sign or a digit is owed. -/
  | mark
  /-- The exponent's sign: a digit is owed. -/
  | sign
  /-- Digits of the exponent. -/
  | power
  deriving DecidableEq

/-- Whether a byte is an ASCII digit. -/
def isDigit (b : UInt8) : Bool := 0x30 ≤ b && b ≤ 0x39

namespace NumberState

/-- Whether the bytes read so far are a whole numeral. -/
def complete : NumberState → Bool
  | zero => true
  | whole => true
  | fraction => true
  | power => true
  | _ => false

/-- The state after a byte that goes on with the numeral; no other byte has one. -/
def next? (state : NumberState) (b : UInt8) : Option NumberState :=
  let isMark := b = 0x65 || b = 0x45
  match state with
  | minus => if b = 0x30 then some zero else if isDigit b then some whole else none
  | zero => if b = 0x2E then some point else if isMark then some mark else none
  | whole =>
    if isDigit b then some whole
    else if b = 0x2E then some point
    else if isMark then some mark
    else none
  | point => if isDigit b then some fraction else none
  | fraction => if isDigit b then some fraction else if isMark then some mark else none
  | mark =>
    if isDigit b then some power else if b = 0x2B || b = 0x2D then some sign else none
  | sign => if isDigit b then some power else none
  | power => if isDigit b then some power else none

end NumberState

/-- Where the lexer stands between two bytes. Spellings are kept last byte first. -/
inductive LexState where
  /-- Between tokens. -/
  | between
  /-- Inside a string. -/
  | string (body : Bytes)
  /-- After a backslash inside a string. -/
  | escape (body : Bytes)
  /-- Inside a code unit of a string, with the number of digits still owed. -/
  | unit (owed : Nat) (body : Bytes)
  /-- Inside a numeral. -/
  | number (state : NumberState) (spelling : Bytes)
  /-- Inside a word, with the bytes still owed and the token it makes. -/
  | word (owed : Bytes) (token : Token)

/-- The lexer: where it stands, and the tokens so far, last one first. -/
structure Lexer where
  state : LexState
  tokens : List Token

/-- The lexer after a whole token. -/
def Lexer.push (lexer : Lexer) (token : Token) : Lexer := ⟨.between, token :: lexer.tokens⟩

/-- The lexer after a byte that stands between tokens or begins one. -/
def Lexer.start (lexer : Lexer) (b : UInt8) : Option Lexer :=
  if b = 0x20 || b = 0x09 || b = 0x0A || b = 0x0D then some { lexer with state := .between }
  else if b = 0x22 then some { lexer with state := .string [] }
  else if b = 0x2C then some (lexer.push .comma)
  else if b = 0x3A then some (lexer.push .colon)
  else if b = 0x5B then some (lexer.push .beginArray)
  else if b = 0x5D then some (lexer.push .endArray)
  else if b = 0x7B then some (lexer.push .beginObject)
  else if b = 0x7D then some (lexer.push .endObject)
  else if b = 0x2D then some { lexer with state := .number .minus [b] }
  else if b = 0x30 then some { lexer with state := .number .zero [b] }
  else if isDigit b then some { lexer with state := .number .whole [b] }
  else if b = 0x6E then some { lexer with state := .word (ascii ['u', 'l', 'l']) .null }
  else if b = 0x74 then some { lexer with state := .word (ascii ['r', 'u', 'e']) (.bool true) }
  else if b = 0x66 then some { lexer with state := .word (ascii ['a', 'l', 's', 'e']) (.bool false) }
  else none

/-- The lexer after one more byte. -/
def Lexer.step (lexer : Lexer) (b : UInt8) : Option Lexer :=
  match lexer.state with
  | .between => lexer.start b
  | .string body =>
    if b = 0x22 then some (lexer.push (.string body.reverse))
    else if b = 0x5C then some { lexer with state := .escape (b :: body) }
    else if b < 0x20 then none
    else some { lexer with state := .string (b :: body) }
  | .escape body =>
    if b = 0x75 then some { lexer with state := .unit 4 (b :: body) }
    else if (byteOf? b).isSome then some { lexer with state := .string (b :: body) }
    else none
  | .unit owed body =>
    if (hexValue? b).isNone then none
    else if owed ≤ 1 then some { lexer with state := .string (b :: body) }
    else some { lexer with state := .unit (owed - 1) (b :: body) }
  | .number state spelling =>
    match state.next? b with
    | some state => some { lexer with state := .number state (b :: spelling) }
    | none =>
      if state.complete then (lexer.push (.number spelling.reverse)).start b else none
  | .word owed token =>
    match owed with
    | [] => none
    | [c] => if b = c then some (lexer.push token) else none
    | c :: rest => if b = c then some { lexer with state := .word rest token } else none

/-- The tokens at the end of a text, unless it ends inside one. -/
def Lexer.finish (lexer : Lexer) : Option (List Token) :=
  match lexer.state with
  | .between => some lexer.tokens.reverse
  | .number state spelling =>
    if state.complete then some (lexer.push (.number spelling.reverse)).tokens.reverse else none
  | _ => none

/-- The tokens of a text. -/
def lex? (text : Bytes) : Option (List Token) :=
  (text.foldlM Lexer.step ⟨.between, []⟩).bind Lexer.finish

end Relata.Json
