import Relata.Json.Token
/-!
# Reading JSON

The reader takes one token at a time. What is open around it lies on a stack of frames, so values may
nest to any depth.
-/

namespace Relata.Json

/-- An open array or object: what it holds so far, last one first. In an object the value of the
named member is owed. -/
inductive Frame where
  | items (done : List Json)
  | members (done : List (Bytes × Json)) (name : Bytes)

/-- What the reader waits for. -/
inductive Expect where
  /-- A value. -/
  | value
  /-- The first item of an array, or its end. -/
  | firstItem
  /-- The name of the first member of an object, or its end. -/
  | firstName
  /-- The name of a further member, after those done. -/
  | name (done : List (Bytes × Json))
  /-- The colon after a member's name. -/
  | colon (done : List (Bytes × Json)) (name : Bytes)
  /-- What follows a whole value. -/
  | rest (value : Json)

/-- The reader: what it waits for, and the frames that are open. -/
structure Reader where
  expect : Expect
  frames : List Frame

/-- The reader after a token that begins a value. -/
def Reader.begin (frames : List Frame) : Token → Option Reader
  | .null => some ⟨.rest .null, frames⟩
  | .bool b => some ⟨.rest (.bool b), frames⟩
  | .number spelling => some ⟨.rest (.number spelling), frames⟩
  | .string body => some ⟨.rest (.string body), frames⟩
  | .beginArray => some ⟨.firstItem, frames⟩
  | .beginObject => some ⟨.firstName, frames⟩
  | _ => none

/-- The reader after one more token. -/
def Reader.step (reader : Reader) (token : Token) : Option Reader :=
  match reader.expect with
  | .value => begin reader.frames token
  | .firstItem =>
    match token with
    | .endArray => some ⟨.rest (.array []), reader.frames⟩
    | _ => begin (.items [] :: reader.frames) token
  | .firstName =>
    match token with
    | .endObject => some ⟨.rest (.object []), reader.frames⟩
    | .string name => some ⟨.colon [] name, reader.frames⟩
    | _ => none
  | .name done =>
    match token with
    | .string name => some ⟨.colon done name, reader.frames⟩
    | _ => none
  | .colon done name =>
    match token with
    | .colon => some ⟨.value, .members done name :: reader.frames⟩
    | _ => none
  | .rest v =>
    match reader.frames, token with
    | .items done :: frames, .comma => some ⟨.value, .items (v :: done) :: frames⟩
    | .items done :: frames, .endArray => some ⟨.rest (.array (v :: done).reverse), frames⟩
    | .members done name :: frames, .comma => some ⟨.name ((name, v) :: done), frames⟩
    | .members done name :: frames, .endObject =>
      some ⟨.rest (.object ((name, v) :: done).reverse), frames⟩
    | _, _ => none

/-- The value that a sequence of tokens spells. -/
def ofTokens? (tokens : List Token) : Option Json :=
  match tokens.foldlM Reader.step ⟨.value, []⟩ with
  | some ⟨.rest v, []⟩ => some v
  | _ => none

/-- The value that a text spells. -/
def read? (text : Bytes) : Option Json := (lex? text).bind ofTokens?

end Relata.Json
