import Relata.Json.Reader
import Relata.Proofs.Tokens
/-!
# Reading what is written

From the tokens of a value the reader makes that value (`ofTokens?_tokens`), at any depth and whatever
is open around it. With the tokens that the lexer finds, a well-spelled value is read back from its
bytes (`read?_write`).
-/

namespace Relata.Json

/-- The tokens of a value begin with one that ends no array. -/
theorem tokens_eq_cons (v : Json) : ∃ t rest, v.tokens = t :: rest ∧ t ≠ .endArray := by
  match v with
  | null => exact ⟨_, _, rfl, nofun⟩
  | bool b => exact ⟨_, _, rfl, nofun⟩
  | number s => exact ⟨_, _, rfl, nofun⟩
  | string s => exact ⟨_, _, rfl, nofun⟩
  | array [] => exact ⟨_, _, rfl, nofun⟩
  | array (v :: rest) => exact ⟨_, _, rfl, nofun⟩
  | object [] => exact ⟨_, _, rfl, nofun⟩
  | object ((name, v) :: rest) => exact ⟨_, _, rfl, nofun⟩

/-- Where an array may end or begin its first item, a value is read as that item. -/
theorem foldlM_firstItem (v : Json) (frames : List Frame) :
    v.tokens.foldlM Reader.step ⟨.firstItem, frames⟩ =
      v.tokens.foldlM Reader.step ⟨.value, .items [] :: frames⟩ := by
  obtain ⟨t, rest, ht, hne⟩ := tokens_eq_cons v
  -- Only the first token can tell the two places apart, and only if it ends the array.
  have step : Reader.step ⟨.firstItem, frames⟩ t = Reader.step ⟨.value, .items [] :: frames⟩ t := by
    cases t <;> first | rfl | exact absurd rfl hne
  rw [ht, List.foldlM_cons, List.foldlM_cons, step]

mutual

/-- The tokens of a value are read as that value, and what is open around it stays open. -/
theorem foldlM_tokens (v : Json) (frames : List Frame) :
    v.tokens.foldlM Reader.step ⟨.value, frames⟩ = some ⟨.rest v, frames⟩ := by
  match v with
  | null => rfl
  | bool b => rfl
  | number s => rfl
  | string s => rfl
  | array [] => rfl
  | array (v :: rest) =>
    rw [tokens, List.cons_append, List.foldlM_cons]
    show (v.tokens ++ itemTokens rest).foldlM Reader.step ⟨.firstItem, frames⟩ = _
    rw [List.foldlM_append, foldlM_firstItem, foldlM_tokens v]
    exact foldlM_itemTokens rest v [] frames
  | object [] => rfl
  | object ((name, v) :: rest) =>
    rw [tokens, List.cons_append, List.cons_append, List.cons_append, List.foldlM_cons]
    show (v.tokens ++ memberTokens rest).foldlM Reader.step ⟨.value, .members [] name :: frames⟩ = _
    rw [List.foldlM_append, foldlM_tokens v]
    exact foldlM_memberTokens rest name v [] frames

/-- After an item, the tokens of the further items are read as those, up to the end of the array. -/
theorem foldlM_itemTokens (items : List Json) (v : Json) (done : List Json) (frames : List Frame) :
    (itemTokens items).foldlM Reader.step ⟨.rest v, .items done :: frames⟩ =
      some ⟨.rest (.array (done.reverse ++ v :: items)), frames⟩ := by
  match items with
  | [] =>
    show some (Reader.mk (.rest (.array (v :: done).reverse)) frames) = _
    rw [List.reverse_cons]
  | w :: rest =>
    rw [itemTokens, List.cons_append, List.foldlM_cons]
    show (w.tokens ++ itemTokens rest).foldlM Reader.step ⟨.value, .items (v :: done) :: frames⟩ = _
    rw [List.foldlM_append, foldlM_tokens w]
    show (itemTokens rest).foldlM Reader.step ⟨.rest w, .items (v :: done) :: frames⟩ = _
    rw [foldlM_itemTokens rest w (v :: done) frames, List.reverse_cons, List.append_assoc,
      List.singleton_append]

/-- After a member, the tokens of the further members are read as those, up to the end of the
object. -/
theorem foldlM_memberTokens (members : List (Bytes × Json)) (name : Bytes) (v : Json)
    (done : List (Bytes × Json)) (frames : List Frame) :
    (memberTokens members).foldlM Reader.step ⟨.rest v, .members done name :: frames⟩ =
      some ⟨.rest (.object (done.reverse ++ (name, v) :: members)), frames⟩ := by
  match members with
  | [] =>
    show some (Reader.mk (.rest (.object ((name, v) :: done).reverse)) frames) = _
    rw [List.reverse_cons]
  | (next, w) :: rest =>
    rw [memberTokens, List.cons_append, List.cons_append, List.cons_append, List.foldlM_cons]
    show (w.tokens ++ memberTokens rest).foldlM Reader.step
      ⟨.value, .members ((name, v) :: done) next :: frames⟩ = _
    rw [List.foldlM_append, foldlM_tokens w]
    show (memberTokens rest).foldlM Reader.step
      ⟨.rest w, .members ((name, v) :: done) next :: frames⟩ = _
    rw [foldlM_memberTokens rest next w ((name, v) :: done) frames, List.reverse_cons,
      List.append_assoc, List.singleton_append]

end

/-- A value is read from its tokens. -/
theorem ofTokens?_tokens (v : Json) : ofTokens? v.tokens = some v := by
  rw [ofTokens?, foldlM_tokens]

/-- A well-spelled value is read back from its bytes. -/
theorem read?_write {v : Json} (h : v.WellSpelled) : read? v.write = some v := by
  rw [read?, lex?_write h, Option.bind_some, ofTokens?_tokens]

end Relata.Json
