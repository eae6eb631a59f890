import Relata.Json.Token
import Relata.Proofs.Escapes
/-!
# The tokens of a written value

The bytes of a value are those of its tokens, one after the other: `lex?_write` says that the lexer
finds exactly these. It asks of the value what a writer gives (`WellSpelled`): its numbers are spelled
by the grammar of numerals, and its strings and names are escaped texts. A numeral has no end of its
own, so after one the lexer stands inside a number that may end there (`Lexer.Settled`), and the byte
that follows ends it.
-/

namespace Relata.Json

mutual

/-- The tokens of a value. -/
def tokens : Json → List Token
  | null => [.null]
  | bool b => [.bool b]
  | number spelling => [.number spelling]
  | string body => [.string body]
  | array [] => [.beginArray, .endArray]
  | array (v :: rest) => .beginArray :: tokens v ++ itemTokens rest
  | object [] => [.beginObject, .endObject]
  | object ((name, v) :: rest) =>
    .beginObject :: .string name :: .colon :: tokens v ++ memberTokens rest

/-- The tokens of the items that follow in an array, up to its end. -/
def itemTokens : List Json → List Token
  | [] => [.endArray]
  | v :: rest => .comma :: tokens v ++ itemTokens rest

/-- The tokens of the members that follow in an object, up to its end. -/
def memberTokens : List (Bytes × Json) → List Token
  | [] => [.endObject]
  | (name, v) :: rest => .comma :: .string name :: .colon :: tokens v ++ memberTokens rest

end

/-- The state after the first byte of a numeral. -/
def NumberState.first? (b : UInt8) : Option NumberState :=
  if b = 0x2D then some .minus
  else if b = 0x30 then some .zero
  else if isDigit b then some .whole
  else none

/-- Bytes that the grammar of numerals allows, up to a place where a numeral may end. -/
def IsNumeral : Bytes → Prop
  | [] => False
  | b :: rest => ∃ first last, NumberState.first? b = some first ∧
      rest.foldlM NumberState.next? first = some last ∧ last.complete = true

/-- A value as a writer spells it. -/
inductive WellSpelled : Json → Prop
  | null : WellSpelled null
  | bool (b : Bool) : WellSpelled (bool b)
  | number {spelling : Bytes} (h : IsNumeral spelling) : WellSpelled (number spelling)
  | string (s : Bytes) : WellSpelled (string (escape s))
  | array {items : List Json} (h : ∀ v ∈ items, WellSpelled v) : WellSpelled (array items)
  | object {members : List (Bytes × Json)} (names : ∀ m ∈ members, ∃ s, m.1 = escape s)
      (h : ∀ m ∈ members, WellSpelled m.2) : WellSpelled (object members)

/-- A lexer that has read whole tokens, last one first: it stands between tokens, or inside a number
that may end there. -/
inductive Lexer.Settled : Lexer → List Token → Prop
  | between (tokens : List Token) : Settled ⟨.between, tokens⟩ tokens
  | number {state : NumberState} {spelling : Bytes} {tokens : List Token}
      (h : state.complete = true) :
      Settled ⟨.number state spelling, tokens⟩ (.number spelling.reverse :: tokens)

/-- A text after which the lexer has the given tokens and stands between tokens. -/
def Reaches (text : Bytes) (tokens : List Token) : Prop :=
  ∀ before, text.foldlM Lexer.step ⟨.between, before⟩ = some ⟨.between, tokens.reverse ++ before⟩

/-- A text after which the lexer has the given tokens. -/
def Passes (text : Bytes) (tokens : List Token) : Prop :=
  ∀ before, ∃ lexer, text.foldlM Lexer.step ⟨.between, before⟩ = some lexer ∧
    lexer.Settled (tokens.reverse ++ before)

/-- A byte that is a token and ends a number. -/
inductive Mark : UInt8 → Token → Prop
  | comma : Mark 0x2C .comma
  | endArray : Mark 0x5D .endArray
  | endObject : Mark 0x7D .endObject

/-! ## Texts one after the other -/

theorem Reaches.passes {text : Bytes} {ts : List Token} (h : Reaches text ts) : Passes text ts :=
  fun before => ⟨_, h before, .between _⟩

theorem Reaches.append {s t : Bytes} {ss ts : List Token} (hs : Reaches s ss) (ht : Reaches t ts) :
    Reaches (s ++ t) (ss ++ ts) := by
  intro before
  rw [List.foldlM_append, hs before]
  show t.foldlM Lexer.step ⟨.between, ss.reverse ++ before⟩ = _
  rw [ht, List.reverse_append, List.append_assoc]

theorem Reaches.append_passes {s t : Bytes} {ss ts : List Token} (hs : Reaches s ss)
    (ht : Passes t ts) : Passes (s ++ t) (ss ++ ts) := by
  intro before
  obtain ⟨lexer, hl, settled⟩ := ht (ss.reverse ++ before)
  refine ⟨lexer, ?_, ?_⟩
  · rw [List.foldlM_append, hs before]
    exact hl
  · rwa [List.reverse_append, List.append_assoc]

theorem Mark.start {b : UInt8} {token : Token} (m : Mark b token) (lexer : Lexer) :
    lexer.start b = some ⟨.between, token :: lexer.tokens⟩ := by
  cases m <;> rfl

theorem Mark.next? {b : UInt8} {token : Token} (m : Mark b token) (state : NumberState) :
    state.next? b = none := by
  cases m <;> cases state <;> rfl

/-- A mark ends a number that may end there, and is a token of its own. -/
theorem Passes.mark {text : Bytes} {ts : List Token} (h : Passes text ts) {b : UInt8} {token : Token}
    (m : Mark b token) : Reaches (text ++ [b]) (ts ++ [token]) := by
  intro before
  obtain ⟨lexer, hl, settled⟩ := h before
  rw [List.foldlM_append, hl, List.reverse_append, List.reverse_singleton, List.singleton_append,
    List.cons_append]
  generalize ts.reverse ++ before = all at settled
  show (lexer.step b).bind some = _
  cases settled with
  | between => rw [Lexer.step, m.start]; rfl
  | number hc =>
    -- The mark does not go on with the number, so the lexer puts the number down and starts again.
    simp only [Lexer.step, m.next?, hc, if_true, m.start]
    rfl

/-! ## Single tokens -/

/-- An escaped byte stays inside its string. -/
theorem foldlM_escapeByte_string (b : UInt8) (body : Bytes) (before : List Token) :
    (escapeByte b).foldlM Lexer.step ⟨.string body, before⟩ =
      some ⟨.string ((escapeByte b).reverse ++ body), before⟩ := by
  obtain ⟨l, he, hb, hu⟩ | ⟨high, low, he, -, hh, hl⟩ | ⟨he, hc, hq, hs⟩ := escapeByte_cases b
  · simp [he, List.foldlM_cons, Lexer.step, hb, hu]
  · have zero : hexValue? 0x30 = some 0 := rfl
    simp [he, List.foldlM_cons, Lexer.step, hh, hl, zero]
  · simp [he, List.foldlM_cons, Lexer.step, hc, hq, hs]

theorem foldlM_escape_string (s body : Bytes) (before : List Token) :
    (escape s).foldlM Lexer.step ⟨.string body, before⟩ =
      some ⟨.string ((escape s).reverse ++ body), before⟩ := by
  induction s generalizing body with
  | nil => rfl
  | cons b s ih =>
    have split : escape (b :: s) = escapeByte b ++ escape s := List.flatMap_cons
    rw [split, List.foldlM_append, foldlM_escapeByte_string]
    show (escape s).foldlM Lexer.step ⟨.string ((escapeByte b).reverse ++ body), before⟩ = _
    rw [ih, List.reverse_append, List.append_assoc]

theorem reaches_string (s : Bytes) : Reaches (0x22 :: escape s ++ [0x22]) [.string (escape s)] := by
  intro before
  show ((escape s) ++ [0x22]).foldlM Lexer.step ⟨.string [], before⟩ = _
  rw [List.foldlM_append, foldlM_escape_string]
  show some (Lexer.push ⟨_, before⟩ (.string ((escape s).reverse ++ []).reverse)) = _
  rw [List.append_nil, List.reverse_reverse]
  rfl

theorem mem_of_isDigit {b : UInt8} (h : isDigit b = true) :
    b ∈ ([0x30, 0x31, 0x32, 0x33, 0x34, 0x35, 0x36, 0x37, 0x38, 0x39] : Bytes) := by
  have all : ∀ n < 58, 48 ≤ n → n.toUInt8 ∈
      ([0x30, 0x31, 0x32, 0x33, 0x34, 0x35, 0x36, 0x37, 0x38, 0x39] : Bytes) := by decide
  simp only [isDigit, Bool.and_eq_true, decide_eq_true_eq] at h
  have low : 48 ≤ b.toNat := h.1
  have high : b.toNat ≤ 57 := h.2
  have hb := all b.toNat (by omega) low
  rwa [Nat.toUInt8_eq, UInt8.ofNat_toNat] at hb

/-- The byte that begins a numeral begins a number. -/
theorem start_first? {b : UInt8} {state : NumberState} (h : NumberState.first? b = some state)
    (before : List Token) :
    Lexer.start ⟨.between, before⟩ b = some ⟨.number state [b], before⟩ := by
  unfold NumberState.first? at h
  split_ifs at h with minus zero digit <;> cases h
  · subst b; rfl
  · subst b; rfl
  · have := mem_of_isDigit digit
    simp only [List.mem_cons, List.not_mem_nil, or_false] at this
    rcases this with rfl | rfl | rfl | rfl | rfl | rfl | rfl | rfl | rfl | rfl
    · exact absurd rfl zero
    all_goals rfl

theorem foldlM_next? {rest spelling : Bytes} {state last : NumberState}
    (h : rest.foldlM NumberState.next? state = some last) (before : List Token) :
    rest.foldlM Lexer.step ⟨.number state spelling, before⟩ =
      some ⟨.number last (rest.reverse ++ spelling), before⟩ := by
  induction rest generalizing state spelling with
  | nil => cases h; rfl
  | cons b rest ih =>
    cases hn : state.next? b with
    | none => rw [List.foldlM_cons, hn] at h; cases h
    | some next =>
      rw [List.foldlM_cons, hn] at h
      have step : Lexer.step ⟨.number state spelling, before⟩ b =
          some ⟨.number next (b :: spelling), before⟩ := by simp only [Lexer.step, hn]
      rw [List.foldlM_cons, step]
      show rest.foldlM Lexer.step ⟨.number next (b :: spelling), before⟩ = _
      rw [ih h, List.reverse_cons, List.append_assoc, List.singleton_append]

theorem passes_number {spelling : Bytes} (h : IsNumeral spelling) :
    Passes spelling [.number spelling] := by
  intro before
  match spelling, h with
  | b :: rest, ⟨first, last, hb, hr, hc⟩ =>
    refine ⟨⟨.number last (rest.reverse ++ [b]), before⟩, ?_, ?_⟩
    · rw [List.foldlM_cons]
      show (Lexer.start ⟨.between, before⟩ b).bind _ = _
      rw [start_first? hb]
      exact foldlM_next? hr before
    · have settled : Lexer.Settled ⟨.number last (rest.reverse ++ [b]), before⟩
          (.number (rest.reverse ++ [b]).reverse :: before) := .number hc
      rwa [List.reverse_append, List.reverse_reverse] at settled

/-! ## Values -/

theorem Passes.items {items : List Json} (h : ∀ v ∈ items, Passes v.write v.tokens) {text : Bytes}
    {ts : List Token} (ht : Passes text ts) :
    Reaches (text ++ writeItems items) (ts ++ itemTokens items) := by
  induction items generalizing text ts with
  | nil => exact ht.mark .endArray
  | cons v rest ih =>
    -- The comma ends the item before it, which may be a number.
    have hv : Passes (text ++ [0x2C] ++ v.write) (ts ++ [.comma] ++ v.tokens) :=
      (ht.mark .comma).append_passes (h v List.mem_cons_self)
    have all := ih (fun w hw => h w (List.mem_cons_of_mem v hw)) hv
    rw [writeItems, itemTokens]
    simpa only [List.append_assoc, List.cons_append, List.nil_append] using all

/-- The name of a member and the colon behind it. -/
theorem reaches_name (s : Bytes) :
    Reaches (0x22 :: escape s ++ [0x22, 0x3A]) [.string (escape s), .colon] := by
  have colon : Reaches [0x3A] [.colon] := fun _ => rfl
  have all := (reaches_string s).append colon
  simpa only [List.append_assoc, List.cons_append, List.nil_append] using all

theorem Passes.members {members : List (Bytes × Json)} (names : ∀ m ∈ members, ∃ s, m.1 = escape s)
    (h : ∀ m ∈ members, Passes m.2.write m.2.tokens) {text : Bytes} {ts : List Token}
    (ht : Passes text ts) : Reaches (text ++ writeMembers members) (ts ++ memberTokens members) := by
  induction members generalizing text ts with
  | nil => exact ht.mark .endObject
  | cons m rest ih =>
    obtain ⟨name, v⟩ := m
    obtain ⟨s, rfl⟩ : ∃ s, name = escape s := names _ List.mem_cons_self
    have hv := ((ht.mark .comma).append (reaches_name s)).append_passes (h _ List.mem_cons_self)
    have all := ih (fun m hm => names m (List.mem_cons_of_mem _ hm))
      (fun m hm => h m (List.mem_cons_of_mem _ hm)) hv
    rw [writeMembers, memberTokens]
    simpa only [List.append_assoc, List.cons_append, List.nil_append] using all

/-- The lexer finds the tokens of a value in its bytes. -/
theorem passes_write {v : Json} (h : v.WellSpelled) : Passes v.write v.tokens := by
  induction h with
  | null =>
    have : Reaches (write null) [.null] := fun _ => rfl
    exact this.passes
  | bool b =>
    have : Reaches (write (bool b)) [.bool b] := by cases b <;> exact fun _ => rfl
    exact this.passes
  | number h => exact passes_number h
  | string s => exact (reaches_string s).passes
  | @array items _ ih =>
    have start : Reaches [0x5B] [.beginArray] := fun _ => rfl
    cases items with
    | nil =>
      have : Reaches (write (array [])) [.beginArray, .endArray] := fun _ => rfl
      exact this.passes
    | cons v rest =>
      have hv := start.append_passes (ih v List.mem_cons_self)
      have all := hv.items fun w hw => ih w (List.mem_cons_of_mem v hw)
      rw [write, tokens]
      exact all.passes
  | @object members names _ ih =>
    have start : Reaches [0x7B] [.beginObject] := fun _ => rfl
    cases members with
    | nil =>
      have : Reaches (write (object [])) [.beginObject, .endObject] := fun _ => rfl
      exact this.passes
    | cons m rest =>
      obtain ⟨name, v⟩ := m
      obtain ⟨s, rfl⟩ : ∃ s, name = escape s := names _ List.mem_cons_self
      have hv := (start.append (reaches_name s)).append_passes (ih _ List.mem_cons_self)
      have all := (hv.members (fun m hm => names m (List.mem_cons_of_mem _ hm))
        fun m hm => ih m (List.mem_cons_of_mem _ hm)).passes
      rw [write, tokens]
      simpa only [List.append_assoc, List.cons_append, List.nil_append] using all

/-- The lexer finds exactly the tokens of a value in its bytes. -/
theorem lex?_write {v : Json} (h : v.WellSpelled) : lex? v.write = some v.tokens := by
  obtain ⟨lexer, hl, settled⟩ := passes_write h []
  rw [lex?, hl, Option.bind_some]
  rw [List.append_nil] at settled
  generalize ht : v.tokens.reverse = all at settled
  have back : v.tokens = all.reverse := by rw [← ht, List.reverse_reverse]
  rw [back]
  cases settled with
  | between => rfl
  | number hc => simp only [Lexer.finish, hc, if_true, Lexer.push]

end Relata.Json
