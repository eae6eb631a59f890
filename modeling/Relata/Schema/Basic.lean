import Relata.Value.Literal
/-!
# Schemas

A schema is a list of attributes and a primary key. Attribute names are distinct, and the key is a
non-empty list of distinct attribute names. `Schema.build` is the only way to make one: it reports
the first fault, in a fixed order, and `build_eq_ok_iff` says that it accepts exactly the valid pairs.
-/

namespace Relata

/-- A named column and the domain of its values. -/
structure Attribute where
  name : String
  domain : Domain
  deriving DecidableEq

/-- What makes a list of attributes and a key a schema. -/
structure Schema.Valid (attributes : List Attribute) (key : List String) : Prop where
  attributes_ne_nil : attributes ≠ []
  key_ne_nil : key ≠ []
  names_nodup : (attributes.map Attribute.name).Nodup
  key_nodup : key.Nodup
  key_subset : ∀ k ∈ key, k ∈ attributes.map Attribute.name

/-- The attributes of a table and its primary key. -/
structure Schema where
  attributes : List Attribute
  key : List String
  valid : Schema.Valid attributes key

namespace Schema

theorem eq_of_attributes_key {s t : Schema} (ha : s.attributes = t.attributes) (hk : s.key = t.key) :
    s = t := by
  cases s; cases t; cases ha; cases hk; rfl

instance : DecidableEq Schema := fun s t =>
  if ha : s.attributes = t.attributes then
    if hk : s.key = t.key then isTrue (eq_of_attributes_key ha hk)
    else isFalse fun h => hk (h ▸ rfl)
  else isFalse fun h => ha (h ▸ rfl)

/-! ## Building -/

/-- The first name that occurs among those seen before it. -/
def repeated? : (seen : List String) → List String → Option String
  | _, [] => none
  | seen, n :: rest => if n ∈ seen then some n else repeated? (n :: seen) rest

/-- The first fault of a key: a name that is no attribute's, or one listed before. -/
def keyFault? (names : List String) : (seen : List String) → List String → Option Fault
  | _, [] => none
  | seen, k :: rest =>
    if k ∉ names then some (.unknownAttribute k)
    else if k ∈ seen then some (.schema (.repeatedKey k))
    else keyFault? names (k :: seen) rest

/-- The first fault of attributes and a key. -/
def fault? (attributes : List Attribute) (key : List String) : Option Fault :=
  if attributes = [] then some (.schema .noAttributes)
  else if key = [] then some (.schema .noKey)
  else match repeated? [] (attributes.map Attribute.name) with
    | some n => some (.schema (.duplicateAttribute n))
    | none => keyFault? (attributes.map Attribute.name) [] key

theorem repeated?_eq_none_iff (seen l : List String) :
    repeated? seen l = none ↔ l.Nodup ∧ ∀ n ∈ l, n ∉ seen := by
  induction l generalizing seen with
  | nil => simp [repeated?]
  | cons n rest ih =>
    by_cases h : n ∈ seen
    · simp [repeated?, h]
    · simp only [repeated?, h, if_false, ih, List.nodup_cons, List.mem_cons, not_or]
      constructor
      · rintro ⟨hnd, hall⟩
        exact ⟨⟨fun hm => (hall n hm).1 rfl, hnd⟩, by
          rintro m (rfl | hm)
          · exact h
          · exact (hall m hm).2⟩
      · rintro ⟨⟨hn, hnd⟩, hall⟩
        exact ⟨hnd, fun m hm => ⟨fun e => hn (e ▸ hm), hall m (.inr hm)⟩⟩

theorem keyFault?_eq_none_iff (names seen l : List String) :
    keyFault? names seen l = none ↔ l.Nodup ∧ (∀ k ∈ l, k ∉ seen) ∧ ∀ k ∈ l, k ∈ names := by
  induction l generalizing seen with
  | nil => simp [keyFault?]
  | cons k rest ih =>
    by_cases hk : k ∈ names
    · by_cases hs : k ∈ seen
      · simp [keyFault?, hk, hs]
      · simp only [keyFault?, hk, hs, not_true, if_false, ih, List.nodup_cons, List.mem_cons, not_or]
        constructor
        · rintro ⟨hnd, hall, hin⟩
          refine ⟨⟨fun hm => (hall k hm).1 rfl, hnd⟩, ?_, ?_⟩
          · rintro m (rfl | hm)
            · exact hs
            · exact (hall m hm).2
          · rintro m (rfl | hm)
            · exact hk
            · exact hin m hm
        · rintro ⟨⟨hn, hnd⟩, hall, hin⟩
          exact ⟨hnd, fun m hm => ⟨fun e => hn (e ▸ hm), hall m (.inr hm)⟩, fun m hm => hin m (.inr hm)⟩
    · simp [keyFault?, hk]

/-- Nothing is at fault exactly in valid attributes and keys. -/
theorem fault?_eq_none_iff (attributes : List Attribute) (key : List String) :
    fault? attributes key = none ↔ Valid attributes key := by
  unfold fault?
  by_cases ha : attributes = []
  · simp only [ha, if_true, reduceCtorEq, false_iff]
    exact fun v => v.attributes_ne_nil rfl
  · by_cases hk : key = []
    · simp only [ha, hk, if_false, if_true, reduceCtorEq, false_iff]
      exact fun v => v.key_ne_nil rfl
    · simp only [ha, hk, if_false]
      cases hr : repeated? [] (attributes.map Attribute.name) with
      | some n =>
        simp only [reduceCtorEq, false_iff]
        intro v
        have := (repeated?_eq_none_iff [] _).2 ⟨v.names_nodup, by simp⟩
        simp [hr] at this
      | none =>
        have hn := ((repeated?_eq_none_iff [] _).1 hr).1
        simp only [keyFault?_eq_none_iff]
        exact ⟨fun ⟨h₁, _, h₂⟩ => ⟨ha, hk, hn, h₁, h₂⟩, fun v => ⟨v.key_nodup, by simp, v.key_subset⟩⟩

/-- The schema of attributes and a key, or their first fault. -/
def build (attributes : List Attribute) (key : List String) : Except Fault Schema :=
  match h : fault? attributes key with
  | some fault => .error fault
  | none => .ok ⟨attributes, key, (fault?_eq_none_iff attributes key).1 h⟩

theorem build_eq_ok_iff (attributes : List Attribute) (key : List String) (s : Schema) :
    build attributes key = .ok s ↔ s.attributes = attributes ∧ s.key = key := by
  unfold build
  split
  · next fault h =>
    simp only [reduceCtorEq, false_iff]
    rintro ⟨rfl, rfl⟩
    simp [(fault?_eq_none_iff _ _).2 s.valid] at h
  · next h =>
    rw [Except.ok.injEq]
    exact ⟨fun e => e ▸ ⟨rfl, rfl⟩, fun ⟨ha, hk⟩ => eq_of_attributes_key ha.symm hk.symm⟩

theorem build_eq_error_iff (attributes : List Attribute) (key : List String) (fault : Fault) :
    build attributes key = .error fault ↔ fault? attributes key = some fault := by
  unfold build
  split
  · next f h => simp [h]
  · next h => simp [h]

/-! ## Attributes and columns -/

def names (s : Schema) : List String := s.attributes.map Attribute.name

def domains (s : Schema) : List Domain := s.attributes.map Attribute.domain

def arity (s : Schema) : Nat := s.attributes.length

/-- The column of a name. -/
def column? (s : Schema) (name : String) : Option Nat :=
  s.attributes.findIdx? fun a => a.name == name

/-- The columns of the key, in key order. -/
def keyColumns (s : Schema) : List Nat := s.key.filterMap s.column?

/-- The column of a name, which must be an attribute's. -/
def column (s : Schema) (name : String) : Except Fault Nat :=
  match s.column? name with
  | some c => .ok c
  | none => .error (.unknownAttribute name)

/-- The columns of names, in the order of the names. -/
def columns (s : Schema) (names : List String) : Except Fault (List Nat) := names.mapM s.column

/-- The column of a name and its domain. -/
def locate (s : Schema) (name : String) : Except Fault (Nat × Domain) :=
  match s.column? name with
  | some c => match s.attributes[c]? with
    | some a => .ok (c, a.domain)
    | none => .error (.unknownAttribute name)
  | none => .error (.unknownAttribute name)

/-- The first value, from a position on, whose domain is not its attribute's. -/
def mismatch? : (position : Nat) → List Value → List Attribute → Option Fault
  | position, v :: values, a :: attributes =>
    if v.domain = a.domain then mismatch? (position + 1) values attributes
    else some (.typeMismatch position a.domain v.domain)
  | _, _, _ => none

/-- Whether a row has a value of the right domain for each attribute. -/
def check (s : Schema) (values : List Value) : Except Fault Unit :=
  if values.length ≠ s.arity then .error (.arity s.arity values.length)
  else match mismatch? 0 values s.attributes with
    | some fault => .error fault
    | none => .ok ()

/-- The key of a row. -/
def keyOf (s : Schema) (t : Tuple) : Key := t.project s.keyColumns

/-- Whether two schemas have the same domains in the same order; names may differ. -/
def unionCompatible (s t : Schema) : Bool := s.domains == t.domains

/-- The schema with the named attributes in the given order. The key stays when the names cover it;
otherwise all of them become the key, which need not be unique. -/
def restrict (s : Schema) (names : List String) : Except Fault Schema :=
  if names = [] then .error (.schema .emptyProjection)
  else do
    let columns ← s.columns names
    let attributes := columns.filterMap fun c => s.attributes[c]?
    build attributes (if s.key.all names.contains then s.key else names)

/-! ## Spelling -/

/-- The attributes with the given names and domains, one of each. -/
def pair (names : List String) (domains : List Domain) : List Attribute :=
  List.zipWith Attribute.mk names domains

/-- The schema that lists of names and domains spell, with a key. -/
def ofLists (names : List String) (domains : List Domain) (key : List String) : Except Fault Schema :=
  if names.length ≠ domains.length then .error (.schema (.unevenLists names.length domains.length))
  else build (pair names domains) key

/-- The schema that words separated by white space spell: attribute names, domain spellings and key
names. -/
def ofWords (attributes domains key : String) : Except Fault Schema := do
  let domains ← (Text.words domains).mapM Domain.parse
  ofLists (Text.words attributes) domains (Text.words key)

def render (s : Schema) : String :=
  "(" ++ Text.joined ", " (s.attributes.map fun a => a.name ++ ": " ++ a.domain.name) ++ ") key ("
    ++ Text.joined ", " s.key ++ ")"

end Schema

end Relata
