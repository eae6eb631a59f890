import Mathlib.Data.List.Forall2
import Relata.Proofs.PayloadBound
import Relata.Proofs.Reachable
/-!
# How an index is kept does not show

A program of steps on tables is run twice, on a shelf that keeps its base tables under hash indexes and on one
that keeps them under B-trees. After every step the answers are the same, and the tables on the shelves are twins:
only the kind of their indexes and the order of the entries differ (`kind_does_not_show`). One step keeps the
shelves alike (`Alike.step`), and a run does by induction. The kind is part of what is saved, and the name of a
B-tree is one byte longer, so a table that just fits into a snapshot under a hash index does not under a B-tree
(`kind_shows_at_bound`).
-/

namespace Relata

/-! ## Twins -/

namespace Table

/-- A table under a hash index and one under a B-tree that differ in nothing else. -/
structure Twin (t t' : Table) : Prop where
  kinds : t.indexKind = .hash ∧ t'.indexKind = .btree
  name_eq : t.name = t'.name
  schema_eq : t.schema = t'.schema
  tuples_eq : t.tuples = t'.tuples
  find?_eq : ∀ key, t.find? key = t'.find? key
  size_eq : t.index.size = t'.index.size
  entries_perm : t.index.entries.Perm t'.index.entries
  lawful : t.index.Lawful ∧ t'.index.Lawful

/-- Indexes that answer every look-up the same way have the same entries. -/
theorem Twin.of_find? {name : String} {schema : Schema} {tuples : List Tuple} {index index' : Index}
    (hk : index.kind = .hash ∧ index'.kind = .btree) (h : index.Lawful) (h' : index'.Lawful)
    (hf : ∀ key, index.find? key = index'.find? key) :
    Twin ⟨name, schema, tuples, index⟩ ⟨name, schema, tuples, index'⟩ := by
  have same : ∀ key, index.entries.lookup key = index'.entries.lookup key := by
    intro key
    rw [← h.find?_eq_lookup, hf, h'.find?_eq_lookup]
  have perm : index.entries.Perm index'.entries := Entries.perm_of_lookup_eq h.nodup_keys h'.nodup_keys same
  exact ⟨hk, rfl, rfl, rfl, hf, perm.length_eq, perm, h, h'⟩

theorem Twin.exists_index {t t' : Table} (h : t.Twin t') : ∃ index, t' = { t with index } := by
  cases t
  cases t'
  cases h.name_eq
  cases h.schema_eq
  cases h.tuples_eq
  exact ⟨_, rfl⟩

theorem twin_ofTuples (name : String) (schema : Schema) (tuples : List Tuple) :
    (ofTuples name schema .hash tuples).Twin (ofTuples name schema .btree tuples) := by
  apply Twin.of_find?
  · exact ⟨indexKind_ofTuples name schema .hash tuples, indexKind_ofTuples name schema .btree tuples⟩
  · apply lawful_ofTuples name
  · apply lawful_ofTuples name
  · intro key
    exact (find?_ofTuples name schema .hash tuples key).trans (find?_ofTuples name schema .btree tuples key).symm

theorem twin_empty (name : String) (schema : Schema) : (empty name schema .hash).Twin (empty name schema .btree) :=
  twin_ofTuples name schema []

theorem Twin.rename {t t' : Table} (h : t.Twin t') (name : String) : (t.rename name).Twin (t'.rename name) := by
  obtain ⟨hash, btree⟩ := h.kinds
  rw [Table.rename, Table.rename, hash, btree, ← h.schema_eq, ← h.tuples_eq]
  exact twin_ofTuples name t.schema t.tuples

theorem Twin.copy {t t' : Table} (h : t.Twin t') : t.copy.Twin t'.copy := by
  rw [Table.copy, Table.copy, ← h.name_eq]
  exact h.rename t.name

/-- Twins accept the same rows, and stay twins. -/
theorem Twin.insert {t t' : Table} (h : t.Twin t') (row : Tuple) :
    (∃ fault, t.insert row = .error fault ∧ t'.insert row = .error fault)
      ∨ ∃ u u', t.insert row = .ok u ∧ t'.insert row = .ok u' ∧ u.Twin u' := by
  obtain ⟨index', rfl⟩ := h.exists_index
  obtain ⟨hl, hl'⟩ := h.lawful
  have same : ∀ key, t.index.find? key = index'.find? key := h.find?_eq
  simp only [Table.insert, Index.contains, same]
  cases t.schema.check row with
  | error fault => exact .inl ⟨fault, rfl, rfl⟩
  | ok _ =>
    by_cases hk : (index'.find? (t.schema.keyOf row)).isSome = true
    · exact .inl ⟨_, if_pos hk, if_pos hk⟩
    · refine .inr ⟨_, _, if_neg hk, if_neg hk, ?_⟩
      have kinds : t.index.kind = .hash ∧ index'.kind = .btree := h.kinds
      rw [← Index.kind_insert t.index (t.schema.keyOf row) row, ← Index.kind_insert index' (t.schema.keyOf row) row]
        at kinds
      apply Twin.of_find? kinds (hl.insert _ _) (hl'.insert _ _)
      intro key
      rw [Index.find?_insert, Index.find?_insert, same]

theorem Twin.insertAll {t t' : Table} (h : t.Twin t') (rows : List Tuple) :
    (t.insertAll rows).2 = (t'.insertAll rows).2 ∧ (t.insertAll rows).1.Twin (t'.insertAll rows).1 := by
  induction rows generalizing t t' with
  | nil => exact ⟨rfl, h⟩
  | cons row rows ih =>
    rw [Table.insertAll, Table.insertAll]
    rcases h.insert row with ⟨fault, hi, hi'⟩ | ⟨u, u', hi, hi', hu⟩
    · rw [hi, hi']
      exact ⟨rfl, h⟩
    · rw [hi, hi']
      exact ih hu

end Table

/-! ## Operators on twins -/

namespace Operator

/-- The same rejection, or the same columns and rows named after twins. -/
inductive ResultTwin : Except Rejection Result → Except Rejection Result → Prop where
  | error (rejection : Rejection) : ResultTwin (.error rejection) (.error rejection)
  | ok {base base' : Table} (h : base.Twin base') (schema : Schema) (tuples : List Tuple) :
    ResultTwin (.ok ⟨base, schema, tuples⟩) (.ok ⟨base', schema, tuples⟩)

section Twins

variable {inputs inputs' : List Table}

theorem ResultTwin.bind {α : Type} {step : Except Rejection α} {next next' : α → Except Rejection Result}
    (h : ∀ a, ResultTwin (next a) (next' a)) : ResultTwin (step >>= next) (step >>= next') := by
  cases step with
  | error rejection => exact .error rejection
  | ok a => exact h a

theorem ResultTwin.one (hi : List.Forall₂ Table.Twin inputs inputs') (op : Operator)
    {next next' : Table → Except Rejection Result}
    (h : ∀ (t : Table) (index : Index), t.Twin { t with index } → ResultTwin (next t) (next' { t with index })) :
    ResultTwin (op.one inputs >>= next) (op.one inputs' >>= next') := by
  cases hi with
  | nil => exact .error _
  | @cons t t' _ _ ht rest =>
    cases rest with
    | nil =>
      obtain ⟨index, rfl⟩ := ht.exists_index
      exact h t index ht
    | cons hu rest =>
      simp only [Operator.one, List.length_cons, rest.length_eq]
      exact .error _

theorem ResultTwin.two (hi : List.Forall₂ Table.Twin inputs inputs') (op : Operator)
    {next next' : Table × Table → Except Rejection Result}
    (h : ∀ (t u : Table) (index index' : Index), t.Twin { t with index } → u.Twin { u with index := index' } →
      ResultTwin (next (t, u)) (next' ({ t with index }, { u with index := index' }))) :
    ResultTwin (op.two inputs >>= next) (op.two inputs' >>= next') := by
  cases hi with
  | nil => exact .error _
  | @cons t t' _ _ ht rest =>
    cases rest with
    | nil => exact .error _
    | @cons u u' _ _ hu rest =>
      cases rest with
      | nil =>
        obtain ⟨index, rfl⟩ := ht.exists_index
        obtain ⟨index', rfl⟩ := hu.exists_index
        exact h t u index index' ht hu
      | cons hv rest =>
        simp only [Operator.two, List.length_cons, rest.length_eq]
        exact .error _

/-- An operator makes the same of twins. Only a selection by a key looks at an index. -/
theorem result_twin (op : Operator) (hi : List.Forall₂ Table.Twin inputs inputs') :
    ResultTwin (op.result inputs) (op.result inputs') := by
  cases op with
  | project attributes =>
    exact .one hi _ fun t index h => .bind fun _ => .bind fun _ => .bind fun _ => .ok h _ _
  | select predicate => exact .one hi _ fun t index h => .bind fun _ => .bind fun _ => .ok h _ _
  | filter condition =>
    exact .one hi _ fun t index h => .bind fun _ => .bind fun _ => .bind fun _ => .ok h _ _
  | selectKey key =>
    refine .one hi _ fun t index h => .bind fun plan => ?_
    rw [← h.find?_eq key]
    exact .ok h _ _
  | union => exact .two hi _ fun t u index index' h _ => .bind fun _ => .ok h _ _
  | minus => exact .two hi _ fun t u index index' h _ => .bind fun _ => .ok h _ _
  | intersect => exact .two hi _ fun t u index index' h _ => .bind fun _ => .ok h _ _
  | join l r suffix =>
    exact .two hi _ fun t u index index' h _ => .bind fun _ => .bind fun _ => .bind fun _ => .ok h _ _
  | indexJoin l r suffix =>
    exact .two hi _ fun t u index index' h _ => .bind fun _ => .bind fun _ => .bind fun _ => .ok h _ _
  | hashJoin l r suffix => exact .two hi _ fun t u index index' _ _ => .bind fun _ => .error _
  | thetaJoin condition suffix =>
    exact .two hi _ fun t u index index' h _ =>
      .bind fun _ => .bind fun _ => .bind fun _ => .bind fun _ => .ok h _ _
  | naturalJoin => exact .two hi _ fun t u index index' h _ => .bind fun _ => .bind fun _ => .ok h _ _

theorem run_twin (op : Operator) (hi : List.Forall₂ Table.Twin inputs inputs') (session : Session) :
    (∃ rejection, op.run inputs session = (.error rejection, session)
        ∧ op.run inputs' session = (.error rejection, session))
      ∨ ∃ t t' session', op.run inputs session = (.ok t, session')
        ∧ op.run inputs' session = (.ok t', session') ∧ t.Twin t' := by
  have twin := op.result_twin hi
  rw [run, run]
  generalize op.result inputs = result at twin
  generalize op.result inputs' = result' at twin
  cases twin with
  | error rejection => exact .inl ⟨rejection, rfl, rfl⟩
  | @ok base base' h schema tuples =>
    refine .inr ⟨(session.derive base schema tuples).1, (session.derive base' schema tuples).1, _, rfl, ?_, ?_⟩
    · simp only [Session.derive, h.name_eq]
    · simp only [Session.derive, h.name_eq, h.kinds.1, h.kinds.2]
      apply Table.twin_ofTuples

end Twins

end Operator

/-! ## Tables that are saved and loaded again -/

namespace Snapshot

/-- The table that comes back when a table is saved and loaded again. -/
def reload (t : Table) (codec : Codec) : Except StoreFault Table := encode t codec >>= decode

theorem reload_of_unavailable {t : Table} {codec : Codec} (h : codec ≠ .stored) :
    reload t codec = .error (.unsupported (some codec)) := by
  have refused : encode t codec = .error (.unsupported (some codec)) := by
    cases codec with
    | stored => exact absurd rfl h
    | zstd => rfl
    | lz4 => rfl
  rw [reload, refused]
  rfl

theorem reload_stored (t : Table) : reload t .stored = decode (body t ++ (body t).digest) := by
  rw [reload, encode_stored]
  exact pure_bind _ _

/-- Saving and loading again gives a copy, unless the codec cannot be used or a row does not fit. -/
theorem reload_eq {t : Table} (hs : (payload t).length ≤ maxPayload.toNat) (codec : Codec) :
    reload t codec = if codec = .stored then
        (StoreFault.lift (t.tuples.forM t.schema.check)).map fun _ => t.copy
      else .error (.unsupported (some codec)) := by
  by_cases h : codec = .stored
  · rw [if_pos h, h, ← TableImage.toTable_ofTable_eq, ← decode_body_digest_eq hs, reload_stored]
  · rw [if_neg h, reload_of_unavailable h]

/-- The kind of its index is part of what is saved of a table, and the name of a B-tree is one byte longer. -/
theorem length_payload_twin {t t' : Table} (h : t.Twin t') : (payload t').length = (payload t).length + 1 := by
  obtain ⟨hash, btree⟩ := h.kinds
  have named : (IndexKind.toJson .btree).write.length = (IndexKind.toJson .hash).write.length + 1 := by decide
  simp only [payload, TableImage.ofTable, hash, btree, ← h.name_eq, ← h.schema_eq, ← h.tuples_eq, TableImage.toJson,
    Json.record, List.map_cons, List.map_nil, Json.write, Json.writeMembers, List.length_append, List.length_cons, named]
  omega

theorem reload_twin {t t' : Table} (h : t.Twin t') {codec : Codec}
    (hs : codec = .stored → (payload t').length ≤ maxPayload.toNat) :
    (∃ fault, reload t codec = .error fault ∧ reload t' codec = .error fault)
      ∨ ∃ u u', reload t codec = .ok u ∧ reload t' codec = .ok u' ∧ u.Twin u' := by
  by_cases hc : codec = .stored
  · have within : (payload t').length ≤ maxPayload.toNat := hs hc
    have shorter : (payload t).length ≤ maxPayload.toNat := by
      rw [length_payload_twin h] at within
      exact Nat.le_of_succ_le within
    rw [reload_eq shorter, reload_eq within, if_pos hc, if_pos hc, ← h.schema_eq, ← h.tuples_eq]
    cases t.tuples.forM t.schema.check with
    | error fault => exact .inl ⟨_, rfl, rfl⟩
    | ok _ => exact .inr ⟨_, _, rfl, rfl, h.copy⟩
  · exact .inl ⟨_, reload_of_unavailable hc, reload_of_unavailable hc⟩

end Snapshot

/-! ## Programs -/

/-- A step of a program. Tables are known by their places on a shelf; a new table takes the next place. -/
inductive Step where
  | create (name : String) (schema : Schema)
  | spell (name attributes domains key : String)
  | ofTuples (name : String) (schema : Schema) (tuples : List Tuple)
  | insert (place : Nat) (row : Tuple)
  | insertAll (place : Nat) (rows : List Tuple)
  | rename (place : Nat) (name : String)
  | copy (place : Nat)
  | run (op : Operator) (places : List Nat)
  /-- Save a table and load what was saved. -/
  | reload (place : Nat) (codec : Codec)

/-- Why a step fails. -/
inductive Misstep where
  | noTable (place : Nat)
  | fault (fault : Fault)
  | rejection (rejection : Rejection)
  | store (fault : StoreFault)
  deriving DecidableEq

/-- Tables in their places, the session of the operators, and how the indexes of new base tables are kept. -/
structure Shelf where
  kind : IndexKind
  session : Session
  tables : List Table

namespace Shelf

def empty (kind : IndexKind) (session : Session) : Shelf := ⟨kind, session, []⟩

def add (s : Shelf) (t : Table) : Shelf := { s with tables := s.tables ++ [t] }

def put (s : Shelf) (place : Nat) (t : Table) : Shelf := { s with tables := s.tables.set place t }

def pick (s : Shelf) (places : List Nat) : List Table := places.filterMap fun place => s.tables[place]?

/-- What is done with the table in a place, if there is one. -/
def withTable (s : Shelf) (place : Nat) (act : Table → Except Misstep Unit × Shelf) : Except Misstep Unit × Shelf :=
  match s.tables[place]? with
  | none => (.error (.noTable place), s)
  | some t => act t

/-- The answer to a step, and the shelf after it. -/
def step (s : Shelf) : Step → Except Misstep Unit × Shelf
  | .create name schema => (.ok (), s.add (.empty name schema s.kind))
  | .spell name attributes domains key =>
    match Schema.ofWords attributes domains key with
    | .error fault => (.error (.fault fault), s)
    | .ok schema => (.ok (), s.add (.empty name schema s.kind))
  | .ofTuples name schema tuples => (.ok (), s.add (.ofTuples name schema s.kind tuples))
  | .insert place row => s.withTable place fun t =>
    match t.insert row with
    | .error fault => (.error (.fault fault), s)
    | .ok t => (.ok (), s.put place t)
  | .insertAll place rows => s.withTable place fun t =>
    ((t.insertAll rows).2.mapError .fault, s.put place (t.insertAll rows).1)
  | .rename place name => s.withTable place fun t => (.ok (), s.add (t.rename name))
  | .copy place => s.withTable place fun t => (.ok (), s.add t.copy)
  | .run op places =>
    match op.run (s.pick places) s.session with
    | (.error rejection, session) => (.error (.rejection rejection), { s with session })
    | (.ok t, session) => (.ok (), { s with session, tables := s.tables ++ [t] })
  | .reload place codec => s.withTable place fun t =>
    match Snapshot.reload t codec with
    | .error fault => (.error (.store fault), s)
    | .ok t => (.ok (), s.add t)

def after (s : Shelf) (steps : List Step) : Shelf := steps.foldl (fun s step => (s.step step).2) s

def answers (s : Shelf) : List Step → List (Except Misstep Unit)
  | [] => []
  | step :: rest => (s.step step).1 :: (s.step step).2.answers rest

/-- Whether a table that a step saves, if its codec can be used, and loads is within the bound on what is loaded. -/
def storable (s : Shelf) : Step → Bool
  | .reload place codec => codec != .stored
    || (s.tables[place]?).all fun t => (Snapshot.payload t).length ≤ Snapshot.maxPayload.toNat
  | _ => true

/-- Whether that holds of every step of a program, when its turn comes. -/
def storableAll (s : Shelf) : List Step → Bool
  | [] => true
  | step :: rest => s.storable step && (s.step step).2.storableAll rest

/-! ## Two shelves -/

/-- Shelves with twins in the same places. -/
structure Alike (s s' : Shelf) : Prop where
  kinds : s.kind = .hash ∧ s'.kind = .btree
  session_eq : s.session = s'.session
  tables : List.Forall₂ Table.Twin s.tables s'.tables

section Alike

variable {s s' : Shelf} (h : s.Alike s')
include h

theorem Alike.add {t t' : Table} (ht : t.Twin t') : (s.add t).Alike (s'.add t') :=
  ⟨h.kinds, h.session_eq, List.rel_append h.tables (.cons ht .nil)⟩

theorem Alike.getElem? (place : Nat) : Option.Rel Table.Twin s.tables[place]? s'.tables[place]? := by
  have all := h.tables
  generalize s.tables = tables at all
  generalize s'.tables = tables' at all
  induction all generalizing place with
  | nil => exact .none
  | cons ht _ ih =>
    cases place with
    | zero => exact .some ht
    | succ place => exact ih place

theorem Alike.put (place : Nat) {t t' : Table} (ht : t.Twin t') : (s.put place t).Alike (s'.put place t') := by
  refine ⟨h.kinds, h.session_eq, ?_⟩
  show List.Forall₂ Table.Twin (s.tables.set place t) (s'.tables.set place t')
  have all := h.tables
  generalize s.tables = tables at all
  generalize s'.tables = tables' at all
  induction all generalizing place with
  | nil => exact .nil
  | cons hu rest ih =>
    cases place with
    | zero => exact .cons ht rest
    | succ place => exact .cons hu (ih place)

theorem Alike.pick (places : List Nat) : List.Forall₂ Table.Twin (s.pick places) (s'.pick places) := by
  induction places with
  | nil => exact .nil
  | cons place places ih =>
    rw [Shelf.pick, Shelf.pick, List.filterMap_cons, List.filterMap_cons]
    have here := h.getElem? place
    generalize s.tables[place]? = t at here
    generalize s'.tables[place]? = t' at here
    cases here with
    | none => exact ih
    | some ht => exact .cons ht ih

end Alike

/-- The same answer, and shelves that are alike. -/
def SameStep (a a' : Except Misstep Unit × Shelf) : Prop := a.1 = a'.1 ∧ a.2.Alike a'.2

theorem Alike.withTable {s s' : Shelf} (h : s.Alike s') (place : Nat)
    {act act' : Table → Except Misstep Unit × Shelf}
    (ha : ∀ t t', s.tables[place]? = some t → s'.tables[place]? = some t' → t.Twin t' →
      SameStep (act t) (act' t')) :
    SameStep (s.withTable place act) (s'.withTable place act') := by
  have here := h.getElem? place
  rw [Shelf.withTable, Shelf.withTable]
  generalize s.tables[place]? = t at ha here
  generalize s'.tables[place]? = t' at ha here
  cases here with
  | none => exact ⟨rfl, h⟩
  | some ht => exact ha _ _ rfl rfl ht

/-- A step keeps shelves alike, and gives the same answer on both. -/
theorem Alike.step {s s' : Shelf} (h : s.Alike s') {step : Step} (hs : s'.storable step = true) :
    SameStep (s.step step) (s'.step step) := by
  obtain ⟨hash, btree⟩ := h.kinds
  cases step with
  | create name schema =>
    rw [Shelf.step, Shelf.step, hash, btree]
    exact ⟨rfl, h.add (Table.twin_empty ..)⟩
  | spell name attributes domains key =>
    rw [Shelf.step, Shelf.step, hash, btree]
    cases Schema.ofWords attributes domains key with
    | error fault => exact ⟨rfl, h⟩
    | ok schema => exact ⟨rfl, h.add (Table.twin_empty ..)⟩
  | ofTuples name schema tuples =>
    rw [Shelf.step, Shelf.step, hash, btree]
    exact ⟨rfl, h.add (Table.twin_ofTuples ..)⟩
  | insert place row =>
    apply h.withTable
    intro t t' _ _ ht
    rcases ht.insert row with ⟨fault, hi, hi'⟩ | ⟨u, u', hi, hi', hu⟩
    · rw [hi, hi']
      exact ⟨rfl, h⟩
    · rw [hi, hi']
      exact ⟨rfl, h.put place hu⟩
  | insertAll place rows =>
    apply h.withTable
    intro t t' _ _ ht
    obtain ⟨answer, hu⟩ := ht.insertAll rows
    exact ⟨congrArg (Except.mapError Misstep.fault) answer, h.put place hu⟩
  | rename place name =>
    apply h.withTable
    intro t t' _ _ ht
    exact ⟨rfl, h.add (ht.rename name)⟩
  | copy place =>
    apply h.withTable
    intro t t' _ _ ht
    exact ⟨rfl, h.add ht.copy⟩
  | run op places =>
    rw [Shelf.step, Shelf.step, ← h.session_eq]
    rcases op.run_twin (h.pick places) s.session with ⟨rejection, hr, hr'⟩ | ⟨t, t', session', hr, hr', ht⟩
    · rw [hr, hr']
      exact ⟨rfl, h.kinds, rfl, h.tables⟩
    · rw [hr, hr']
      exact ⟨rfl, h.kinds, rfl, List.rel_append h.tables (.cons ht .nil)⟩
  | reload place codec =>
    apply h.withTable
    intro t t' _ hp ht
    have bound : codec = .stored → (Snapshot.payload t').length ≤ Snapshot.maxPayload.toNat := by
      intro hc
      simpa [storable, hc, hp] using hs
    rcases Snapshot.reload_twin ht bound with ⟨fault, hr, hr'⟩ | ⟨u, u', hr, hr', hu⟩
    · rw [hr, hr']
      exact ⟨rfl, h⟩
    · rw [hr, hr']
      exact ⟨rfl, h.add hu⟩

/-- A program gives the same answers on shelves that are alike, which stay alike after each of its steps. -/
theorem Alike.after {s s' : Shelf} (h : s.Alike s') {steps : List Step} (hs : s'.storableAll steps = true) :
    s.answers steps = s'.answers steps ∧ ∀ n, (s.after (steps.take n)).Alike (s'.after (steps.take n)) := by
  induction steps generalizing s s' with
  | nil => exact ⟨rfl, fun n => by rw [List.take_nil]; exact h⟩
  | cons step steps ih =>
    rw [storableAll, Bool.and_eq_true] at hs
    obtain ⟨answer, alike⟩ := h.step hs.1
    obtain ⟨answers, later⟩ := ih alike hs.2
    refine ⟨?_, fun n => ?_⟩
    · rw [Shelf.answers, Shelf.answers, answer, answers]
    · cases n with
      | zero => exact h
      | succ n => exact later n

/-- How indexes are kept does not show: with hash indexes and with B-trees a program gives the same answers,
and after each step the tables differ only in the kind of their indexes and in the order of the entries. Tables that
are saved must be within the bound on loading under B-trees, where they take one byte more. -/
theorem kind_does_not_show {session : Session} {steps : List Step}
    (h : (empty .btree session).storableAll steps = true) :
    (empty .hash session).answers steps = (empty .btree session).answers steps
      ∧ ∀ n, ((empty .hash session).after (steps.take n)).Alike ((empty .btree session).after (steps.take n)) := by
  have start : (empty .hash session).Alike (empty .btree session) := ⟨⟨rfl, rfl⟩, rfl, .nil⟩
  exact start.after h

/-- The levels made at once and row by row, where a key repeats, then looked up, subtracted, joined and saved. -/
def levelsProgram : List Step :=
  [.ofTuples "levels" Table.levelsSchema Table.levelsRows, .create "more" Table.levelsSchema,
    .insertAll 1 Table.levelsRows, .run (.selectKey [.string "Åre \"N\""]) [0], .run .minus [0, 2],
    .rename 0 "again", .insert 4 [.string ""], .run .naturalJoin [0, 1], .reload 0 .zstd, .reload 5 .stored]

/-- Two steps fail before anything is saved: the third, at the last row, and the seventh. -/
theorem kind_does_not_show_levels :
    let shelf (kind : IndexKind) := empty kind ⟨"2", 0⟩
    ((shelf .hash).answers (levelsProgram.take 8)).map Except.isOk = [true, true, false, true, true, true, false, true]
      ∧ (shelf .hash).answers levelsProgram = (shelf .btree).answers levelsProgram
      ∧ ∀ n, ((shelf .hash).after (levelsProgram.take n)).Alike ((shelf .btree).after (levelsProgram.take n)) :=
  ⟨by decide +kernel, kind_does_not_show (by decide +kernel)⟩

/-! ### A table that shows its kind -/

/-- A note is made and saved, and loaded again. -/
def noteProgram (text : String) : List Step :=
  [.ofTuples "note" (Snapshot.note "").schema [[.string text]], .reload 0 .stored]

theorem answer_reload {s : Shelf} {place : Nat} {t : Table} (h : s.tables[place]? = some t) (codec : Codec) :
    (s.step (.reload place codec)).1 = ((Snapshot.reload t codec).mapError Misstep.store).map fun _ => () := by
  simp only [Shelf.step, withTable, h]
  cases Snapshot.reload t codec with
  | error fault => rfl
  | ok u => rfl

theorem answers_noteProgram (text : String) (kind : IndexKind) (session : Session) :
    (empty kind session).answers (noteProgram text)
      = [.ok (), ((Snapshot.reload (.ofTuples "note" (Snapshot.note "").schema kind [[.string text]]) .stored).mapError
          Misstep.store).map fun _ => ()] := by
  show [.ok (), (((empty kind session).step (.ofTuples _ _ _)).2.step (.reload 0 .stored)).1] = _
  rw [answer_reload rfl]
  rfl

/-- Where a note takes as many bytes under a hash index as are loaded at most, it is refused under a B-tree. -/
theorem kind_shows_of_length {text : String} (h : (Snapshot.payload (Snapshot.note text)).length = 268435456)
    (session : Session) : (empty .hash session).answers (noteProgram text) = [.ok (), .ok ()]
      ∧ (empty .btree session).answers (noteProgram text)
        = [.ok (), .error (.store (.format (.oversized 268435457 268435457 Snapshot.maxPayload)))] := by
  have bound : Snapshot.maxPayload.toNat = 268435456 := by decide
  have twin : (Snapshot.note text).Twin (.ofTuples "note" (Snapshot.note "").schema .btree [[.string text]]) :=
    Table.twin_ofTuples "note" (Snapshot.note "").schema [[.string text]]
  have longer := Snapshot.length_payload_twin twin
  rw [h] at longer
  constructor
  · have kept : Snapshot.reload (Snapshot.note text) .stored = .ok (Snapshot.note text).copy := by
      have fits := forM_eq_ok_iff.mpr (Snapshot.wellFormed_note text).conforms
      rw [Snapshot.reload_eq (Nat.le_of_eq (h.trans bound.symm)), if_pos rfl, fits]
      rfl
    rw [answers_noteProgram]
    show [Except.ok (), ((Snapshot.reload (Snapshot.note text) .stored).mapError Misstep.store).map _] = _
    rw [kept]
    rfl
  · have size : (268435456 + 1).toUInt64 = 268435457 := by decide
    have refused := Snapshot.decode_body_digest_eq_error (by rw [longer]; decide) (by rw [longer]; decide)
    rw [longer, size] at refused
    rw [answers_noteProgram, Snapshot.reload_stored, refused]
    rfl

/-- A note of so many letters is loaded again under a hash index, and refused under a B-tree. -/
theorem kind_shows_at_bound :
    let program := noteProgram (String.ofList (List.replicate 268435341 'a'))
    (empty .hash ⟨"2", 0⟩).answers program = [.ok (), .ok ()] ∧ (empty .btree ⟨"2", 0⟩).answers program
      = [.ok (), .error (.store (.format (.oversized 268435457 268435457 Snapshot.maxPayload)))] := by
  have length : (Snapshot.payload (Snapshot.note (String.ofList (List.replicate 268435341 'a')))).length
      = 268435456 := by
    rw [Snapshot.length_payload_note, Bytes.escape_replicate, List.length_replicate]
  exact kind_shows_of_length length ⟨"2", 0⟩

end Shelf

end Relata
