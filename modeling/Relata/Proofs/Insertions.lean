import Mathlib.Data.List.Induction
import Relata.Proofs.Reachable
/-!
# Insertions

An insertion takes a row exactly when the row fits and its key is new, and what it says of another row is its first
fault (`insert_eq_error_iff`). It changes the table only after every check, so a fault leaves the table as it was, also
where the table is changed in place (`run_insertInPlace`). A run of insertions takes the rows before the first that is
rejected (`insertAll_cases`).

Inserting rows one by one and making a table of them at once index the rows in the same way: the rows that are taken are
the first of each key, and the index is that of all rows (`bulk_eq_row_by_row`). So every table that can come about is
the one that is made at once of its rows (`eq_ofTuples_of_reachable`).
-/

namespace Relata

/-! ## Checks that fail -/

namespace Schema

variable {s : Schema} {row : Tuple} {fault : Fault}

/-- The fault is that of the first value whose domain is not its attribute's. -/
theorem mismatch?_eq_some_iff (position : Nat) {values : List Value} {attributes : List Attribute} :
    mismatch? position values attributes = some fault ↔ ∃ i v a, values[i]? = some v ∧ attributes[i]? = some a
      ∧ v.domain ≠ a.domain ∧ (∀ j < i, values[j]?.map Value.domain = attributes[j]?.map Attribute.domain)
      ∧ fault = .typeMismatch (position + i) a.domain v.domain := by
  induction values generalizing position attributes with
  | nil => simp [mismatch?]
  | cons v values ih =>
    cases attributes with
    | nil => simp [mismatch?]
    | cons a attributes =>
      rw [mismatch?]
      by_cases hd : v.domain = a.domain
      · rw [if_pos hd, ih]
        refine ⟨fun h => ?_, fun h => ?_⟩
        · obtain ⟨i, w, b, hw, hb, hn, before, hf⟩ := h
          refine ⟨i + 1, w, b, hw, hb, hn, ?_, by rw [hf, Nat.add_right_comm, Nat.add_assoc]⟩
          intro j hj
          cases j with
          | zero => simp [hd]
          | succ j => exact before j (by omega)
        · obtain ⟨i, w, b, hw, hb, hn, before, hf⟩ := h
          cases i with
          | zero =>
            cases hw
            cases hb
            exact absurd hd hn
          | succ i =>
            refine ⟨i, w, b, hw, hb, hn, ?_, by rw [hf, Nat.add_right_comm, Nat.add_assoc]⟩
            intro j hj
            exact before (j + 1) (by omega)
      · rw [if_neg hd]
        refine ⟨fun h => ?_, fun h => ?_⟩
        · exact ⟨0, v, a, rfl, rfl, hd, by simp, (Option.some.inj h).symm⟩
        · obtain ⟨i, w, b, hw, hb, hn, before, hf⟩ := h
          -- The first value is at fault already, so no later one is the first.
          cases i with
          | zero =>
            cases hw
            cases hb
            rw [hf, Nat.add_zero]
          | succ i => exact absurd (Option.some.inj (before 0 (by omega))) hd

theorem check_eq_error_iff : s.check row = .error fault ↔ row.length ≠ s.arity ∧ fault = .arity s.arity row.length
    ∨ row.length = s.arity ∧ mismatch? 0 row s.attributes = some fault := by
  unfold check
  by_cases hl : row.length = s.arity
  · simp only [hl, ne_eq, not_true, if_false, false_and, false_or, true_and]
    cases mismatch? 0 row s.attributes <;> simp
  · simp [hl, eq_comm]

/-! ## First rows of each key -/

/-- The rows whose key no earlier row has. -/
def firstPerKey (s : Schema) (rows : List Tuple) : List Tuple :=
  (rows.zipIdx.filter fun p => !((rows.take p.2).map s.keyOf).contains (s.keyOf p.1)).map Prod.fst

theorem firstPerKey_append_singleton (s : Schema) (rows : List Tuple) (row : Tuple) : s.firstPerKey (rows ++ [row])
    = if s.keyOf row ∈ rows.map s.keyOf then s.firstPerKey rows else s.firstPerKey rows ++ [row] := by
  have earlier : rows.zipIdx.filter (fun p => !(((rows ++ [row]).take p.2).map s.keyOf).contains (s.keyOf p.1))
      = rows.zipIdx.filter fun p => !((rows.take p.2).map s.keyOf).contains (s.keyOf p.1) := by
    apply List.filter_congr
    intro p hp
    have place : p.2 < rows.length := List.snd_lt_of_mem_zipIdx hp
    rw [List.take_append_of_le_length (Nat.le_of_lt place)]
  rw [firstPerKey, List.zipIdx_append, List.filter_append, earlier, Nat.zero_add, List.zipIdx_singleton,
    List.map_append, ← firstPerKey, List.filter_singleton, List.take_left]
  by_cases h : s.keyOf row ∈ rows.map s.keyOf <;> simp [h]

end Schema

namespace Table

variable {t t' : Table} {row : Tuple} {rows : List Tuple} {fault : Fault}

/-! ## One row -/

/-- The table with one more row, in its tuples and in its index. -/
def push (t : Table) (row : Tuple) : Table :=
  { t with tuples := t.tuples ++ [row], index := t.index.insert (t.schema.keyOf row) row }

theorem insert_of_check_eq_error (h : t.schema.check row = .error fault) : t.insert row = .error fault := by
  rw [insert, h]
  rfl

theorem insert_of_check_eq_ok (h : t.schema.check row = .ok ()) : t.insert row
    = if t.index.contains (t.schema.keyOf row) then .error (.duplicateKey t.name (t.schema.keyOf row))
      else .ok (t.push row) := by
  rw [insert, h]
  rfl

/-- The row fits, and no row of the table has its key. -/
def Accepts (t : Table) (row : Tuple) : Prop :=
  t.schema.Fits row ∧ ∀ other ∈ t.tuples, t.schema.keyOf other ≠ t.schema.keyOf row

/-- The fault for which a row is rejected: its length, else the first domain that is wrong, else its key. -/
inductive Rejects (t : Table) (row : Tuple) : Fault → Prop where
  | arity (hl : row.length ≠ t.schema.arity) : Rejects t row (.arity t.schema.arity row.length)
  | typeMismatch {i : Nat} {v : Value} {a : Attribute} (hl : row.length = t.schema.arity) (hv : row[i]? = some v)
      (ha : t.schema.attributes[i]? = some a) (hd : v.domain ≠ a.domain)
      (before : ∀ j < i, row[j]?.map Value.domain = t.schema.attributes[j]?.map Attribute.domain) :
      Rejects t row (.typeMismatch i a.domain v.domain)
  | duplicateKey {other : Tuple} (fits : t.schema.Fits row) (ho : other ∈ t.tuples)
      (hk : t.schema.keyOf other = t.schema.keyOf row) : Rejects t row (.duplicateKey t.name (t.schema.keyOf row))

theorem insert_eq_ok_iff (h : t.WellFormed) : t.insert row = .ok t' ↔ t.Accepts row ∧ t' = t.push row := by
  constructor
  · intro hi
    obtain ⟨hc, hn, rfl⟩ := insert_eq_ok hi
    refine ⟨⟨Schema.check_eq_ok_iff.mp hc, ?_⟩, rfl⟩
    intro other ho hk
    rw [(h.contains_iff _).mpr ⟨other, ho, hk⟩] at hn
    cases hn
  · intro ⟨⟨fits, new⟩, ht⟩
    have absent : ¬t.index.contains (t.schema.keyOf row) = true := by
      rw [h.contains_iff]
      intro ⟨other, ho, hk⟩
      exact new other ho hk
    rw [insert_of_check_eq_ok (Schema.check_eq_ok_iff.mpr fits), if_neg absent, ht]

theorem insert_eq_error_iff (h : t.WellFormed) : t.insert row = .error fault ↔ t.Rejects row fault := by
  constructor
  · intro hi
    cases hc : t.schema.check row with
    | error first =>
      rw [insert_of_check_eq_error hc] at hi
      cases hi
      rcases Schema.check_eq_error_iff.mp hc with ⟨hl, rfl⟩ | ⟨hl, hm⟩
      · exact .arity hl
      · obtain ⟨i, v, a, hv, ha, hd, before, rfl⟩ := (Schema.mismatch?_eq_some_iff 0).mp hm
        rw [Nat.zero_add]
        exact .typeMismatch hl hv ha hd before
    | ok _ =>
      rw [insert_of_check_eq_ok hc] at hi
      split at hi
      · next taken =>
        cases hi
        obtain ⟨other, ho, hk⟩ := (h.contains_iff _).mp taken
        exact .duplicateKey (Schema.check_eq_ok_iff.mp hc) ho hk
      · cases hi
  · intro hr
    cases hr with
    | arity hl => exact insert_of_check_eq_error (Schema.check_eq_error_iff.mpr (.inl ⟨hl, rfl⟩))
    | typeMismatch hl hv ha hd before =>
      have first := (Schema.mismatch?_eq_some_iff 0).mpr ⟨_, _, _, hv, ha, hd, before, rfl⟩
      rw [Nat.zero_add] at first
      exact insert_of_check_eq_error (Schema.check_eq_error_iff.mpr (.inr ⟨hl, first⟩))
    | duplicateKey fits ho hk =>
      have taken := (h.contains_iff (t.schema.keyOf row)).mpr ⟨_, ho, hk⟩
      rw [insert_of_check_eq_ok (Schema.check_eq_ok_iff.mpr fits), if_pos taken]

/-! ## In place

The same insertion as steps that change one table. A fault leaves the changes that were made before it. -/

/-- The row is checked, and its key looked up; then the index takes the row, and then the tuples do. -/
def insertInPlace (row : Tuple) : EStateM Fault Table Unit := do
  let t ← get
  MonadExcept.ofExcept (t.schema.check row)
  if t.index.contains (t.schema.keyOf row) then throw (.duplicateKey t.name (t.schema.keyOf row))
  modify fun t => { t with index := t.index.insert (t.schema.keyOf row) row }
  modify fun t => { t with tuples := t.tuples ++ [row] }

/-- The rows go in one after the other, up to the first that is rejected. -/
def insertAllInPlace (rows : List Tuple) : EStateM Fault Table Unit := rows.forM insertInPlace

/-- What insertions leave in place: a table, and the fault that ended them. -/
def placed : Table × Except Fault Unit → EStateM.Result Fault Table Unit
  | (t, .ok ()) => .ok () t
  | (t, .error fault) => .error fault t

theorem run_insertInPlace (row : Tuple) (t : Table) : (insertInPlace row).run t = placed (t.insertAll [row]) := by
  rw [insertAll, insertInPlace, EStateM.run_bind, EStateM.run_get]
  cases hc : t.schema.check row with
  | error fault =>
    rw [insert_of_check_eq_error hc]
    simp only [hc]
    rfl
  | ok _ =>
    rw [insert_of_check_eq_ok hc]
    simp only [hc]
    cases t.index.contains (t.schema.keyOf row) <;> rfl

theorem run_insertAllInPlace (rows : List Tuple) (t : Table) :
    (insertAllInPlace rows).run t = placed (t.insertAll rows) := by
  induction rows generalizing t with
  | nil => rfl
  | cons row rows ih =>
    have first : insertAllInPlace (row :: rows) = insertInPlace row >>= fun _ => insertAllInPlace rows := rfl
    rw [first, EStateM.run_bind, run_insertInPlace, insertAll, insertAll]
    cases t.insert row with
    | error fault => rfl
    | ok next => exact ih next

/-! ## Rows in a run -/

/-- A run of insertions takes all rows, or it takes those before the first that is rejected. -/
theorem insertAll_cases (t : Table) (rows : List Tuple) :
    (∃ t', rows.foldlM insert t = .ok t' ∧ t.insertAll rows = (t', .ok ()))
      ∨ ∃ before row after t' fault, rows = before ++ row :: after ∧ before.foldlM insert t = .ok t'
        ∧ t'.insert row = .error fault ∧ t.insertAll rows = (t', .error fault) := by
  induction rows generalizing t with
  | nil => exact .inl ⟨t, rfl, rfl⟩
  | cons row rows ih =>
    cases hi : t.insert row with
    | error fault =>
      refine .inr ⟨[], row, rows, t, fault, rfl, rfl, hi, ?_⟩
      rw [insertAll, hi]
    | ok next =>
      have first : ∀ more : List Tuple, (row :: more).foldlM insert t = more.foldlM insert next := by
        intro more
        rw [List.foldlM_cons, hi]
        rfl
      rcases ih next with ⟨t', hf, ha⟩ | ⟨before, other, after, t', fault, rfl, hf, ho, ha⟩
      · refine .inl ⟨t', (first rows).trans hf, ?_⟩
        rw [insertAll, hi]
        exact ha
      · refine .inr ⟨row :: before, other, after, t', fault, rfl, (first before).trans hf, ho, ?_⟩
        rw [insertAll, hi]
        exact ha

theorem insertAll_of_foldlM_insert (h : rows.foldlM insert t = .ok t') : t.insertAll rows = (t', .ok ()) := by
  rcases insertAll_cases t rows with ⟨next, hf, ha⟩ | ⟨before, row, after, next, fault, rfl, hf, hi, -⟩
  · cases hf.symm.trans h
    exact ha
  · rw [List.foldlM_append, hf] at h
    have further : next.insert row >>= (fun t => after.foldlM insert t) = .ok t' := h
    rw [hi] at further
    cases further

/-- Rows that are all taken stand behind those that were there. -/
theorem tuples_of_foldlM_insert (h : rows.foldlM insert t = .ok t') :
    t'.name = t.name ∧ t'.schema = t.schema ∧ t'.tuples = t.tuples ++ rows := by
  induction rows generalizing t with
  | nil =>
    cases h
    exact ⟨rfl, rfl, (List.append_nil _).symm⟩
  | cons row rows ih =>
    rw [List.foldlM_cons] at h
    obtain ⟨next, hi, h⟩ := exists_of_bind_eq_ok h
    obtain ⟨-, -, rfl⟩ := insert_eq_ok hi
    obtain ⟨name, schema, tuples⟩ := ih h
    exact ⟨name, schema, by rw [tuples, List.append_assoc, List.singleton_append]⟩

/-- A table with one more row: the row stands last, and what is found changes under its key alone. -/
structure Takes (t : Table) (row : Tuple) (t' : Table) : Prop where
  name_eq : t'.name = t.name
  schema_eq : t'.schema = t.schema
  indexKind_eq : t'.indexKind = t.indexKind
  tuples_eq : t'.tuples = t.tuples ++ [row]
  find?_eq : ∀ key, t'.find? key = if key = t.schema.keyOf row then some row else t.find? key

theorem takes_push (t : Table) (row : Tuple) : t.Takes row (t.push row) :=
  ⟨rfl, rfl, Index.kind_insert .., rfl, Index.find?_insert t.index (t.schema.keyOf row) row⟩

/-- An insertion takes a row exactly when the row fits and its key is new, and leaves the table as it was otherwise. A
run of insertions takes all rows, or those before the first that is rejected, and says why that one is. -/
theorem insert_exact_and_atomic (h : t.Reachable) :
    (∀ row, ((∃ t', t.insert row = .ok t') ↔ t.Accepts row)
      ∧ (∀ t', t.insert row = .ok t' → t.Takes row t' ∧ (insertInPlace row).run t = .ok () t')
      ∧ ∀ fault, (t.insert row = .error fault ↔ t.Rejects row fault)
        ∧ (t.insert row = .error fault → (insertInPlace row).run t = .error fault t))
      ∧ ∀ rows, (∃ t', rows.foldlM insert t = .ok t' ∧ t'.tuples = t.tuples ++ rows
          ∧ t.insertAll rows = (t', .ok ()) ∧ (insertAllInPlace rows).run t = .ok () t')
        ∨ ∃ before row after t' fault, rows = before ++ row :: after ∧ before.foldlM insert t = .ok t'
          ∧ t'.tuples = t.tuples ++ before ∧ t'.insert row = .error fault
          ∧ t.insertAll rows = (t', .error fault) ∧ (insertAllInPlace rows).run t = .error fault t' := by
  have hw := h.wellFormed
  refine ⟨fun row => ⟨?_, ?_, ?_⟩, fun rows => ?_⟩
  · constructor
    · intro ⟨t', hi⟩
      exact ((insert_eq_ok_iff hw).mp hi).1
    · intro accepted
      exact ⟨_, (insert_eq_ok_iff hw).mpr ⟨accepted, rfl⟩⟩
  · intro t' hi
    obtain ⟨-, rfl⟩ := (insert_eq_ok_iff hw).mp hi
    refine ⟨takes_push t row, ?_⟩
    rw [run_insertInPlace, insertAll, hi]
    rfl
  · intro fault
    refine ⟨insert_eq_error_iff hw, ?_⟩
    intro hi
    rw [run_insertInPlace, insertAll, hi]
    rfl
  · rcases insertAll_cases t rows with ⟨t', hf, ha⟩ | ⟨before, row, after, t', fault, he, hf, hi, ha⟩
    · refine .inl ⟨t', hf, (tuples_of_foldlM_insert hf).2.2, ha, ?_⟩
      rw [run_insertAllInPlace, ha]
      rfl
    · refine .inr ⟨before, row, after, t', fault, he, hf, (tuples_of_foldlM_insert hf).2.2, hi, ha, ?_⟩
      rw [run_insertAllInPlace, ha]
      rfl

/-- The levels have a site twice. A level at a further site is taken, and a second one there is rejected. -/
theorem insert_exact_and_atomic_levels :
    let row : Tuple := [.string "Duved", .double 0]
    let again : Tuple := [.string "Duved", .double 1]
    let taken : Fault := .duplicateKey "levels" [.string "Duved"]
    levels.Reachable ∧ levels.Accepts row ∧ (∃ t', levels.insert row = .ok t' ∧ levels.Takes row t')
      ∧ (insertInPlace [.string "", .integer 0]).run levels = .error (.typeMismatch 1 .double .integer) levels
      ∧ ∃ before other after t', [row, again, row] = before ++ other :: after ∧ before.foldlM insert levels = .ok t'
        ∧ t'.size = 4 ∧ levels.insertAll [row, again, row] = (t', .error taken)
        ∧ (insertAllInPlace [row, again, row]).run levels = .error taken t' := by
  intro row again taken
  obtain ⟨single, many⟩ := insert_exact_and_atomic reachable_levels
  have accepted : levels.Accepts row := ⟨rfl, by decide⟩
  obtain ⟨t', hi⟩ := (single row).1.mpr accepted
  refine ⟨reachable_levels, accepted, ⟨t', hi, ((single row).2.1 t' hi).1⟩, ?_, ?_⟩
  · exact ((single _).2.2 _).2 rfl
  · have outcome : (levels.insertAll [row, again, row]).2 = .error taken := by decide +kernel
    have size : (levels.insertAll [row, again, row]).1.size = 4 := by decide +kernel
    rcases many [row, again, row] with ⟨t', -, -, ha, -⟩ | ⟨before, other, after, t', fault, he, hf, -, -, ha, hp⟩
    · rw [ha] at outcome
      cases outcome
    · rw [ha] at outcome size
      cases outcome
      exact ⟨before, other, after, t', he, hf, size, ha, hp⟩

/-! ## Rows at once -/

/-- An insertion after which a duplicate key is disregarded. -/
def insertNew (t : Table) (row : Tuple) : Except Fault Table :=
  match t.insert row with
  | .error (.duplicateKey _ _) => .ok t
  | result => result

theorem insertNew_of_check_eq_ok (h : t.schema.check row = .ok ()) :
    t.insertNew row = .ok (if t.index.contains (t.schema.keyOf row) then t else t.push row) := by
  rw [insertNew, insert_of_check_eq_ok h]
  cases t.index.contains (t.schema.keyOf row) <;> rfl

section Bulk

variable {name : String} {schema : Schema} {kind : IndexKind}

theorem index_ofTuples_append_singleton (name : String) (schema : Schema) (kind : IndexKind) (rows : List Tuple)
    (row : Tuple) : (ofTuples name schema kind (rows ++ [row])).index
      = indexFirst schema (ofTuples name schema kind rows).index row := List.foldl_append

/-- A table made at once takes a row with a new key as if the row had been there. -/
theorem push_ofTuples (h : (ofTuples name schema kind rows).index.contains (schema.keyOf row) = false) :
    (ofTuples name schema kind rows).push row = ofTuples name schema kind (rows ++ [row]) := by
  have index := index_ofTuples_append_singleton name schema kind rows row
  rw [indexFirst, h, if_neg Bool.false_ne_true] at index
  exact congrArg (Table.mk name schema (rows ++ [row])) index.symm

/-- Every table that can come about is the one that is made at once of its rows. -/
theorem eq_ofTuples_of_reachable (h : t.Reachable) : t = ofTuples t.name t.schema t.indexKind t.tuples := by
  have same : ∀ (name : String) (schema : Schema) (kind : IndexKind) (rows : List Tuple),
      let t := ofTuples name schema kind rows
      t = ofTuples t.name t.schema t.indexKind t.tuples := by
    intro name schema kind rows t
    rw [indexKind_ofTuples]
    rfl
  have step : ∀ {t t' : Table} {row : Tuple}, t = ofTuples t.name t.schema t.indexKind t.tuples →
      t.insert row = .ok t' → t' = ofTuples t'.name t'.schema t'.indexKind t'.tuples := by
    intro t t' row made hi
    obtain ⟨-, hk, ht⟩ := insert_eq_ok hi
    have pushed : t' = t.push row := ht
    rw [made] at hk
    rw [made, push_ofTuples hk] at pushed
    rw [pushed]
    apply same
  induction h with
  | empty name schema kind => exact same name schema kind []
  | insert _ hi ih => exact step ih hi
  | insertAll _ rows ih =>
    exact insertAll_induction (motive := fun t => t = ofTuples t.name t.schema t.indexKind t.tuples) ih step rows
  | ofTuples name kind _ => apply same
  | rename _ _ _ => apply same
  | copy _ _ => apply same
  | run _ hr _ =>
    rw [Operator.run] at hr
    split at hr
    · cases hr
    · cases hr
      apply same
  | load hd =>
    obtain ⟨image, -, ht⟩ := Snapshot.of_decode_eq_ok hd
    obtain ⟨schema, -, rfl⟩ := TableImage.exists_of_toTable_eq_ok ht
    apply same

variable (hc : ∀ row ∈ rows, schema.check row = .ok ())
include hc

theorem contains_ofTuples_iff (name : String) (kind : IndexKind) (key : Key) :
    (ofTuples name schema kind rows).index.contains key = true ↔ key ∈ rows.map schema.keyOf :=
  ((WellFormed.ofTuples name kind hc).contains_iff key).trans List.mem_map.symm

/-- One row more, after rows that were inserted one by one and whose index is that of all of them. -/
theorem insertNew_firstPerKey (hr : schema.check row = .ok ()) :
    insertNew ⟨name, schema, schema.firstPerKey rows, (ofTuples name schema kind rows).index⟩ row
      = .ok ⟨name, schema, schema.firstPerKey (rows ++ [row]), (ofTuples name schema kind (rows ++ [row])).index⟩ := by
  have taken := contains_ofTuples_iff hc name kind (schema.keyOf row)
  rw [insertNew_of_check_eq_ok hr, Schema.firstPerKey_append_singleton, index_ofTuples_append_singleton, indexFirst]
  by_cases hk : schema.keyOf row ∈ rows.map schema.keyOf
  · simp only [hk, taken.mpr hk, if_true]
  · simp only [hk, mt taken.mp hk, if_false]
    rfl

/-- Rows that fit, inserted one by one into an empty table: those with a key that has come are rejected. -/
theorem foldlM_insertNew : rows.foldlM insertNew (empty name schema kind)
    = .ok ⟨name, schema, schema.firstPerKey rows, (ofTuples name schema kind rows).index⟩ := by
  induction rows using List.reverseRecOn with
  | nil => rfl
  | append_singleton rows row ih =>
    obtain ⟨before, last⟩ := List.forall_mem_append.mp hc
    rw [foldlM_append_singleton, ih before]
    exact insertNew_firstPerKey before (last row (List.mem_singleton_self row))

/-- Rows that fit and have distinct keys are all taken by an empty table. -/
theorem foldlM_insert_of_nodup (hn : (rows.map schema.keyOf).Nodup) :
    rows.foldlM insert (empty name schema kind) = .ok (ofTuples name schema kind rows) := by
  induction rows using List.reverseRecOn with
  | nil => rfl
  | append_singleton rows row ih =>
    obtain ⟨before, last⟩ := List.forall_mem_append.mp hc
    rw [List.map_append, List.map_singleton, List.nodup_append] at hn
    have new : schema.keyOf row ∉ rows.map schema.keyOf :=
      fun hm => hn.2.2 _ hm _ (List.mem_singleton_self _) rfl
    have absent := Bool.eq_false_iff.mpr (mt (contains_ofTuples_iff before name kind _).mp new)
    rw [foldlM_append_singleton, ih before hn.1, ← push_ofTuples absent]
    show (ofTuples name schema kind rows).insert row = _
    rw [insert_of_check_eq_ok (last row (List.mem_singleton_self row))]
    exact if_neg (Bool.eq_false_iff.mp absent)

/-- Rows inserted one by one are indexed as rows of which a table is made at once: where duplicate keys are disregarded,
the rows that stay are the first of each key, and the index is that of all rows. Where no key repeats, both ways give
the same table. -/
theorem bulk_eq_row_by_row (name : String) (kind : IndexKind) :
    (∃ t, rows.foldlM insertNew (empty name schema kind) = .ok t ∧ t.name = name ∧ t.schema = schema
        ∧ t.tuples = schema.firstPerKey rows ∧ t.index = (ofTuples name schema kind rows).index)
      ∧ ((rows.map schema.keyOf).Nodup →
        (empty name schema kind).insertAll rows = (ofTuples name schema kind rows, .ok ())) :=
  ⟨⟨_, foldlM_insertNew hc, rfl, rfl, rfl, rfl⟩, fun hn => insertAll_of_foldlM_insert (foldlM_insert_of_nodup hc hn)⟩

end Bulk

/-- Of the levels the last one has a key that has come. The others have distinct keys. -/
theorem bulk_eq_row_by_row_levels :
    (∀ row ∈ levelsRows, levelsSchema.check row = .ok ()) ∧ levelsSchema.firstPerKey levelsRows = levelsRows.take 2
      ∧ (∃ t, levelsRows.foldlM insertNew (empty "levels" levelsSchema .btree) = .ok t
        ∧ t.tuples = levelsRows.take 2 ∧ t.index = levels.index)
      ∧ ((levelsRows.take 2).map levelsSchema.keyOf).Nodup
      ∧ (empty "levels" levelsSchema .hash).insertAll (levelsRows.take 2)
        = (ofTuples "levels" levelsSchema .hash (levelsRows.take 2), .ok ()) := by
  have first : levelsSchema.firstPerKey levelsRows = levelsRows.take 2 := by decide
  have two : ∀ row ∈ levelsRows.take 2, levelsSchema.check row = .ok () :=
    fun row hr => levelsRows_conform row (List.mem_of_mem_take hr)
  have distinct : ((levelsRows.take 2).map levelsSchema.keyOf).Nodup := by decide
  obtain ⟨t, ht, -, -, tuples, index⟩ := (bulk_eq_row_by_row levelsRows_conform "levels" .btree).1
  exact ⟨levelsRows_conform, first, ⟨t, ht, tuples.trans first, index⟩, distinct,
    (bulk_eq_row_by_row two "levels" .hash).2 distinct⟩

end Table

end Relata
