import Mathlib.Data.List.Dedup
import Mathlib.Data.List.Nodup
import Relata.Proofs.Entries
import Relata.Proofs.Rows
import Relata.Table.Basic
/-!
# Well-formed tables

A table is well formed when its rows fit its schema and its index answers every key with the first row
that has it. Making a table from rows that fit gives such a table, and so do the empty table and an
insertion that is accepted. The index then has one entry for each key of the rows
(`WellFormed.perm_keys`).
-/

namespace Relata.Table

/-- The rows of a table fit its schema, and its index finds the first row with a key. -/
structure WellFormed (t : Table) : Prop where
  conforms : ∀ row ∈ t.tuples, t.schema.check row = .ok ()
  find?_eq : ∀ key, t.find? key = t.tuples.find? fun row => t.schema.keyOf row = key

/-! ## The index of a sequence of rows -/

section Fold

variable (schema : Schema) (index : Index)

theorem find?_indexFirst (row : Tuple) (key : Key) :
    (indexFirst schema index row).find? key
      = (index.find? key).or (if schema.keyOf row = key then some row else none) := by
  rw [indexFirst]
  cases hc : index.contains (schema.keyOf row) with
  | true =>
    -- The key is taken, and what is found under it stays.
    rw [if_pos rfl]
    by_cases hk : schema.keyOf row = key
    · subst hk
      obtain ⟨first, hf⟩ := Option.isSome_iff_exists.mp hc
      rw [hf, Option.some_or]
    · rw [if_neg hk, Option.or_none]
  | false =>
    rw [if_neg Bool.false_ne_true, Index.find?_insert]
    by_cases hk : schema.keyOf row = key
    · subst hk
      rw [if_pos rfl, if_pos rfl, Option.not_isSome_iff_eq_none.mp (Bool.eq_false_iff.mp hc),
        Option.none_or]
    · rw [if_neg (Ne.symm hk), if_neg hk, Option.or_none]

/-- The index made from rows finds what it found before, and else the first of the rows. -/
theorem find?_foldl (tuples : List Tuple) (key : Key) :
    (tuples.foldl (indexFirst schema) index).find? key
      = (index.find? key).or (tuples.find? fun row => schema.keyOf row = key) := by
  induction tuples generalizing index with
  | nil => rw [List.foldl_nil, List.find?_nil, Option.or_none]
  | cons row rest ih =>
    rw [List.foldl_cons, ih, find?_indexFirst, Option.or_assoc, List.find?_cons]
    by_cases hk : schema.keyOf row = key
    · simp [hk]
    · simp [hk]

variable {index} in
theorem lawful_foldl (h : index.Lawful) (tuples : List Tuple) :
    (tuples.foldl (indexFirst schema) index).Lawful := by
  induction tuples generalizing index with
  | nil => exact h
  | cons row rest ih =>
    refine ih ?_
    rw [indexFirst]
    split
    · exact h
    · exact h.insert _ _

theorem kind_foldl (tuples : List Tuple) :
    (tuples.foldl (indexFirst schema) index).kind = index.kind := by
  induction tuples generalizing index with
  | nil => rfl
  | cons row rest ih =>
    rw [List.foldl_cons, ih, indexFirst]
    split
    · rfl
    · exact Index.kind_insert ..

end Fold

/-! ## Making tables -/

theorem find?_ofTuples (name : String) (schema : Schema) (kind : IndexKind) (tuples : List Tuple)
    (key : Key) :
    (ofTuples name schema kind tuples).find? key
      = tuples.find? fun row => schema.keyOf row = key := by
  rw [find?, ofTuples, find?_foldl, Index.find?_empty, Option.none_or]

theorem indexKind_ofTuples (name : String) (schema : Schema) (kind : IndexKind) (tuples : List Tuple) :
    (ofTuples name schema kind tuples).indexKind = kind := by
  rw [indexKind, ofTuples, kind_foldl, Index.kind_empty]

theorem lawful_ofTuples (name : String) (schema : Schema) (kind : IndexKind) (tuples : List Tuple) :
    (ofTuples name schema kind tuples).index.Lawful :=
  lawful_foldl schema (Index.lawful_empty kind) tuples

theorem WellFormed.ofTuples (name : String) {schema : Schema} (kind : IndexKind) {tuples : List Tuple}
    (h : ∀ row ∈ tuples, schema.check row = .ok ()) :
    (ofTuples name schema kind tuples).WellFormed :=
  ⟨h, find?_ofTuples name schema kind tuples⟩

theorem WellFormed.empty (name : String) (schema : Schema) (kind : IndexKind) :
    (empty name schema kind).WellFormed :=
  .ofTuples name kind fun _ hr => nomatch hr

/-! ## Insertion -/

/-- An insertion is accepted when the row fits and its key is new, and it adds the row to both. -/
theorem insert_eq_ok {t t' : Table} {row : Tuple} (h : t.insert row = .ok t') :
    t.schema.check row = .ok () ∧ t.index.contains (t.schema.keyOf row) = false
      ∧ t' = { t with tuples := t.tuples ++ [row], index := t.index.insert (t.schema.keyOf row) row } := by
  obtain ⟨⟨⟩, hc, h⟩ := exists_of_bind_eq_ok h
  cases hk : t.index.contains (t.schema.keyOf row) with
  | true => simp only [hk, if_true] at h; cases h
  | false =>
    simp only [hk, Bool.false_eq_true, if_false] at h
    exact ⟨hc, rfl, (Except.ok.inj h).symm⟩

theorem WellFormed.insert {t t' : Table} (h : t.WellFormed) {row : Tuple} (hi : t.insert row = .ok t') :
    t'.WellFormed := by
  obtain ⟨hc, hk, rfl⟩ := insert_eq_ok hi
  refine ⟨fun r hr => ?_, fun key => ?_⟩
  · rcases List.mem_append.mp hr with hr | hr
    · exact h.conforms r hr
    · exact List.mem_singleton.mp hr ▸ hc
  · have hn : t.find? (t.schema.keyOf row) = none :=
      Option.not_isSome_iff_eq_none.mp (Bool.eq_false_iff.mp hk)
    -- The key was not there, so the new row is the first that has it.
    show (t.index.insert (t.schema.keyOf row) row).find? key = _
    rw [Index.find?_insert, List.find?_append, ← h.find?_eq key, List.find?_singleton]
    by_cases he : key = t.schema.keyOf row
    · subst he
      rw [if_pos rfl, hn, Option.none_or, decide_eq_true rfl, if_pos rfl]
    · rw [if_neg he, decide_eq_false (Ne.symm he), if_neg Bool.false_ne_true, Option.or_none]
      rfl

/-- What every accepted insertion keeps is kept by a run of insertions, wherever it stops. -/
theorem insertAll_induction {motive : Table → Prop} {t : Table} (h : motive t)
    (step : ∀ {t t' : Table} {row : Tuple}, motive t → t.insert row = .ok t' → motive t')
    (rows : List Tuple) : motive (t.insertAll rows).1 := by
  induction rows generalizing t with
  | nil => exact h
  | cons row rest ih =>
    rw [insertAll]
    cases hi : t.insert row with
    | error fault => exact h
    | ok t' => exact ih (step h hi)

/-! ## Keys of the index -/

/-- The index has a tuple under exactly the keys of the rows. -/
theorem WellFormed.contains_iff {t : Table} (h : t.WellFormed) (key : Key) :
    t.index.contains key = true ↔ ∃ row ∈ t.tuples, t.schema.keyOf row = key := by
  rw [Index.contains, show t.index.find? key = t.find? key from rfl, h.find?_eq, List.find?_isSome]
  exact exists_congr fun row => and_congr_right fun _ => decide_eq_true_iff

/-- The index has exactly the keys of the rows. -/
theorem WellFormed.mem_keys_iff {t : Table} (h : t.WellFormed) (hl : t.index.Lawful) (key : Key) :
    key ∈ t.index.keys ↔ key ∈ t.tuples.map t.schema.keyOf := by
  rw [← hl.contains_iff, h.contains_iff, List.mem_map]

/-- The index has one entry for each key of the rows. -/
theorem WellFormed.perm_keys {t : Table} (h : t.WellFormed) (hl : t.index.Lawful) :
    t.index.keys.Perm (t.tuples.map t.schema.keyOf).dedup := by
  refine (List.perm_ext_iff_of_nodup hl.nodup_keys (List.nodup_dedup _)).mpr fun key => ?_
  rw [h.mem_keys_iff hl, List.mem_dedup]

theorem length_keys (index : Index) : index.keys.length = index.size := List.length_map _

/-- An accepted insertion keeps the keys of the rows distinct. -/
theorem nodup_insert {t t' : Table} (h : t.WellFormed) (hn : (t.tuples.map t.schema.keyOf).Nodup)
    {row : Tuple} (hi : t.insert row = .ok t') : (t'.tuples.map t'.schema.keyOf).Nodup := by
  obtain ⟨-, hk, rfl⟩ := insert_eq_ok hi
  rw [List.map_append, List.map_singleton, List.nodup_append]
  refine ⟨hn, List.nodup_singleton _, fun key hm other ho => ?_⟩
  rw [List.mem_singleton.mp ho]
  intro he
  rw [he, List.mem_map, ← h.contains_iff, hk] at hm
  cases hm

/-! ## A table with odd rows

Its key repeats, one of its numbers is a NaN with a payload and another one the negative zero. -/

/-- The schema of levels at sites, whose key is the site. -/
def levelsSchema : Schema where
  attributes := [⟨"site", .string⟩, ⟨"level", .double⟩]
  key := ["site"]
  valid := ⟨by decide, by decide, by decide, by decide, by decide⟩

/-- Levels at two sites, one of which comes twice. -/
def levelsRows : List Tuple :=
  [[.string "Åre \"N\"", .double 0x7FF8000000000001], [.string "", .double 0x8000000000000000],
    [.string "Åre \"N\"", .double 0x0000000000000000]]

/-- The table of levels. -/
def levels : Table := ofTuples "levels" levelsSchema .btree levelsRows

theorem levelsRows_conform : ∀ row ∈ levelsRows, levelsSchema.check row = .ok () := by
  decide

end Relata.Table
