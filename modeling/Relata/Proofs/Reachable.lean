import Relata.Proofs.Operators
import Relata.Proofs.Snapshots
/-!
# Reachable tables

The tables that can come about: empty ones, those that rows are inserted into, those made at once of
rows that fit, renamed and copied ones, results of operators on such tables, and tables that are loaded.
In each of them the rows and the index tell the same (`Indexed`): every way to make a table keeps it well
formed and its index lawful (`Reachable.sound`), and the rest follows from that.
-/

namespace Relata.Table

/-- The tables that can come about. -/
inductive Reachable : Table → Prop where
  /-- A table without rows, over any schema, also one that was spelled in words. -/
  | empty (name : String) (schema : Schema) (kind : IndexKind) : Reachable (empty name schema kind)
  /-- One more row that is accepted. A row that is rejected leaves the table as it was. -/
  | insert {t t' : Table} {row : Tuple} (h : Reachable t) (hi : t.insert row = .ok t') : Reachable t'
  /-- Rows up to the first that is rejected. -/
  | insertAll {t : Table} (h : Reachable t) (rows : List Tuple) : Reachable (t.insertAll rows).1
  | ofTuples (name : String) {schema : Schema} (kind : IndexKind) {tuples : List Tuple}
      (h : ∀ row ∈ tuples, schema.check row = .ok ()) : Reachable (ofTuples name schema kind tuples)
  | rename {t : Table} (h : Reachable t) (name : String) : Reachable (t.rename name)
  | copy {t : Table} (h : Reachable t) : Reachable t.copy
  /-- The result of an operator, in any session. -/
  | run {op : Operator} {inputs : List Table} {session session' : Session} {t : Table}
      (h : ∀ input ∈ inputs, Reachable input) (hr : op.run inputs session = (.ok t, session')) :
      Reachable t
  /-- What is loaded from any bytes that are a snapshot. -/
  | load {bytes : Bytes} {t : Table} (h : Snapshot.decode bytes = .ok t) : Reachable t

/-- The tables that only insertions into an empty one have filled. -/
inductive Filled : Table → Prop where
  | empty (name : String) (schema : Schema) (kind : IndexKind) : Filled (empty name schema kind)
  | insert {t t' : Table} {row : Tuple} (h : Filled t) (hi : t.insert row = .ok t') : Filled t'
  | insertAll {t : Table} (h : Filled t) (rows : List Tuple) : Filled (t.insertAll rows).1

/-- The rows and the index of a table tell the same. -/
structure Indexed (t : Table) : Prop where
  /-- Every row fits the schema. -/
  conforms : ∀ row ∈ t.tuples, t.schema.check row = .ok ()
  /-- A key finds the first row with its values at the key columns, and nothing if there is none. -/
  find?_eq : ∀ key, t.find? key = t.tuples.find? fun row => row.project? t.schema.keyColumns = some key
  /-- No key has two entries. -/
  nodup_keys : t.index.keys.Nodup
  /-- The keys with an entry are those of the rows. -/
  mem_keys_iff : ∀ key, key ∈ t.index.keys ↔ ∃ row ∈ t.tuples, row.project? t.schema.keyColumns = some key
  /-- There are as many entries as distinct keys. -/
  size_eq : t.index.size = (t.tuples.map t.schema.keyOf).dedup.length
  /-- A B-tree has its keys in strictly ascending order. -/
  ascending : t.indexKind = .btree → t.index.keys.Pairwise fun a b => compare a b = .lt

/-! ## What every step keeps -/

/-- What each way to make a table keeps. -/
def Sound (t : Table) : Prop := t.WellFormed ∧ t.index.Lawful

theorem Sound.ofTuples (name : String) {schema : Schema} (kind : IndexKind) {tuples : List Tuple}
    (h : ∀ row ∈ tuples, schema.check row = .ok ()) : (ofTuples name schema kind tuples).Sound :=
  ⟨.ofTuples name kind h, lawful_ofTuples ..⟩

theorem Sound.insert {t t' : Table} {row : Tuple} (h : t.Sound) (hi : t.insert row = .ok t') :
    t'.Sound := by
  refine ⟨h.1.insert hi, ?_⟩
  obtain ⟨-, -, rfl⟩ := insert_eq_ok hi
  exact h.2.insert _ _

/-- An operator on sound tables gives a sound table. -/
theorem Sound.run {op : Operator} {inputs : List Table} {session session' : Session} {t : Table}
    (h : ∀ input ∈ inputs, input.Sound) (hr : op.run inputs session = (.ok t, session')) : t.Sound := by
  rw [Operator.run] at hr
  split at hr
  · cases hr
  · next result hres =>
    cases hr
    refine .ofTuples _ _ fun row hm => Schema.check_eq_ok_iff.mpr ?_
    exact Operator.fits_of_result (fun input hi => (h input hi).1) hres row hm

/-- Loading checks every row, whatever the bytes are. -/
theorem Sound.load {bytes : Bytes} {t : Table} (h : Snapshot.decode bytes = .ok t) : t.Sound := by
  obtain ⟨image, -, ht⟩ := Snapshot.of_decode_eq_ok h
  obtain ⟨schema, hc, rfl⟩ := TableImage.exists_of_toTable_eq_ok ht
  exact .ofTuples _ _ hc

/-- Every reachable table is sound. -/
theorem Reachable.sound {t : Table} (h : t.Reachable) : t.Sound := by
  induction h with
  | empty name schema kind => exact .ofTuples name kind fun _ hr => nomatch hr
  | insert _ hi ih => exact ih.insert hi
  | insertAll _ rows ih => exact insertAll_induction ih Sound.insert rows
  | ofTuples name kind h => exact .ofTuples name kind h
  | rename _ name ih => exact .ofTuples name _ ih.1.conforms
  | copy _ ih => exact .ofTuples _ _ ih.1.conforms
  | run _ hr ih => exact .run ih hr
  | load h => exact .load h

theorem Reachable.wellFormed {t : Table} (h : t.Reachable) : t.WellFormed := h.sound.1

theorem reachable_levels : levels.Reachable := .ofTuples "levels" .btree levelsRows_conform

/-- Insertions keep the keys of the rows distinct. -/
theorem Filled.nodup {t : Table} (h : t.Filled) :
    t.WellFormed ∧ (t.tuples.map t.schema.keyOf).Nodup := by
  have step : ∀ {t t' : Table} {row : Tuple},
      t.WellFormed ∧ (t.tuples.map t.schema.keyOf).Nodup → t.insert row = .ok t' →
        t'.WellFormed ∧ (t'.tuples.map t'.schema.keyOf).Nodup :=
    fun h hi => ⟨h.1.insert hi, nodup_insert h.1 h.2 hi⟩
  induction h with
  | empty name schema kind => exact ⟨.empty name schema kind, List.nodup_nil⟩
  | insert _ hi ih => exact step ih hi
  | insertAll _ rows ih => exact insertAll_induction ih step rows

/-! ## What follows -/

theorem project?_eq_some_iff {t : Table} (h : t.WellFormed) {row : Tuple} (hr : row ∈ t.tuples) (key : Key) :
    row.project? t.schema.keyColumns = some key ↔ t.schema.keyOf row = key := by
  have fits : t.schema.Fits row := Schema.check_eq_ok_iff.mp (h.conforms row hr)
  rw [fits.project?_keyColumns, Option.some.injEq]

/-- The number of entries is the number of distinct keys. -/
theorem Sound.size_eq {t : Table} (h : t.Sound) :
    t.index.size = (t.tuples.map t.schema.keyOf).dedup.length := by
  rw [← length_keys]
  exact (h.1.perm_keys h.2).length_eq

theorem Sound.indexed {t : Table} (h : t.Sound) : t.Indexed where
  conforms := h.1.conforms
  find?_eq key := by
    rw [h.1.find?_eq, ← List.head?_filter, ← List.head?_filter]
    refine congrArg List.head? (List.filter_congr fun row hr => ?_)
    rw [decide_eq_decide]
    exact (project?_eq_some_iff h.1 hr key).symm
  nodup_keys := h.2.nodup_keys
  mem_keys_iff key := by
    rw [h.1.mem_keys_iff h.2, List.mem_map]
    exact exists_congr fun row => and_congr_right fun hr => (project?_eq_some_iff h.1 hr key).symm
  size_eq := h.size_eq
  ascending hk := by
    obtain ⟨-, hl⟩ := h
    rw [indexKind] at hk
    cases hi : t.index with
    | hash entries => rw [hi] at hk; cases hk
    | btree entries => rw [hi] at hl; exact hl

/-- In every reachable table the rows and the index tell the same, and where only insertions have filled
the table no key repeats. -/
theorem reachable_indexed {t : Table} (h : t.Reachable) :
    t.Indexed ∧ (t.Filled → (t.tuples.map t.schema.keyOf).Nodup ∧ t.index.size = t.size) := by
  refine ⟨h.sound.indexed, fun hf => ⟨hf.nodup.2, ?_⟩⟩
  rw [h.sound.size_eq, hf.nodup.2.dedup, List.length_map, size]

/-- Of the levels inserted one by one the last is rejected, since its site has come. -/
theorem reachable_indexed_levels :
    let t := ((empty "levels" levelsSchema .btree).insertAll levelsRows).1
    t.Reachable ∧ t.size = 2 ∧ t.Indexed ∧ (t.tuples.map t.schema.keyOf).Nodup ∧ t.index.size = t.size :=
  have h : ((empty "levels" levelsSchema .btree).insertAll levelsRows).1.Reachable :=
    .insertAll (.empty "levels" levelsSchema .btree) levelsRows
  have agree := reachable_indexed h
  ⟨h, by decide +kernel, agree.1, agree.2 (.insertAll (.empty "levels" levelsSchema .btree) levelsRows)⟩

end Relata.Table
