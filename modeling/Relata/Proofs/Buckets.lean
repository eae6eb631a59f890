import Mathlib.Data.List.Dedup
import Relata.Index.Multi
import Relata.Proofs.Entries
import Relata.Proofs.Rows
/-!
# Buckets

A multi-valued index holds what was added to it and nothing else (`Holds`): under each key the tuples in the order they
came, one bucket for each key, in all buckets together every tuple as often as it came, and as many as it has counted.
One more tuple keeps that (`Holds.insert`), so any sequence of additions does (`Holds.insertAll`). The index of tuples
under their values at some columns is made by such a sequence (`build_eq_insertAll`).
-/

namespace Relata.MultiIndex

/-! ## One more tuple -/

theorem find_insert (index : MultiIndex) (key : Key) (tuple : Tuple) (q : Key) :
    (index.insert key tuple).find q = if q = key then index.find q ++ [tuple] else index.find q := by
  obtain ⟨buckets, size⟩ := index
  show ((addTo key tuple buckets).lookup q).getD [] = _
  simp only [find]
  induction buckets with
  | nil =>
    by_cases h : q = key
    · simp [addTo, h]
    · simp [addTo, h, List.lookup_cons, beq_eq_false_iff_ne.mpr h]
  | cons b rest ih =>
    rw [addTo, List.lookup_cons]
    by_cases hb : b.1 = key
    · rw [if_pos hb, List.lookup_cons, hb]
      by_cases h : q = key
      · simp [h]
      · simp [h, beq_eq_false_iff_ne.mpr h]
    · rw [if_neg hb, List.lookup_cons]
      -- A key of the first bucket is not the one that is added to, so its bucket stays.
      by_cases hq : q = b.1
      · simp [hq, hb]
      · rw [beq_eq_false_iff_ne.mpr hq]
        exact ih

/-- A key that has no bucket gets one behind the others. -/
theorem keys_addTo (key : Key) (tuple : Tuple) (buckets : List (Key × List Tuple)) :
    Entries.keys (addTo key tuple buckets)
      = if key ∈ Entries.keys buckets then Entries.keys buckets else Entries.keys buckets ++ [key] := by
  induction buckets with
  | nil => simp [addTo, Entries.keys]
  | cons b rest ih =>
    by_cases hb : b.1 = key
    · simp [addTo, hb, Entries.keys_cons]
    · simp only [addTo, if_neg hb, Entries.keys_cons, ih, List.mem_cons, Ne.symm hb, false_or]
      split
      · rfl
      · rw [List.cons_append]

/-- The buckets together have one more tuple, in the midst of the others. -/
theorem perm_addTo (key : Key) (tuple : Tuple) (buckets : List (Key × List Tuple)) :
    ((addTo key tuple buckets).flatMap Prod.snd).Perm (buckets.flatMap Prod.snd ++ [tuple]) := by
  induction buckets with
  | nil => simp [addTo]
  | cons b rest ih =>
    rw [addTo, List.flatMap_cons, List.append_assoc]
    split
    · rw [List.flatMap_cons, List.append_assoc]
      exact List.perm_append_comm.append_left b.2
    · exact ih.append_left b.2

/-! ## What an index holds -/

/-- The index holds the tuples that were added, each under its key, and nothing else. -/
structure Holds (index : MultiIndex) (added : List (Key × Tuple)) : Prop where
  /-- Under a key stand its tuples, in the order they came. -/
  find_eq : ∀ key, index.find key = (added.filter fun a => a.1 = key).map Prod.snd
  /-- No key has two buckets. -/
  nodup_keys : (Entries.keys index.buckets).Nodup
  /-- The keys with a bucket are those that something was added under. -/
  mem_keys_iff : ∀ key, key ∈ Entries.keys index.buckets ↔ key ∈ added.map Prod.fst
  /-- The buckets together are everything that was added. -/
  perm : (index.buckets.flatMap Prod.snd).Perm (added.map Prod.snd)
  /-- The count is that of the tuples. -/
  size_eq : index.size = added.length

theorem holds_empty : empty.Holds [] where
  find_eq _ := rfl
  nodup_keys := List.nodup_nil
  mem_keys_iff _ := Iff.rfl
  perm := List.Perm.refl _
  size_eq := rfl

namespace Holds

variable {index : MultiIndex} {added : List (Key × Tuple)}

theorem insert (h : index.Holds added) (key : Key) (tuple : Tuple) :
    (index.insert key tuple).Holds (added ++ [(key, tuple)]) where
  find_eq q := by
    rw [find_insert, h.find_eq, List.filter_append, List.map_append]
    by_cases hq : q = key
    · simp [hq]
    · simp [hq, Ne.symm hq]
  nodup_keys := by
    show (Entries.keys (addTo key tuple index.buckets)).Nodup
    rw [keys_addTo]
    split
    · exact h.nodup_keys
    · next fresh => exact List.nodup_append_comm.mp (List.nodup_cons.mpr ⟨fresh, h.nodup_keys⟩)
  mem_keys_iff q := by
    show q ∈ Entries.keys (addTo key tuple index.buckets) ↔ _
    rw [keys_addTo, List.map_append, List.mem_append, ← h.mem_keys_iff]
    split
    · next old => simpa using fun hq : q = key => hq ▸ old
    · simp
  perm := by
    rw [List.map_append]
    exact (perm_addTo key tuple index.buckets).trans (h.perm.append_right [tuple])
  size_eq := by
    show index.size + 1 = _
    rw [h.size_eq, List.length_append, List.length_singleton]

/-- There is one bucket for each key that something was added under. -/
theorem keyCount_eq (h : index.Holds added) : index.keyCount = (added.map Prod.fst).dedup.length := by
  have same : (Entries.keys index.buckets).Perm (added.map Prod.fst).dedup := by
    rw [List.perm_ext_iff_of_nodup h.nodup_keys (List.nodup_dedup _)]
    intro key
    rw [List.mem_dedup, h.mem_keys_iff]
  calc index.keyCount = (Entries.keys index.buckets).length := (List.length_map _).symm
    _ = (added.map Prod.fst).dedup.length := same.length_eq

theorem isEmpty_iff (h : index.Holds added) : index.isEmpty = true ↔ added = [] := by
  rw [isEmpty, beq_iff_eq, h.size_eq, List.length_eq_zero_iff]

end Holds

/-! ## Any number of tuples -/

/-- The index after tuples are added under their keys, one after the other. -/
def insertAll (index : MultiIndex) (added : List (Key × Tuple)) : MultiIndex :=
  added.foldl (fun index a => index.insert a.1 a.2) index

theorem Holds.insertAll {index : MultiIndex} {before : List (Key × Tuple)} (h : index.Holds before)
    (added : List (Key × Tuple)) : (index.insertAll added).Holds (before ++ added) := by
  induction added generalizing index before with
  | nil => rwa [List.append_nil]
  | cons a rest ih =>
    have next := ih (h.insert a.1 a.2)
    rwa [List.append_assoc] at next

/-- Tuples under their values at some columns. -/
def keyed (tuples : List Tuple) (columns : List Nat) : List (Key × Tuple) :=
  tuples.map fun t => (t.project columns, t)

theorem build_eq_insertAll (tuples : List Tuple) (columns : List Nat) :
    build tuples columns = empty.insertAll (keyed tuples columns) := by
  rw [build, insertAll, keyed, List.foldl_map]

theorem holds_build (tuples : List Tuple) (columns : List Nat) :
    (build tuples columns).Holds (keyed tuples columns) := by
  rw [build_eq_insertAll]
  exact holds_empty.insertAll _

theorem find_keyed (tuples : List Tuple) (columns : List Nat) (key : Key) :
    ((keyed tuples columns).filter fun a => a.1 = key).map Prod.snd
      = tuples.filter fun t => t.project columns = key := by
  rw [keyed, List.filter_map, List.map_map]
  exact List.map_id _

/-- The index of tuples finds those that show a key, in their order. -/
theorem find_build (tuples : List Tuple) (columns : List Nat) (key : Key) :
    (build tuples columns).find key = tuples.filter fun t => t.project columns = key := by
  rw [(holds_build tuples columns).find_eq, find_keyed]

/-- Where every tuple has the columns, the index is built. -/
theorem build?_eq_some {tuples : List Tuple} {columns : List Nat}
    (h : ∀ t ∈ tuples, t.project? columns = some (t.project columns)) :
    build? tuples columns = some (build tuples columns) := by
  rw [build?, build]
  generalize empty = index
  induction tuples generalizing index with
  | nil => rfl
  | cons t rest ih =>
    rw [List.foldlM_cons, List.foldl_cons, h t List.mem_cons_self]
    exact ih (fun u hu => h u (List.mem_cons_of_mem t hu)) _

/-- An index of tuples that have the columns is built. It holds them and whatever is added to it later, under each key
in the order they came, and it counts the tuples and the keys. -/
theorem built_and_added_to {tuples : List Tuple} {columns : List Nat}
    (h : ∀ t ∈ tuples, ∀ c ∈ columns, c < t.length) :
    ∃ built, build? tuples columns = some built
      ∧ ∀ added : List (Key × Tuple),
        (∀ key, (built.insertAll added).find key
          = (tuples.filter fun t => t.project? columns = some key)
            ++ (added.filter fun a => a.1 = key).map Prod.snd)
        ∧ (built.insertAll added).size = tuples.length + added.length
        ∧ (built.insertAll added).keyCount
          = (tuples.filterMap (fun t => t.project? columns) ++ added.map Prod.fst).dedup.length
        ∧ ((built.insertAll added).isEmpty = true ↔ tuples = [] ∧ added = [])
        ∧ ((built.insertAll added).buckets.flatMap Prod.snd).Perm (tuples ++ added.map Prod.snd) := by
  have shown : ∀ t ∈ tuples, t.project? columns = some (t.project columns) :=
    fun t ht => Tuple.project?_eq_some (h t ht)
  have keys : tuples.filterMap (fun t => t.project? columns) = (keyed tuples columns).map Prod.fst := by
    rw [keyed, List.map_map, ← List.filterMap_eq_map]
    exact List.filterMap_congr shown
  refine ⟨build tuples columns, build?_eq_some shown, ?_⟩
  intro added
  have all := (holds_build tuples columns).insertAll added
  refine ⟨?_, ?_, ?_, ?_, ?_⟩
  · intro key
    rw [all.find_eq, List.filter_append, List.map_append, find_keyed]
    congr 1
    apply List.filter_congr
    intro t ht
    rw [decide_eq_decide, shown t ht, Option.some.injEq]
  · rw [all.size_eq, List.length_append, keyed, List.length_map]
  · rw [all.keyCount_eq, List.map_append, keys]
  · rw [all.isEmpty_iff, List.append_eq_nil_iff, keyed, List.map_eq_nil_iff]
  · have tuples_back : (keyed tuples columns).map Prod.snd = tuples := by
      rw [keyed, List.map_map]
      exact List.map_id _
    have together := all.perm
    rwa [List.map_append, tuples_back] at together

/-- Two of the three rows show a fox. One more fox comes later, and a tuple without values under the key without
values. -/
theorem built_and_added_to_sightings :
    let fox : Value := .string "fox"
    let owl : Value := .string "owl"
    let sightings : List Tuple := [[.short 3, fox], [.short 5, owl], [.short 3, fox]]
    (∀ t ∈ sightings, ∀ c ∈ [1], c < t.length) ∧ ∃ built, build? sightings [1] = some built
      ∧ (built.insertAll [([fox], [.short 8]), ([], [])]).find [fox] = [[.short 3, fox], [.short 3, fox], [.short 8]]
      ∧ (built.insertAll [([fox], [.short 8]), ([], [])]).size = 5
      ∧ (built.insertAll [([fox], [.short 8]), ([], [])]).keyCount = 3 := by
  intro fox owl sightings
  have shown : ∀ t ∈ sightings, ∀ c ∈ [1], c < t.length := by decide
  obtain ⟨built, made, holds⟩ := built_and_added_to shown
  obtain ⟨find, size, keys, -, -⟩ := holds [([fox], [.short 8]), ([], [])]
  refine ⟨shown, built, made, ?_, size, ?_⟩
  · rw [find]
    decide
  · rw [keys]
    decide

end Relata.MultiIndex
