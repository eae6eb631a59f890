import Relata.Proofs.ValueOrder
import Relata.Index.Basic
/-!
# Lists of entries

Both ways to put a value under a key do the same to look-up (`lookup_replace`, `search?_insert`): the new
value is found under its key, and nothing changes under the others. They differ in what they keep: one
keeps the keys distinct, the other keeps them ascending. In ascending entries a search by the order of the
keys finds what a look-up by equality finds (`search?_eq_lookup`).
-/

namespace Relata

namespace Entries

variable {κ ν : Type}

/-- The keys of entries, in their order. -/
def keys (entries : List (κ × ν)) : List κ := entries.map Prod.fst

/-- Entries in strictly ascending order of their keys. -/
def Ascending [Ord κ] (entries : List (κ × ν)) : Prop :=
  (keys entries).Pairwise fun a b => compare a b = .lt

theorem keys_cons (e : κ × ν) (entries : List (κ × ν)) : keys (e :: entries) = e.1 :: keys entries := rfl

/-- Exactly the keys have a value. -/
theorem isSome_lookup_iff [BEq κ] [LawfulBEq κ] (k : κ) (entries : List (κ × ν)) :
    (entries.lookup k).isSome = true ↔ k ∈ keys entries := by
  induction entries with
  | nil => simp [keys]
  | cons e rest ih =>
    rw [List.lookup_cons, keys_cons, List.mem_cons, ← ih]
    by_cases h : k = e.1
    · simp [h]
    · have : (k == e.1) = false := beq_eq_false_iff_ne.mpr h
      simp [h, this]

/-! ## Keeping the keys distinct -/

section Replace

variable [DecidableEq κ]

theorem lookup_replace [BEq κ] [LawfulBEq κ] (k : κ) (v : ν) (entries : List (κ × ν)) (q : κ) :
    (replace k v entries).lookup q = if q = k then some v else entries.lookup q := by
  induction entries with
  | nil =>
    by_cases h : q = k
    · simp [replace, h]
    · simp [replace, h, List.lookup_cons, beq_eq_false_iff_ne.mpr h]
  | cons e rest ih =>
    rw [List.lookup_cons]
    by_cases he : e.1 = k
    · subst he
      rw [replace, if_pos rfl, List.lookup_cons]
      by_cases h : q = e.1
      · simp [h]
      · simp [h, beq_eq_false_iff_ne.mpr h]
    · rw [replace, if_neg he, List.lookup_cons, ih]
      -- The first entry stays in front, so a key that it has is not the one that is put in.
      by_cases h : q = k
      · subst h
        simp [beq_eq_false_iff_ne.mpr (Ne.symm he)]
      · simp [h]

theorem mem_keys_replace (k : κ) (v : ν) (entries : List (κ × ν)) (q : κ) :
    q ∈ keys (replace k v entries) ↔ q = k ∨ q ∈ keys entries := by
  induction entries with
  | nil => simp [replace, keys]
  | cons e rest ih =>
    by_cases he : e.1 = k
    · rw [replace, if_pos he, keys_cons, keys_cons, List.mem_cons, List.mem_cons, he]
      exact ⟨fun h => .inr h, fun h => h.elim .inl id⟩
    · rw [replace, if_neg he, keys_cons, keys_cons, List.mem_cons, List.mem_cons, ih]
      exact ⟨fun h => h.elim (fun h => .inr (.inl h)) fun h => h.elim .inl fun h => .inr (.inr h),
        fun h => h.elim (fun h => .inr (.inl h)) fun h => h.elim .inl fun h => .inr (.inr h)⟩

theorem nodup_keys_replace (k : κ) (v : ν) {entries : List (κ × ν)} (h : (keys entries).Nodup) :
    (keys (replace k v entries)).Nodup := by
  induction entries with
  | nil => simp [replace, keys]
  | cons e rest ih =>
    rw [keys_cons, List.nodup_cons] at h
    by_cases he : e.1 = k
    · rw [replace, if_pos he, keys_cons, List.nodup_cons]
      exact ⟨he ▸ h.1, h.2⟩
    · rw [replace, if_neg he, keys_cons, List.nodup_cons, mem_keys_replace]
      exact ⟨fun hm => hm.elim he h.1, ih h.2⟩

end Replace

/-! ## Keeping the keys in order -/

section Insert

variable [Ord κ]

theorem nodup_of_ascending [Std.ReflOrd κ] {entries : List (κ × ν)} (h : Ascending entries) :
    (keys entries).Nodup := by
  refine List.Pairwise.imp (fun {a b} hab hne => ?_) h
  rw [hne, Std.ReflOrd.compare_self] at hab
  cases hab

variable [Std.LawfulEqOrd κ]

theorem mem_keys_insert (k : κ) (v : ν) (entries : List (κ × ν)) (q : κ) :
    q ∈ keys (insert k v entries) ↔ q = k ∨ q ∈ keys entries := by
  induction entries with
  | nil => simp [insert, keys]
  | cons e rest ih =>
    rw [insert]
    cases hc : compare k e.1 with
    | lt => exact List.mem_cons
    | eq =>
      have hk := Std.LawfulEqOrd.eq_of_compare hc
      show q ∈ k :: keys rest ↔ _
      rw [keys_cons, List.mem_cons, List.mem_cons, ← hk]
      exact ⟨fun h => .inr h, fun h => h.elim .inl id⟩
    | gt =>
      show q ∈ e.1 :: keys (insert k v rest) ↔ _
      rw [keys_cons, List.mem_cons, List.mem_cons, ih]
      exact ⟨fun h => h.elim (fun h => .inr (.inl h)) fun h => h.elim .inl fun h => .inr (.inr h),
        fun h => h.elim (fun h => .inr (.inl h)) fun h => h.elim .inl fun h => .inr (.inr h)⟩

variable [Std.TransOrd κ]

theorem lookup_insert [DecidableEq κ] [BEq κ] [LawfulBEq κ] (k : κ) (v : ν) (entries : List (κ × ν))
    (q : κ) : (insert k v entries).lookup q = if q = k then some v else entries.lookup q := by
  have front : ∀ rest : List (κ × ν),
      ((k, v) :: rest).lookup q = if q = k then some v else rest.lookup q := by
    intro rest
    by_cases h : q = k
    · simp [h]
    · simp [h, List.lookup_cons, beq_eq_false_iff_ne.mpr h]
  induction entries with
  | nil => exact front []
  | cons e rest ih =>
    rw [insert]
    cases hc : compare k e.1 with
    | lt => exact front (e :: rest)
    | eq =>
      have hk := Std.LawfulEqOrd.eq_of_compare hc
      show ((k, v) :: rest).lookup q = _
      rw [front, List.lookup_cons, ← hk]
      by_cases h : q = k
      · simp [h]
      · simp [h, beq_eq_false_iff_ne.mpr h]
    | gt =>
      -- The order tells the keys apart where the hash index compares them.
      have hk : k ≠ e.1 := by
        intro he
        rw [he, Std.ReflOrd.compare_self] at hc
        cases hc
      show (e :: insert k v rest).lookup q = _
      rw [List.lookup_cons, List.lookup_cons, ih]
      by_cases h : q = k
      · subst h
        simp [beq_eq_false_iff_ne.mpr hk]
      · simp [h]

theorem ascending_insert (k : κ) (v : ν) {entries : List (κ × ν)} (h : Ascending entries) :
    Ascending (insert k v entries) := by
  induction entries with
  | nil => exact List.pairwise_singleton _ _
  | cons e rest ih =>
    unfold Ascending at h
    rw [keys_cons, List.pairwise_cons] at h
    rw [insert]
    cases hc : compare k e.1 with
    | lt =>
      refine List.pairwise_cons.mpr ⟨fun q hq => ?_, List.pairwise_cons.mpr h⟩
      rcases List.mem_cons.mp hq with rfl | hq
      · exact hc
      · exact Std.TransCmp.lt_trans hc (h.1 q hq)
    | eq =>
      have hk := Std.LawfulEqOrd.eq_of_compare hc
      exact List.pairwise_cons.mpr ⟨fun q hq => hk ▸ h.1 q hq, h.2⟩
    | gt =>
      -- The new key comes later than the first one, and so do all others.
      refine List.pairwise_cons.mpr ⟨fun q hq => ?_, ih h.2⟩
      rcases (mem_keys_insert k v rest q).mp hq with rfl | hq
      · rw [Std.OrientedCmp.gt_iff_lt] at hc
        exact hc
      · exact h.1 q hq

omit [Std.LawfulEqOrd κ] [Std.TransOrd κ] in
theorem search?_cons_of_lt {k : κ} {e : κ × ν} (h : compare k e.1 = .lt) (rest : List (κ × ν)) :
    search? k (e :: rest) = none := by
  rw [search?, h]

omit [Std.LawfulEqOrd κ] [Std.TransOrd κ] in
theorem search?_cons_of_eq {k : κ} {e : κ × ν} (h : compare k e.1 = .eq) (rest : List (κ × ν)) :
    search? k (e :: rest) = some e.2 := by
  rw [search?, h]

omit [Std.LawfulEqOrd κ] [Std.TransOrd κ] in
theorem search?_cons_of_gt {k : κ} {e : κ × ν} (h : compare k e.1 = .gt) (rest : List (κ × ν)) :
    search? k (e :: rest) = search? k rest := by
  rw [search?, h]

omit [Std.LawfulEqOrd κ] in
theorem ne_of_compare {k q : κ} {o : Ordering} (h : compare q k = o) (ho : o ≠ .eq) : q ≠ k := by
  intro he
  rw [he, Std.ReflOrd.compare_self] at h
  exact ho h.symm

/-- A search after a value is put under a key. Nothing is asked of the order of the entries: the search ends before
the place of its key, as the insertion does. -/
theorem search?_insert [DecidableEq κ] (k : κ) (v : ν) (entries : List (κ × ν)) (q : κ) :
    search? q (insert k v entries) = if q = k then some v else search? q entries := by
  -- In front of entries that a search for an earlier key does not enter, the new one is found or passed by.
  have front : ∀ rest : List (κ × ν), (compare q k = .lt → search? q rest = none) →
      search? q ((k, v) :: rest) = if q = k then some v else search? q rest := by
    intro rest early
    cases hq : compare q k with
    | lt => rw [search?_cons_of_lt hq, if_neg (ne_of_compare hq (by decide)), early hq]
    | eq => rw [search?_cons_of_eq hq, if_pos (Std.LawfulEqOrd.eq_of_compare hq)]
    | gt => rw [search?_cons_of_gt hq, if_neg (ne_of_compare hq (by decide))]
  induction entries with
  | nil => exact front [] fun _ => rfl
  | cons e rest ih =>
    rw [insert]
    cases hc : compare k e.1 with
    | lt => exact front (e :: rest) fun hq => search?_cons_of_lt (Std.TransCmp.lt_trans hq hc) rest
    | eq =>
      have hk := Std.LawfulEqOrd.eq_of_compare hc
      show search? q ((k, v) :: rest) = _
      cases hq : compare q k with
      | lt =>
        rw [search?_cons_of_lt hq, if_neg (ne_of_compare hq (by decide)), search?_cons_of_lt (hk ▸ hq)]
      | eq => rw [search?_cons_of_eq hq, if_pos (Std.LawfulEqOrd.eq_of_compare hq)]
      | gt =>
        rw [search?_cons_of_gt hq, if_neg (ne_of_compare hq (by decide)), search?_cons_of_gt (hk ▸ hq)]
    | gt =>
      have other : compare q e.1 ≠ .gt → q ≠ k := by
        intro hq he
        exact hq (he ▸ hc)
      show search? q (e :: insert k v rest) = _
      cases hq : compare q e.1 with
      | lt => rw [search?_cons_of_lt hq, if_neg (other (by simp [hq])), search?_cons_of_lt hq]
      | eq => rw [search?_cons_of_eq hq, if_neg (other (by simp [hq])), search?_cons_of_eq hq]
      | gt => rw [search?_cons_of_gt hq, ih, search?_cons_of_gt hq]

/-- In ascending entries the order of the keys finds what equality finds. -/
theorem search?_eq_lookup [BEq κ] [LawfulBEq κ] {entries : List (κ × ν)} (h : Ascending entries) (k : κ) :
    search? k entries = entries.lookup k := by
  induction entries with
  | nil => rfl
  | cons e rest ih =>
    unfold Ascending at h
    rw [keys_cons, List.pairwise_cons] at h
    rw [List.lookup_cons]
    cases hc : compare k e.1 with
    | lt =>
      -- A key before the first one is before all others, so equality does not find it either.
      have first : (k == e.1) = false := beq_eq_false_iff_ne.mpr (ne_of_compare hc (by decide))
      have later : k ∉ keys rest := by
        intro hm
        have before : compare k k = .lt := Std.TransCmp.lt_trans hc (h.1 k hm)
        rw [Std.ReflOrd.compare_self] at before
        cases before
      rw [search?_cons_of_lt hc, first]
      exact (Option.not_isSome_iff_eq_none.mp (mt (isSome_lookup_iff k rest).mp later)).symm
    | eq =>
      have same : (k == e.1) = true := beq_iff_eq.mpr (Std.LawfulEqOrd.eq_of_compare hc)
      rw [search?_cons_of_eq hc, same]
    | gt =>
      have other : (k == e.1) = false := beq_eq_false_iff_ne.mpr (ne_of_compare hc (by decide))
      rw [search?_cons_of_gt hc, other]
      exact ih h.2

end Insert

/-! ## Leaving keys out -/

theorem mem_of_lookup [BEq κ] [LawfulBEq κ] {k : κ} {v : ν} {entries : List (κ × ν)}
    (h : entries.lookup k = some v) : (k, v) ∈ entries := by
  induction entries with
  | nil => cases h
  | cons e rest ih =>
    rw [List.lookup_cons] at h
    by_cases hk : k = e.1
    · simp [hk] at h
      simp [hk, ← h]
    · rw [beq_eq_false_iff_ne.mpr hk] at h
      exact List.mem_cons_of_mem e (ih h)

theorem lookup_of_mem [BEq κ] [LawfulBEq κ] {k : κ} {v : ν} {entries : List (κ × ν)}
    (hn : (keys entries).Nodup) (h : (k, v) ∈ entries) : entries.lookup k = some v := by
  induction entries with
  | nil => cases h
  | cons e rest ih =>
    rw [keys_cons, List.nodup_cons] at hn
    rw [List.lookup_cons]
    rcases List.mem_cons.mp h with rfl | h
    · simp
    · have later : k ∈ keys rest := List.mem_map_of_mem h
      have other : (k == e.1) = false := beq_eq_false_iff_ne.mpr fun he => hn.1 (he ▸ later)
      rw [other]
      exact ih hn.2 h

/-- Entries that answer every look-up the same way are the same up to their order. -/
theorem perm_of_lookup_eq [BEq κ] [LawfulBEq κ] {entries entries' : List (κ × ν)} (hn : (keys entries).Nodup)
    (hn' : (keys entries').Nodup) (h : ∀ k, entries.lookup k = entries'.lookup k) : entries.Perm entries' := by
  have distinct : ∀ {l : List (κ × ν)}, (keys l).Nodup → l.Nodup := by
    intro l hl
    apply List.Pairwise.of_map Prod.fst _ hl
    rintro a b hab rfl
    exact hab rfl
  apply (List.perm_ext_iff_of_nodup (distinct hn) (distinct hn')).mpr
  rintro ⟨k, v⟩
  constructor
  · intro hm
    exact mem_of_lookup (h k ▸ lookup_of_mem hn hm)
  · intro hm
    exact mem_of_lookup (h k ▸ lookup_of_mem hn' hm)

theorem lookup_filter [BEq κ] [LawfulBEq κ] (keep : κ → Bool) (entries : List (κ × ν)) (q : κ) :
    (entries.filter fun e => keep e.1).lookup q = if keep q then entries.lookup q else none := by
  induction entries with
  | nil => simp
  | cons e rest ih =>
    obtain ⟨k, v⟩ := e
    by_cases hq : q = k
    · subst hq
      cases hk : keep q <;> simp [hk, ih]
    · have other : (q == k) = false := beq_eq_false_iff_ne.mpr hq
      cases hk : keep k <;> simp [hk, List.lookup_cons, other, ih]

section Erase

variable [DecidableEq κ]

theorem lookup_erase [BEq κ] [LawfulBEq κ] (k : κ) (entries : List (κ × ν)) (q : κ) :
    (erase k entries).lookup q = if q = k then none else entries.lookup q := by
  induction entries with
  | nil => simp [erase]
  | cons e rest ih =>
    rw [erase] at ih ⊢
    by_cases he : e.1 = k
    · rw [List.filter_cons_of_neg (by simpa using he), ih, List.lookup_cons]
      by_cases h : q = k
      · rw [if_pos h, if_pos h]
      · have other : (q == e.1) = false := beq_eq_false_iff_ne.mpr (he ▸ h)
        rw [if_neg h, if_neg h, other]
    · rw [List.filter_cons_of_pos (by simpa using he), List.lookup_cons, List.lookup_cons, ih]
      by_cases h : q = k
      · subst h
        simp [beq_eq_false_iff_ne.mpr (Ne.symm he)]
      · simp [h]

/-- Nothing is left out with a key that is not there. -/
theorem erase_of_lookup_eq_none [BEq κ] [LawfulBEq κ] {k : κ} {entries : List (κ × ν)} (h : entries.lookup k = none) :
    erase k entries = entries := by
  apply List.filter_eq_self.mpr
  rintro ⟨other, v⟩ hm
  have ne : other ≠ k := by
    rintro rfl
    have found := (isSome_lookup_iff other entries).mpr (List.mem_map_of_mem hm)
    rw [h] at found
    cases found
  exact decide_eq_true ne

theorem ascending_erase [Ord κ] (k : κ) {entries : List (κ × ν)} (h : Ascending entries) :
    Ascending (erase k entries) := by
  apply List.Pairwise.sublist _ h
  exact List.filter_sublist.map Prod.fst

end Erase

end Entries

/-! ## Indexes -/

namespace Index

/-- The keys of an index, in its order. -/
def keys (index : Index) : List Key := Entries.keys index.entries

/-- What both kinds of index keep: each key has one entry, and in a B-tree the keys ascend. -/
def Lawful : Index → Prop
  | hash entries => (Entries.keys entries).Nodup
  | btree entries => Entries.Ascending entries

theorem lawful_empty (kind : IndexKind) : (empty kind).Lawful := by
  cases kind
  · exact List.nodup_nil
  · exact List.Pairwise.nil

theorem Lawful.nodup_keys {index : Index} (h : index.Lawful) : index.keys.Nodup := by
  cases index with
  | hash entries => exact h
  | btree entries => exact Entries.nodup_of_ascending h

theorem Lawful.insert {index : Index} (h : index.Lawful) (key : Key) (t : Tuple) :
    (index.insert key t).Lawful := by
  cases index with
  | hash entries => exact Entries.nodup_keys_replace key t h
  | btree entries => exact Entries.ascending_insert key t h

theorem kind_insert (index : Index) (key : Key) (t : Tuple) : (index.insert key t).kind = index.kind := by
  cases index <;> rfl

theorem kind_empty (kind : IndexKind) : (empty kind).kind = kind := by
  cases kind <;> rfl

theorem find?_empty (kind : IndexKind) (key : Key) : (empty kind).find? key = none := by
  cases kind <;> rfl

/-- A tuple that is put under a key is found under it, and nothing changes under the other keys. -/
theorem find?_insert (index : Index) (key : Key) (t : Tuple) (q : Key) :
    (index.insert key t).find? q = if q = key then some t else index.find? q := by
  cases index with
  | hash entries => exact Entries.lookup_replace key t entries q
  | btree entries => exact Entries.search?_insert key t entries q

/-- A look-up by the order of the keys finds what one by equality finds, in an index that is kept as it should be. -/
theorem Lawful.find?_eq_lookup {index : Index} (h : index.Lawful) (key : Key) :
    index.find? key = index.entries.lookup key := by
  cases index with
  | hash entries => rfl
  | btree entries => exact Entries.search?_eq_lookup h key

theorem Lawful.contains_iff {index : Index} (h : index.Lawful) (key : Key) :
    index.contains key = true ↔ key ∈ index.keys := by
  rw [contains, h.find?_eq_lookup]
  exact Entries.isSome_lookup_iff key index.entries

end Index

end Relata
