import Mathlib.Data.List.Zip
import Relata.Proofs.NaturalJoins
/-!
# Paired names

An equi-join is asked for with two lists of names, which it pairs in order. It finds their columns exactly where the pairs
name attributes of the two sides with one domain each (`exists_columns_iff`), and pairs the columns as the names are paired
(`mem_zip_columns_iff`).
-/

namespace Relata

theorem Value.checkDomains_eq_ok_iff {d e : Domain} : checkDomains d e = .ok () ↔ d = e := by
  rw [checkDomains]
  split
  · next same => exact iff_of_true rfl same
  · next other => simp [other]

/-! ## Columns of names -/

namespace Schema

variable {s : Schema} {name : String} {c : Nat}

theorem column?_eq_some_iff_getElem? : s.column? name = some c ↔ ∃ d, s.attributes[c]? = some ⟨name, d⟩ := by
  rw [column?_eq_some_iff, names, List.getElem?_map, Option.map_eq_some_iff]
  constructor
  · rintro ⟨⟨_, d⟩, ha, rfl⟩
    exact ⟨d, ha⟩
  · rintro ⟨d, ha⟩
    exact ⟨_, ha, rfl⟩

/-- At the column of a name stands its attribute. -/
theorem getElem?_of_column? {d : Domain} (hc : s.column? name = some c) (ha : ⟨name, d⟩ ∈ s.attributes) :
    s.attributes[c]? = some ⟨name, d⟩ := by
  obtain ⟨e, he⟩ := column?_eq_some_iff_getElem?.mp hc
  have same : some d = some e := (lookup_labels ha).symm.trans (lookup_labels (List.mem_of_getElem? he))
  rw [he, Option.some.inj same]

/-- Names of attributes have columns. -/
theorem exists_columns {names : List String} (h : ∀ name ∈ names, name ∈ s.names) :
    ∃ columns, s.columns names = .ok columns := by
  induction names with
  | nil => exact ⟨[], rfl⟩
  | cons name names ih =>
    obtain ⟨c, hc, -⟩ := exists_column_of_mem (h name List.mem_cons_self)
    obtain ⟨rest, hr⟩ := ih fun other ho => h other (List.mem_cons_of_mem name ho)
    refine ⟨c :: rest, ?_⟩
    rw [columns] at hr ⊢
    rw [List.mapM_cons, column_eq_ok_iff.mpr hc, hr]
    rfl

theorem exists_column_of_columns {names : List String} {columns : List Nat} (h : s.columns names = .ok columns)
    (hn : name ∈ names) : ∃ c, s.column? name = some c := by
  have there : s.column? name ∈ columns.map some := columns_eq_ok h ▸ List.mem_map_of_mem hn
  obtain ⟨c, -, hc⟩ := List.mem_map.mp there
  exact ⟨c, hc.symm⟩

end Schema

namespace Join

variable {left right : Schema} {l r l' r' : List String} {lc rc : List Nat}

/-! ## Pairs -/

/-- Two lists pair names of attributes: there is a pair, no name lacks its partner, and the names of a pair stand for
one domain. -/
structure PairsUp (left right : Schema) (l r : List String) : Prop where
  ne_nil : l ≠ []
  length_eq : l.length = r.length
  domain_eq : ∀ p ∈ l.zip r, ∃ d, ⟨p.1, d⟩ ∈ left.attributes ∧ ⟨p.2, d⟩ ∈ right.attributes

theorem mem_zip_swap {α β : Type} {l : List α} {r : List β} {p : β × α} : p ∈ r.zip l ↔ p.swap ∈ l.zip r := by
  rw [← List.zip_swap l r, List.mem_map]
  constructor
  · rintro ⟨q, hq, rfl⟩
    exact hq
  · intro h
    exact ⟨p.swap, h, Prod.swap_swap p⟩

theorem PairsUp.symm (h : PairsUp left right l r) : PairsUp right left r l where
  ne_nil := by
    rw [← List.length_pos_iff, ← h.length_eq, List.length_pos_iff]
    exact h.ne_nil
  length_eq := h.length_eq.symm
  domain_eq p hp := by
    obtain ⟨d, hl, hr⟩ := h.domain_eq p.swap (mem_zip_swap.mp hp)
    exact ⟨d, hr, hl⟩

/-- The pairs may come in another order, and more than once. -/
theorem PairsUp.of_mem_zip_iff (h : PairsUp left right l r) (hn : l'.length = r'.length)
    (hp : ∀ p, p ∈ l'.zip r' ↔ p ∈ l.zip r) : PairsUp left right l' r' where
  ne_nil := by
    rintro rfl
    obtain ⟨name, more, rfl⟩ := List.exists_cons_of_ne_nil h.ne_nil
    obtain ⟨name', more', rfl⟩ := List.exists_cons_of_ne_nil h.symm.ne_nil
    have first : (name, name') ∈ (name :: more).zip (name' :: more') := List.mem_cons_self
    cases (hp _).mpr first
  length_eq := hn
  domain_eq p hm := h.domain_eq p ((hp p).mp hm)

/-! ## Columns of pairs -/

theorem checkPairs_eq_ok_iff {pairs : List (Nat × Nat)} : checkPairs left right pairs = .ok ()
    ↔ ∀ p ∈ pairs, ∀ a b, left.attributes[p.1]? = some a → right.attributes[p.2]? = some b → a.domain = b.domain := by
  induction pairs with
  | nil => exact iff_of_true rfl fun _ hp => nomatch hp
  | cons p pairs ih =>
    rw [List.forall_mem_cons, ← ih, checkPairs]
    split
    · next a b ha hb =>
      rw [bind_eq_ok_iff]
      constructor
      · rintro ⟨⟨⟩, same, rest⟩
        refine ⟨?_, rest⟩
        intro a' b' ha' hb'
        cases ha.symm.trans ha'
        cases hb.symm.trans hb'
        exact Value.checkDomains_eq_ok_iff.mp same
      · rintro ⟨same, rest⟩
        exact ⟨(), Value.checkDomains_eq_ok_iff.mpr (same a b ha hb), rest⟩
    · next lacking => exact (and_iff_right fun a b ha hb => (lacking a b ha hb).elim).symm

/-- The columns of names are paired as the names are. -/
theorem mem_zip_columns_iff (hl : left.columns l = .ok lc) (hr : right.columns r = .ok rc) {p : Nat × Nat} :
    p ∈ lc.zip rc ↔ ∃ q ∈ l.zip r, left.column? q.1 = some p.1 ∧ right.column? q.2 = some p.2 := by
  have same : (l.zip r).map (Prod.map left.column? right.column?) = (lc.zip rc).map (Prod.map some some) := by
    rw [← List.zip_map, ← List.zip_map, Schema.columns_eq_ok hl, Schema.columns_eq_ok hr]
  have mem : p ∈ lc.zip rc ↔ Prod.map some some p ∈ (lc.zip rc).map (Prod.map some some) := by
    simp [Prod.ext_iff]
  rw [mem, ← same, List.mem_map]
  simp only [Prod.ext_iff, Prod.map_fst, Prod.map_snd]

theorem PairsUp.exists_columns (h : PairsUp left right l r) : ∃ lc, left.columns l = .ok lc := by
  apply Schema.exists_columns
  intro name hm
  rw [← List.map_fst_zip (Nat.le_of_eq h.length_eq)] at hm
  obtain ⟨p, hp, rfl⟩ := List.mem_map.mp hm
  obtain ⟨d, ha, -⟩ := h.domain_eq p hp
  exact List.mem_map_of_mem ha

/-- Columns are found exactly for lists that pair up. -/
theorem exists_columns_iff : (∃ c, columns left right l r = .ok c) ↔ PairsUp left right l r := by
  constructor
  · rintro ⟨⟨lc, rc⟩, h⟩
    obtain ⟨ne, lengths, hl, hr, checked⟩ := columns_eq_ok_iff.mp h
    refine ⟨ne, lengths, ?_⟩
    intro q hq
    obtain ⟨hql, hqr⟩ := List.of_mem_zip hq
    obtain ⟨c, hc⟩ := Schema.exists_column_of_columns hl hql
    obtain ⟨c', hc'⟩ := Schema.exists_column_of_columns hr hqr
    have paired : (c, c') ∈ lc.zip rc := (mem_zip_columns_iff hl hr).mpr ⟨q, hq, hc, hc'⟩
    obtain ⟨d, ha⟩ := Schema.column?_eq_some_iff_getElem?.mp hc
    obtain ⟨e, hb⟩ := Schema.column?_eq_some_iff_getElem?.mp hc'
    obtain rfl : d = e := checkPairs_eq_ok_iff.mp checked _ paired _ _ ha hb
    exact ⟨d, List.mem_of_getElem? ha, List.mem_of_getElem? hb⟩
  · intro h
    obtain ⟨lc, hl⟩ := h.exists_columns
    obtain ⟨rc, hr⟩ := h.symm.exists_columns
    refine ⟨(lc, rc), columns_eq_ok_iff.mpr ⟨h.ne_nil, h.length_eq, hl, hr, checkPairs_eq_ok_iff.mpr ?_⟩⟩
    intro p hp a b ha hb
    obtain ⟨q, hq, hc, hd⟩ := (mem_zip_columns_iff hl hr).mp hp
    obtain ⟨d, hda, hdb⟩ := h.domain_eq q hq
    rw [Schema.getElem?_of_column? hc hda] at ha
    rw [Schema.getElem?_of_column? hd hdb] at hb
    cases ha
    cases hb
    rfl

end Join

end Relata
