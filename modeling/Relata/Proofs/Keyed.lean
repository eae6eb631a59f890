import Mathlib.Data.List.Flatten
import Relata.Proofs.Projections
/-!
# Keyed tables

A table is keyed when no two of its rows have the same key. The index of a table finds one row for each key, so it is in
a keyed table that a key finds all the rows that a scan finds (`Keyed.toList_find?`).

An operator keeps a table keyed when it keeps the key of its first input and takes each row from there at most once:
then the keys of its result are keys of that input, in their order (`keys_sublist_of_result`). A join does so where the
right side is keyed and the whole key of that side is compared, since a row then has at most one partner there
(`Keyed.length_partners_le_one`).
-/

namespace Relata

/-! ## Lists with distinct keys -/

section Lists

variable {α β κ : Type}

/-- Of elements with distinct keys at most one has a given key. -/
theorem length_le_one_of_nodup_map {key : α → κ} {l : List α} (hn : (l.map key).Nodup)
    (h : ∀ a ∈ l, ∀ b ∈ l, key a = key b) : l.length ≤ 1 := by
  match l with
  | [] => exact Nat.zero_le 1
  | [a] => exact Nat.le_refl 1
  | a :: b :: l =>
    have later : b ∈ a :: b :: l := List.mem_cons_of_mem a List.mem_cons_self
    have same : key b = key a := h b later a List.mem_cons_self
    exact absurd (List.mem_map.mpr ⟨b, List.mem_cons_self, same⟩) (List.nodup_cons.mp hn).1

/-- Where each element gives at most one, which has its key, the keys stay in their order. -/
theorem map_flatMap_sublist {key : α → κ} {key' : β → κ} {l : List α} {give : α → List β}
    (h : ∀ a ∈ l, (give a).length ≤ 1 ∧ ∀ b ∈ give a, key' b = key a) :
    ((l.flatMap give).map key').Sublist (l.map key) := by
  rw [List.map_flatMap, List.map_eq_flatMap]
  apply List.Sublist.flatMap_right
  intro a ha
  obtain ⟨one, same⟩ := h a ha
  match hg : give a with
  | [] => exact List.nil_sublist _
  | [b] => rw [List.map_singleton, same b (hg ▸ List.mem_singleton_self b)]
  | b :: c :: more =>
    rw [hg] at one
    simp at one

theorem toList_find?_sublist (p : α → Bool) (l : List α) : (l.find? p).toList.Sublist l := by
  rw [← List.head?_filter, ← List.take_one]
  exact (List.take_sublist 1 _).trans List.filter_sublist

end Lists

/-! ## Keys of rows -/

namespace Schema

variable {s left : Schema} {row : Tuple}

/-- Where attributes and values follow, the key of a row stays. -/
theorem keyOf_append {more : List Attribute} (h : s.attributes = left.attributes ++ more) (hk : s.key = left.key)
    (hl : row.length = left.arity) (r : Tuple) : s.keyOf (row ++ r) = left.keyOf row := by
  rw [keyOf, keyOf, keyColumns_append h hk, Tuple.project, Tuple.project]
  apply List.filterMap_congr
  intro c hc
  exact List.getElem?_append_left (hl ▸ keyColumns_lt c hc)

end Schema

/-! ## Partners -/

namespace Join

variable {left right : Schema} {l r : List String} {lc rc : List Nat}

/-- Whether two rows show the same values at names in pairs. -/
def agreeAt (left right : Schema) (pairs : List (String × String)) (a b : Tuple) : Bool :=
  pairs.all fun p => (left.label a).lookup p.1 == (right.label b).lookup p.2

/-- Rows agree on the columns of an equi-join when they agree at its names. -/
theorem agree_eq_agreeAt (h : columns left right l r = .ok (lc, rc)) :
    agree (lc.zip rc) = agreeAt left right (l.zip r) := by
  obtain ⟨-, -, hl, hr, -⟩ := columns_eq_ok_iff.mp h
  funext a b
  calc
    agree (lc.zip rc) a b
        = ((lc.map some).zip (rc.map some)).all fun p => (p.1.bind (a[·]?)) == p.2.bind (b[·]?) := by
      rw [List.zip_map, List.all_map]
      rfl
    _ = ((l.map left.column?).zip (r.map right.column?)).all fun p => (p.1.bind (a[·]?)) == p.2.bind (b[·]?) := by
      rw [Schema.columns_eq_ok hl, Schema.columns_eq_ok hr]
    _ = agreeAt left right (l.zip r) a b := by
      rw [List.zip_map, List.all_map, agreeAt]
      simp only [Schema.label, Schema.lookup_zip]
      rfl

end Join

namespace Table

variable {t u : Table} {l r : List String}

/-- No two rows of a table have the same key. -/
def Keyed (t : Table) : Prop := (t.tuples.map t.schema.keyOf).Nodup

instance (t : Table) : Decidable t.Keyed := inferInstanceAs (Decidable (t.tuples.map t.schema.keyOf).Nodup)

/-- The rows of another table that show at its names what a row shows at the names paired with those. -/
def partners (t u : Table) (l r : List String) (row : Tuple) : List Tuple :=
  u.tuples.filter (Join.agreeAt t.schema u.schema (l.zip r) row)

/-- A row has at most one partner in a keyed table, where all names of the key are paired. -/
theorem Keyed.length_partners_le_one (hu : u.Keyed) (hk : ∀ name ∈ u.schema.key, name ∈ r) (hn : l.length = r.length)
    (row : Tuple) : (t.partners u l r row).length ≤ 1 := by
  have pairs : (l.zip r).map Prod.snd = r := List.map_snd_zip (Nat.le_of_eq hn.symm)
  -- What a partner shows at a name of the key is what the row shows at the name that is paired with it.
  have shown : ∀ name ∈ u.schema.key, ∃ v, ∀ other ∈ t.partners u l r row, (u.schema.label other).lookup name = v := by
    intro name hm
    obtain ⟨p, hp, rfl⟩ := List.mem_map.mp (pairs.symm ▸ hk name hm)
    refine ⟨(t.schema.label row).lookup p.1, fun other ho => ?_⟩
    exact (eq_of_beq (List.all_eq_true.mp (List.mem_filter.mp ho).2 p hp)).symm
  apply length_le_one_of_nodup_map (hu.sublist (List.filter_sublist.map u.schema.keyOf))
  intro a ha b hb
  rw [Schema.keyOf_eq_filterMap_lookup, Schema.keyOf_eq_filterMap_lookup]
  apply List.filterMap_congr
  intro name hm
  obtain ⟨v, hv⟩ := shown name hm
  rw [hv a ha, hv b hb]

end Table

/-! ## Operators -/

namespace Operator

/-- The operators that keep the keys of their first input apart, given all their inputs. -/
inductive KeepsKeys : Operator → Table → List Table → Prop
  | select (predicate : Tuple → Option Bool) (t : Table) : KeepsKeys (select predicate) t []
  | filter (condition : String) (t : Table) : KeepsKeys (filter condition) t []
  | selectKey (key : Key) (t : Table) : KeepsKeys (selectKey key) t []
  | project {attributes : List String} {t : Table} (h : ∀ name ∈ t.schema.key, name ∈ attributes) :
    KeepsKeys (project attributes) t []
  | minus (t u : Table) : KeepsKeys minus t [u]
  | intersect (t u : Table) : KeepsKeys intersect t [u]
  | join (l : List String) {r : List String} (suffix : String) (t : Table) {u : Table} (hu : u.Keyed)
    (h : ∀ name ∈ u.schema.key, name ∈ r) : KeepsKeys (join l r suffix) t [u]
  | indexJoin (l : List String) {r : List String} (suffix : String) (t : Table) {u : Table} (hu : u.Keyed)
    (h : ∀ name ∈ u.schema.key, name ∈ r) : KeepsKeys (indexJoin l r suffix) t [u]

variable {op : Operator} {t u : Table} {rest : List Table} {result : Result} {l r : List String} {suffix : String}
  {p : Join.Pairing}

theorem KeepsKeys.isEvaluable (h : op.KeepsKeys t rest) : op.isEvaluable = true := by
  cases h <;> rfl

/-- An equi-join puts each row before each of its partners. -/
theorem rows_of_equiPairing (h : equiPairing l r suffix t.schema u.schema = .ok p) : l.length = r.length
    ∧ p.rows t.tuples u.tuples = t.tuples.flatMap fun row => (t.partners u l r row).map fun other => row ++ other := by
  obtain ⟨⟨lc, rc⟩, hc, h⟩ := exists_of_bind_eq_ok h
  obtain ⟨s, -, h⟩ := exists_of_bind_eq_ok h
  cases h
  have hc := lift_eq_ok_iff.mp hc
  refine ⟨(Join.columns_eq_ok_iff.mp hc).2.1, ?_⟩
  show Join.nested (Join.agree (lc.zip rc)) (fun l r => l ++ r) t.tuples u.tuples = _
  rw [Join.agree_eq_agreeAt hc]
  rfl

/-- The keys of an equi-join whose right side is keyed and compared by its whole key are keys of the left side. -/
theorem keys_sublist_of_equiPairing (ht : t.WellFormed) (hu : u.Keyed) (hk : ∀ name ∈ u.schema.key, name ∈ r)
    (h : equiPairing l r suffix t.schema u.schema = .ok p) :
    ((p.rows t.tuples u.tuples).map p.schema.keyOf).Sublist (t.tuples.map t.schema.keyOf) := by
  obtain ⟨hn, rows⟩ := rows_of_equiPairing h
  obtain ⟨attributes, key⟩ := (Schema.build_eq_ok_iff ..).mp (schema_of_equiPairing h).1
  rw [rows]
  apply map_flatMap_sublist
  intro row hr
  refine ⟨?_, ?_⟩
  · rw [List.length_map]
    exact hu.length_partners_le_one hk hn row
  · intro joined hj
    obtain ⟨other, -, rfl⟩ := List.mem_map.mp hj
    exact Schema.keyOf_append attributes key (Table.length_of_conforms ht.conforms row hr) other

theorem keys_sublist_of_set {combine : List Tuple → List Tuple → List Tuple} (ho : op.Combines combine)
    (hs : ∀ left right, (combine left right).Sublist left) (h : op.result [t, u] = .ok result) :
    (result.tuples.map result.schema.keyOf).Sublist (t.tuples.map t.schema.keyOf) := by
  rw [result_set ho] at h
  split at h
  · cases h
    exact (hs t.tuples u.tuples).map t.schema.keyOf
  · cases h

theorem keys_sublist_of_project (ht : t.WellFormed) {attributes : List String}
    (hk : ∀ name ∈ t.schema.key, name ∈ attributes) (h : (project attributes).result [t] = .ok result) :
    (result.tuples.map result.schema.keyOf).Sublist (t.tuples.map t.schema.keyOf) := by
  obtain ⟨s, columns, hs, hc, rfl⟩ := (result_project_eq_ok_iff ht).mp h
  -- The rows are as many as before, each with the key it had.
  have same : (t.tuples.map fun row => row.project columns).map s.keyOf = t.tuples.map t.schema.keyOf := by
    rw [List.map_map]
    apply List.map_congr_left
    intro row hm
    exact Schema.keyOf_project hs hc (fits_of_wellFormed ht row hm) hk
  show ((t.tuples.map fun row => row.project columns).map s.keyOf).Sublist _
  rw [same]

/-- What such an operator gives has keys of its first input, in their order and each at most as often. -/
theorem keys_sublist_of_result (ht : t.WellFormed) (hr : ∀ input ∈ rest, input.WellFormed) (hk : op.KeepsKeys t rest)
    (h : op.result (t :: rest) = .ok result) :
    (result.tuples.map result.schema.keyOf).Sublist (t.tuples.map t.schema.keyOf) := by
  have joined {u : Table} {l r : List String} {suffix : String} (hu : u.Keyed) (hk : ∀ name ∈ u.schema.key, name ∈ r)
      (h : (equiPairing l r suffix t.schema u.schema).map (paired t u) = .ok result) :
      (result.tuples.map result.schema.keyOf).Sublist (t.tuples.map t.schema.keyOf) := by
    obtain ⟨p, hp, rfl⟩ := map_eq_ok_iff.mp h
    exact keys_sublist_of_equiPairing ht hu hk hp
  cases hk with
  | select predicate =>
    obtain ⟨t', rows, ht', hf, rfl⟩ := result_select_eq_ok h
    cases ht'
    exact (filterM_sublist hf).map t.schema.keyOf
  | filter condition =>
    obtain ⟨t', ht', h⟩ := exists_of_one_bind h
    obtain ⟨c, -, h⟩ := exists_of_bind_eq_ok h
    obtain ⟨b, -, h⟩ := exists_of_bind_eq_ok h
    obtain ⟨rows, hf, h⟩ := exists_of_bind_eq_ok h
    cases ht'
    cases h
    exact (filterM_sublist (defined_eq_ok_iff.mp hf)).map t.schema.keyOf
  | selectKey key =>
    cases h
    show ((t.find? key).toList.map t.schema.keyOf).Sublist _
    rw [ht.find?_eq]
    exact (toList_find?_sublist ..).map t.schema.keyOf
  | project covers => exact keys_sublist_of_project ht covers h
  | minus => exact keys_sublist_of_set .minus (fun _ _ => List.filter_sublist) h
  | intersect => exact keys_sublist_of_set .intersect (fun _ _ => List.filter_sublist) h
  | join l suffix _ hu covers =>
    rw [result_join ht (hr _ (List.mem_singleton_self _)) rfl] at h
    exact joined hu covers h
  | indexJoin l suffix _ hu covers =>
    rw [result_join ht (hr _ (List.mem_singleton_self _)) rfl] at h
    exact joined hu covers h

/-- On well-formed tables an operator that can be evaluated has a result exactly when it has a plan. -/
theorem exists_eval_iff_plan {inputs : List Table} (hw : ∀ input ∈ inputs, input.WellFormed)
    (he : op.isEvaluable = true) (hd : op.DefinedOn inputs) (session : Session) :
    (∃ w, op.eval inputs session = .ok w) ↔ ∃ plan, op.plan (inputs.map Table.schema) = .ok plan := by
  have planned := planned_result hw he hd
  rw [eval_eq]
  generalize op.plan (inputs.map Table.schema) = plan at planned
  generalize op.result inputs = result at planned
  cases planned with
  | refused rejection => exact ⟨fun ⟨_, h⟩ => (nomatch h), fun ⟨_, h⟩ => (nomatch h)⟩
  | made _ _ => exact ⟨fun _ => ⟨_, rfl⟩, fun _ => ⟨_, rfl⟩⟩

end Operator

namespace Table

variable {t u : Table}

/-- An operator of this kind keeps a keyed table keyed, and gives no more rows than there were. -/
theorem Keyed.of_eval {op : Operator} {rest : List Table} (hk : t.Keyed) (ht : t.WellFormed)
    (hr : ∀ input ∈ rest, input.WellFormed) (ho : op.KeepsKeys t rest) {session : Session} {w : Table × Session}
    (h : op.eval (t :: rest) session = .ok w) : w.1.Keyed ∧ w.1.size ≤ t.size := by
  rw [Operator.eval_eq] at h
  obtain ⟨result, made, rfl⟩ := map_eq_ok_iff.mp h
  have keys := Operator.keys_sublist_of_result ht hr ho made
  have lengths := keys.length_le
  rw [List.length_map, List.length_map] at lengths
  exact ⟨hk.sublist keys, lengths⟩

/-! ## Keys that are looked up -/

/-- A selection whose predicate has an answer on every row. -/
theorem gives_select {predicate : Tuple → Option Bool} {keep : Tuple → Bool}
    (h : ∀ row ∈ t.tuples, predicate row = some (keep row)) (session : Session) :
    Gives (t.select predicate session) t.schema t.indexKind (t.tuples.filter keep) := by
  have made : (Operator.select predicate).result [t] = .ok ⟨t, t.schema, t.tuples.filter keep⟩ := by
    show (Rejection.defined (t.tuples.filterM predicate) >>= _) = _
    rw [filterM_eq_some_filter h]
    rfl
  have kept : t.select predicate session = .ok (session.derive t t.schema (t.tuples.filter keep)) := by
    rw [select, Operator.eval_eq, made]
    rfl
  exact ⟨_, _, kept⟩

/-- A row that has the key columns shows a key there, and the scan compares it. -/
theorem gives_select_key (ht : t.WellFormed) (key : Key) (session : Session) :
    Gives (t.select (fun row => (row.project? t.schema.keyColumns).map fun shown => shown = key) session) t.schema
      t.indexKind (t.tuples.filter fun row => row.project? t.schema.keyColumns = some key) := by
  apply gives_select
  intro row hr
  rw [(Operator.fits_of_wellFormed ht row hr).project?_keyColumns]
  simp

section Keyed

variable (hk : t.Keyed)
include hk

theorem Keyed.length_filter_le_one (key : Key) : (t.tuples.filter fun row => t.schema.keyOf row = key).length ≤ 1 := by
  apply length_le_one_of_nodup_map (hk.sublist (List.filter_sublist.map t.schema.keyOf))
  intro a ha b hb
  rw [of_decide_eq_true (List.mem_filter.mp ha).2, of_decide_eq_true (List.mem_filter.mp hb).2]

/-- In a keyed table a key finds all that a scan finds. -/
theorem Keyed.toList_find? (ht : t.WellFormed) (key : Key) :
    (t.find? key).toList = t.tuples.filter fun row => row.project? t.schema.keyColumns = some key := by
  have scanned : (t.tuples.filter fun row => row.project? t.schema.keyColumns = some key)
      = t.tuples.filter fun row => t.schema.keyOf row = key := by
    apply List.filter_congr
    intro row hr
    rw [decide_eq_decide]
    exact project?_eq_some_iff ht hr key
  rw [scanned, ht.find?_eq, ← List.head?_filter, ← List.take_one]
  exact List.take_of_length_le (hk.length_filter_le_one key)

end Keyed

/-- Operators that keep keys apart have a result where they have a plan, and keep a keyed table keyed. In a join with a
keyed table by its whole key every row has at most one partner. A key that is looked up finds what a scan finds, which
is at most one row. -/
theorem keyed_kept_and_found (ht : t.Reachable) (hk : t.Keyed) :
    (∀ (op : Operator) (rest : List Table) (session : Session), op.KeepsKeys t rest →
        (∀ input ∈ rest, input.Reachable) →
        (op.DefinedOn (t :: rest) → ((∃ w, op.eval (t :: rest) session = .ok w)
          ↔ ∃ plan, op.plan ((t :: rest).map schema) = .ok plan))
        ∧ ∀ w, op.eval (t :: rest) session = .ok w → w.1.Keyed ∧ w.1.size ≤ t.size)
      ∧ (∀ (u : Table) (l r : List String) (suffix : String) (session : Session), u.Reachable → u.Keyed →
        (∀ name ∈ u.schema.key, name ∈ r) → ∀ op ∈ [Operator.join l r suffix, .indexJoin l r suffix],
        ∀ w, op.eval [t, u] session = .ok w →
          w.1.tuples = (t.tuples.flatMap fun row => (t.partners u l r row).map fun other => row ++ other)
          ∧ ∀ row ∈ t.tuples, (t.partners u l r row).length ≤ 1)
      ∧ ∀ (key : Key) (session session' : Session), ∃ w, t.selectKey key session = .ok w
        ∧ w.1.tuples = (t.tuples.filter fun row => row.project? t.schema.keyColumns = some key) ∧ w.1.size ≤ 1
        ∧ SameResult (t.selectKey key session)
          (t.select (fun row => (row.project? t.schema.keyColumns).map fun shown => shown = key) session') := by
  have hw := ht.wellFormed
  refine ⟨?_, ?_, ?_⟩
  · intro op rest session ho hr
    have rests : ∀ input ∈ rest, input.WellFormed := fun input hi => (hr input hi).wellFormed
    have all : ∀ input ∈ t :: rest, input.WellFormed := List.forall_mem_cons.mpr ⟨hw, rests⟩
    refine ⟨fun hd => Operator.exists_eval_iff_plan all ho.isEvaluable hd session, ?_⟩
    intro w h
    exact hk.of_eval hw rests ho h
  · intro u l r suffix session hu hku covers op ho w h
    have joined : ∃ p, Operator.equiPairing l r suffix t.schema u.schema = .ok p
        ∧ session.derive t p.schema (p.rows t.tuples u.tuples) = w := by
      rcases List.mem_pair.mp ho with rfl | rfl
      · exact (Operator.eval_join_eq_ok_iff hw hu.wellFormed rfl).mp h
      · exact (Operator.eval_join_eq_ok_iff hw hu.wellFormed rfl).mp h
    obtain ⟨p, hp, rfl⟩ := joined
    obtain ⟨lengths, rows⟩ := Operator.rows_of_equiPairing hp
    exact ⟨rows, fun row _ => hku.length_partners_le_one covers lengths row⟩
  · intro key session session'
    have found : Gives (t.selectKey key session) t.schema t.indexKind
        (t.tuples.filter fun row => row.project? t.schema.keyColumns = some key) := by
      rw [← hk.toList_find? hw]
      exact ⟨_, _, rfl⟩
    have same := found.sameResult (gives_select_key hw key session')
    have one : (t.find? key).toList.length ≤ 1 := Option.length_toList_le
    rw [hk.toList_find? hw] at one
    obtain ⟨name, next, made⟩ := found
    exact ⟨_, made, rfl, one, same⟩

/-- The key of the sites is both of their names, and stays it when the names change places. -/
theorem keyed_kept_and_found_sites :
    let session : Session := ⟨"2", 0⟩
    let names := ["site", "river"]
    let key : Key := [.string "Ljungan", .string ""]
    sites.Reachable ∧ sites.Keyed
      ∧ (∃ w, (Operator.project names).eval [sites] session = .ok w ∧ w.1.Keyed ∧ w.1.size ≤ 3)
      ∧ (∃ w, (Operator.indexJoin names names "2").eval [sites, sites] session = .ok w ∧ w.1.Keyed ∧ w.1.size ≤ 3
        ∧ ∀ row ∈ sites.tuples, (sites.partners sites names names row).length ≤ 1)
      ∧ ∃ w, sites.selectKey key session = .ok w ∧ w.1.tuples = [[.string "Ljungan", .string ""]] := by
  intro session names key
  have hs : sites.Reachable := .ofTuples "sites" .hash (by decide)
  have keyed : sites.Keyed := by decide
  have covers : ∀ name ∈ sites.schema.key, name ∈ names := by decide
  obtain ⟨kept, joined, found⟩ := keyed_kept_and_found hs keyed
  refine ⟨hs, keyed, ?_, ?_, ?_⟩
  · obtain ⟨made, keys⟩ := kept (.project names) [] session (.project covers) (by simp)
    obtain ⟨w, hw⟩ := (made trivial).mpr ⟨_, rfl⟩
    exact ⟨w, hw, keys w hw⟩
  · obtain ⟨made, keys⟩ := kept (.indexJoin names names "2") [sites] session (.indexJoin names "2" sites keyed covers)
      (by simp [hs])
    obtain ⟨w, hw⟩ := (made trivial).mpr ⟨_, rfl⟩
    obtain ⟨-, one⟩ := joined sites names names "2" session hs keyed covers (.indexJoin names names "2") (by simp) w hw
    exact ⟨w, hw, (keys w hw).1, (keys w hw).2, one⟩
  · obtain ⟨w, hw, rows, -⟩ := found key session session
    exact ⟨w, hw, rows.trans (by decide)⟩

end Table

end Relata
