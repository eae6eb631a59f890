import Relata.Proofs.JoinSchemas
import Relata.Proofs.PairedNames
import Relata.Proofs.SetOperators
/-!
# Common columns

A natural join compares the columns that both sides name, as an equi-join on their common names does, and leaves out the
right ones of them. So its rows are those of the equi-join without the columns that would come twice
(`naturalJoin_eq_project_join`); where no name is common they are all pairs of rows.
-/

namespace Relata

/-! ## Columns of names -/

namespace Schema

variable {s left right : Schema}

/-- The names that two schemas have in common, in the order of the first. -/
def commonNames (left right : Schema) : List String := left.names.filter fun name => name ∈ right.names

/-- The columns of the second of two schemas whose names are not common. -/
def furtherColumns (left right : Schema) : List Nat :=
  (List.range right.arity).filter fun c => (right.names[c]?).all fun name => name ∉ left.commonNames right

/-- Of a row of the first schema with one of the second behind it, the columns of the first, and those of the second
whose names are not common. -/
def distinctColumns (left right : Schema) : List Nat :=
  List.range left.arity ++ (left.furtherColumns right).map (left.arity + ·)

/-- The names that two schemas have in common stand for the same domains. -/
def AgreeOnDomains (left right : Schema) : Prop :=
  ∀ a ∈ left.attributes, ∀ b ∈ right.attributes, a.name = b.name → a.domain = b.domain

instance (left right : Schema) : Decidable (left.AgreeOnDomains right) :=
  inferInstanceAs (Decidable (∀ a ∈ left.attributes, ∀ b ∈ right.attributes, a.name = b.name → a.domain = b.domain))

theorem mem_commonNames_iff {name : String} :
    name ∈ left.commonNames right ↔ name ∈ left.names ∧ name ∈ right.names := by
  rw [commonNames, List.mem_filter, decide_eq_true_iff]

theorem agreeOnDomains_iff : left.AgreeOnDomains right ↔ Labels.Agree left.labels right.labels := by
  constructor
  · intro h name d e hd he
    have hl := Entries.mem_of_lookup hd
    have hr := Entries.mem_of_lookup he
    rw [labels_eq_map] at hl hr
    obtain ⟨a, ha, hp⟩ := List.mem_map.mp hl
    obtain ⟨b, hb, hq⟩ := List.mem_map.mp hr
    obtain ⟨rfl, rfl⟩ := Prod.mk.inj hp
    obtain ⟨hn, rfl⟩ := Prod.mk.inj hq
    exact h a ha b hb hn.symm
  · intro h a ha b hb hn
    apply Join.domain_eq_of_agree h a ha
    rw [hn]
    exact lookup_labels hb

/-- Names are common to as many attributes on one side as on the other. -/
theorem length_filter_notMem_commonNames (left right : Schema) :
    (right.names.filter fun name => name ∉ left.commonNames right).length + (left.commonNames right).length
      = right.arity := by
  have shared : Splits right.names (right.names.filter fun name => name ∉ left.commonNames right)
      (right.names.filter fun name => name ∈ left.commonNames right) := splits_filter fun name _ => by simp
  have same : (right.names.filter fun name => name ∈ left.commonNames right).Perm (left.commonNames right) := by
    have lefts : (left.commonNames right).Nodup := left.valid.names_nodup.filter _
    have rights : (right.names.filter fun name => name ∈ left.commonNames right).Nodup :=
      right.valid.names_nodup.filter _
    apply (List.perm_ext_iff_of_nodup rights lefts).mpr
    intro name
    rw [List.mem_filter, decide_eq_true_iff, mem_commonNames_iff]
    exact ⟨fun h => h.2, fun h => ⟨h.2, h⟩⟩
  rw [← same.length_eq, shared.length_eq, length_names]

/-- Attributes that follow leave a column where it was. -/
theorem column?_append {more : List Attribute} (h : s.attributes = left.attributes ++ more) {name : String}
    (hn : name ∈ left.names) : s.column? name = left.column? name := by
  obtain ⟨c, hc, hl⟩ := exists_column_of_mem hn
  have lt := (List.getElem?_eq_some_iff.mp hl).1
  rw [hc, column?_eq_some_iff, names, h, List.map_append, ← names, List.getElem?_append_left lt]
  exact hl

theorem keyColumns_append {more : List Attribute} (h : s.attributes = left.attributes ++ more)
    (hk : s.key = left.key) : s.keyColumns = left.keyColumns := by
  rw [keyColumns, keyColumns, hk]
  apply List.filterMap_congr
  intro name hn
  exact column?_append h (left.valid.key_subset name hn)

end Schema

/-! ## Columns of rows side by side -/

namespace Tuple

theorem project_append (row : Tuple) (columns more : List Nat) :
    row.project (columns ++ more) = row.project columns ++ row.project more := List.filterMap_append

theorem project_range_append (l r : Tuple) : (l ++ r).project (List.range l.length) = l := by
  induction l with
  | nil => rfl
  | cons v l ih =>
    rw [List.length_cons, List.range_succ_eq_map, List.cons_append, project_cons rfl, project, List.filterMap_map]
    exact congrArg (v :: ·) ih

theorem project_range (row : Tuple) : row.project (List.range row.length) = row := by
  have all := project_range_append row []
  rwa [List.append_nil] at all

theorem project_shift_append (l r : Tuple) (columns : List Nat) :
    (l ++ r).project (columns.map (l.length + ·)) = r.project columns := by
  rw [project, List.filterMap_map, project]
  apply List.filterMap_congr
  intro c _
  rw [Function.comp_apply, List.getElem?_append_right (Nat.le_add_right ..), Nat.add_sub_cancel_left]

end Tuple

namespace Join

variable {left right : Schema}

/-! ## Layouts -/

/-- What a layout compares and keeps. -/
theorem exists_of_layout_eq_ok {lay : Layout} (h : layout left right = .ok lay) :
    (∀ p : Nat × Nat, p ∈ lay.common ↔ ∃ i a, left.attributes[i]? = some a ∧ p.1 = 0 + i
        ∧ right.column? a.name = some p.2)
      ∧ lay.kept = (List.range right.arity).filter (fun c => !(lay.common.any fun p => p.2 == c))
      ∧ lay.schema.key = left.key := by
  have agree : Labels.Agree left.labels right.labels := by
    by_contra hn
    obtain ⟨fault, hf⟩ := layout_of_not_agree hn
    rw [hf] at h
    cases h
  obtain ⟨common, hok, hc⟩ := commonColumns_of_agree 0 (domain_eq_of_agree agree)
  obtain ⟨found, hf, h⟩ := exists_of_bind_eq_ok h
  obtain ⟨s, hs, h⟩ := exists_of_bind_eq_ok h
  obtain rfl : found = common := Except.ok.inj (hf.symm.trans hok)
  cases h
  exact ⟨hc, rfl, ((Schema.build_eq_ok_iff _ _ s).mp hs).2⟩

/-- A layout keeps the right columns whose names are not common. -/
theorem kept_eq_furtherColumns {lay : Layout} (h : layout left right = .ok lay) :
    lay.kept = left.furtherColumns right := by
  obtain ⟨hc, hk, -⟩ := exists_of_layout_eq_ok h
  rw [hk, Schema.furtherColumns]
  apply List.filter_congr
  intro c hm
  have hl : c < right.names.length := by
    rw [Schema.length_names]
    exact List.mem_range.mp hm
  have hn := List.getElem?_eq_getElem hl
  rw [kept_iff hc hn, hn, Option.all_some, decide_eq_decide, Schema.mem_commonNames_iff, not_and']
  exact ⟨fun h _ => h, fun h => h (List.getElem_mem hl)⟩

theorem mem_common_iff_of_layout {lay : Layout} (h : layout left right = .ok lay) {p : Nat × Nat} :
    p ∈ lay.common ↔ ∃ name ∈ left.commonNames right, left.column? name = some p.1 ∧ right.column? name = some p.2 := by
  obtain ⟨hc, -, -⟩ := exists_of_layout_eq_ok h
  rw [mem_common_iff hc]
  constructor
  · intro ⟨name, hl, hr⟩
    have lefts := List.mem_of_getElem? (Schema.column?_eq_some_iff.mp hl)
    have rights := List.mem_of_getElem? (Schema.column?_eq_some_iff.mp hr)
    exact ⟨name, Schema.mem_commonNames_iff.mpr ⟨lefts, rights⟩, hl, hr⟩
  · intro ⟨name, _, hl, hr⟩
    exact ⟨name, hl, hr⟩

/-! ## The equi-join on common names -/

/-- Common names that stand for the same domains pair up with themselves. -/
theorem pairsUp_commonNames (hd : left.AgreeOnDomains right) (hn : left.commonNames right ≠ []) :
    PairsUp left right (left.commonNames right) (left.commonNames right) where
  ne_nil := hn
  length_eq := rfl
  domain_eq p hp := by
    rw [List.zip_eq_zipWith, List.zipWith_self] at hp
    obtain ⟨name, hm, rfl⟩ := List.mem_map.mp hp
    obtain ⟨hl, hr⟩ := Schema.mem_commonNames_iff.mp hm
    obtain ⟨a, ha, rfl⟩ := List.mem_map.mp hl
    obtain ⟨b, hb, same⟩ := List.mem_map.mp hr
    refine ⟨a.domain, ha, ?_⟩
    rw [hd a ha b hb same.symm, ← same]
    exact hb

/-- Where the common names stand for the same domains, an equi-join on them finds their columns. -/
theorem exists_columns_commonNames (hd : left.AgreeOnDomains right) (hn : left.commonNames right ≠ []) :
    ∃ l r, columns left right (left.commonNames right) (left.commonNames right) = .ok (l, r)
      ∧ ∀ p : Nat × Nat, p ∈ l.zip r
        ↔ ∃ name ∈ left.commonNames right, left.column? name = some p.1 ∧ right.column? name = some p.2 := by
  obtain ⟨⟨l, r⟩, hc⟩ := exists_columns_iff.mpr (pairsUp_commonNames hd hn)
  obtain ⟨-, -, hl, hr, -⟩ := columns_eq_ok_iff.mp hc
  refine ⟨l, r, hc, ?_⟩
  intro p
  rw [mem_zip_columns_iff hl hr, List.zip_eq_zipWith, List.zipWith_self]
  simp only [List.mem_map, exists_exists_and_eq_and]

/-! ## Rows -/

/-- Rows agree on the same columns in whatever order they are looked at. -/
theorem agree_congr {pairs pairs' : List (Nat × Nat)} (h : ∀ p, p ∈ pairs ↔ p ∈ pairs') (l r : Tuple) :
    agree pairs l r = agree pairs' l r := by
  rw [Bool.eq_iff_iff, agree, agree, List.all_eq_true, List.all_eq_true]
  simp only [h]

theorem mapM_nested {related : Tuple → Tuple → Bool} {together together' : Tuple → Tuple → Tuple}
    {after : Tuple → Option Tuple} {lefts rights : List Tuple}
    (h : ∀ l ∈ lefts, ∀ r ∈ rights, after (together l r) = some (together' l r)) :
    (nested related together lefts rights).mapM after = some (nested related together' lefts rights) := by
  have every : ∀ row ∈ nested related together lefts rights, after row = some ((after row).getD []) := by
    intro row hm
    obtain ⟨l, hl, r, hr, rfl⟩ := mem_nested hm
    rw [h l hl r hr, Option.getD_some]
  rw [mapM_eq_some_map every, nested, nested, List.map_flatMap, Option.some.injEq]
  apply List.flatMap_congr
  intro l hl
  rw [List.map_map]
  apply List.map_congr_left
  intro r hr
  rw [Function.comp_apply, h l hl r (List.mem_filter.mp hr).1, Option.getD_some]

/-- The columns that stay of two rows side by side. -/
theorem project?_distinctColumns {l r : Tuple} (hl : l.length = left.arity) (hr : r.length = right.arity) :
    (l ++ r).project? (left.distinctColumns right) = some (l ++ r.project (left.furtherColumns right)) := by
  have all : ∀ c ∈ left.distinctColumns right, c < (l ++ r).length := by
    intro c hc
    rw [List.length_append, hl, hr]
    rcases List.mem_append.mp hc with hc | hc
    · have := List.mem_range.mp hc
      omega
    · obtain ⟨d, hd, rfl⟩ := List.mem_map.mp hc
      have := List.mem_range.mp (List.mem_filter.mp hd).1
      omega
  rw [Tuple.project?_eq_some all, Schema.distinctColumns, Tuple.project_append, ← hl, Tuple.project_range_append,
    Tuple.project_shift_append]

/-- Where nothing is compared, every left row comes with every right row. -/
theorem nested_nil (together : Tuple → Tuple → Tuple) (lefts rights : List Tuple) :
    nested (agree []) together lefts rights = lefts.flatMap fun l => rights.map (together l) := by
  rw [nested]
  apply List.flatMap_congr
  intro l _
  rw [show agree [] l = fun _ => true from rfl, List.filter_true]

end Join

namespace Table

variable {t u : Table}

/-- What a natural join leaves in a session: a table over the schema of the layout with the rows that agree. -/
theorem naturalJoin_eq_ok_iff (ht : t.WellFormed) (hu : u.WellFormed) {session : Session} {w : Table × Session} :
    t.naturalJoin u session = .ok w ↔ ∃ lay, Join.layout t.schema u.schema = .ok lay
      ∧ session.derive t lay.schema (Join.nested (Join.agree lay.common) (fun l r => l ++ r.project lay.kept) t.tuples
        u.tuples) = w := by
  rw [naturalJoin, Operator.eval_join_eq_ok_iff ht hu rfl]
  constructor
  · intro h
    obtain ⟨p, hp, hw⟩ := h
    obtain ⟨lay, hy, hp⟩ := exists_of_bind_eq_ok hp
    cases hp
    exact ⟨lay, Operator.lift_eq_ok_iff.mp hy, hw⟩
  · intro h
    obtain ⟨lay, hy, hw⟩ := h
    refine ⟨⟨lay.schema, Join.agree lay.common, fun r => r.project lay.kept⟩, ?_, hw⟩
    show Rejection.lift (Join.layout t.schema u.schema) >>= _ = _
    rw [hy]
    rfl

/-- The rows of a natural join are those of the equi-join on the common names, without the columns that come twice. -/
theorem exists_join_project (ht : t.WellFormed) (hu : u.WellFormed) {lay : Join.Layout}
    (hy : Join.layout t.schema u.schema = .ok lay) (hd : t.schema.AgreeOnDomains u.schema)
    (hn : t.schema.commonNames u.schema ≠ []) (suffix : String) (session : Session) :
    ∃ j, (Operator.join (t.schema.commonNames u.schema) (t.schema.commonNames u.schema) suffix).eval [t, u] session
        = .ok j
      ∧ j.1.tuples.mapM (fun row => row.project? (t.schema.distinctColumns u.schema))
        = some (Join.nested (Join.agree lay.common) (fun l r => l ++ r.project lay.kept) t.tuples u.tuples) := by
  obtain ⟨l, r, hc, pairs⟩ := Join.exists_columns_commonNames hd hn
  obtain ⟨s, hs⟩ := Join.exists_schema t.schema u.schema suffix
  have pairing : (Operator.join (t.schema.commonNames u.schema) (t.schema.commonNames u.schema) suffix).pairing t.schema
      u.schema = .ok ⟨s, Join.agree (l.zip r), id⟩ := by
    show Rejection.lift (Join.columns ..) >>= _ = _
    rw [hc]
    show Rejection.lift (Join.schema ..) >>= _ = _
    rw [hs]
    rfl
  have compared : Join.agree (l.zip r) = Join.agree lay.common := by
    funext a b
    exact Join.agree_congr (fun p => (pairs p).trans (Join.mem_common_iff_of_layout hy).symm) a b
  refine ⟨_, (Operator.eval_join_eq_ok_iff ht hu rfl).mpr ⟨_, pairing, rfl⟩, ?_⟩
  rw [Join.kept_eq_furtherColumns hy, ← compared]
  apply Join.mapM_nested
  intro a ha b hb
  exact Join.project?_distinctColumns (length_of_conforms ht.conforms a ha) (length_of_conforms hu.conforms b hb)

theorem nested_of_commonNames_eq_nil (hu : u.WellFormed) {lay : Join.Layout}
    (hy : Join.layout t.schema u.schema = .ok lay) (hn : t.schema.commonNames u.schema = []) :
    Join.nested (Join.agree lay.common) (fun l r => l ++ r.project lay.kept) t.tuples u.tuples
      = t.tuples.flatMap fun l => u.tuples.map fun r => l ++ r := by
  have compared : lay.common = [] := by
    rw [List.eq_nil_iff_forall_not_mem]
    intro p hp
    obtain ⟨name, hm, -⟩ := (Join.mem_common_iff_of_layout hy).mp hp
    rw [hn] at hm
    cases hm
  have kept : lay.kept = List.range u.schema.arity := by
    rw [Join.kept_eq_furtherColumns hy, Schema.furtherColumns, hn]
    apply List.filter_eq_self.mpr
    intro c _
    cases u.schema.names[c]? <;> rfl
  rw [compared, Join.nested_nil]
  apply List.flatMap_congr
  intro l _
  apply List.map_congr_left
  intro r hr
  rw [kept, ← length_of_conforms hu.conforms r hr, Tuple.project_range]

/-- A natural join has the left names, and then those of the right ones that are not common. -/
theorem JoinedFrom.names_eq {w : Table} (h : t.JoinedFrom u w) : w.schema.names
    = t.schema.names ++ u.schema.names.filter fun name => name ∉ t.schema.commonNames u.schema := by
  rw [← Schema.keys_labels, h.labels_eq, Labels.keys_merge, Schema.keys_labels, Schema.keys_labels]
  congr 1
  apply List.filter_congr
  intro name hm
  rw [decide_eq_decide, Schema.mem_commonNames_iff]
  exact not_congr ⟨fun h => ⟨h, hm⟩, fun h => h.1⟩

/-- The natural join is the equi-join on the common names with each column left out that would come twice, and where no
name is common it is all pairs of rows. It is refused exactly where a common name stands for different domains. -/
theorem naturalJoin_eq_project_join (ht : t.Reachable) (hu : u.Reachable) (suffix : String)
    (session session' : Session) :
    let common := t.schema.commonNames u.schema
    ((∃ w, t.naturalJoin u session = .ok w) ↔ t.schema.AgreeOnDomains u.schema)
      ∧ ∀ w, t.naturalJoin u session = .ok w →
        (common ≠ [] → ∃ j, (Operator.join common common suffix).eval [t, u] session' = .ok j
          ∧ j.1.tuples.mapM (fun row => row.project? (t.schema.distinctColumns u.schema)) = some w.1.tuples)
        ∧ (common = [] → w.1.tuples = (t.tuples.flatMap fun l => u.tuples.map fun r => l ++ r)
          ∧ w.1.size = t.size * u.size)
        ∧ w.1.schema.names = t.schema.names ++ u.schema.names.filter (fun name => name ∉ common)
        ∧ w.1.schema.names.Nodup
        ∧ w.1.schema.key = t.schema.key ∧ w.1.schema.keyColumns = t.schema.keyColumns
        ∧ w.1.schema.arity + common.length = t.schema.arity + u.schema.arity := by
  intro common
  have ht := ht.wellFormed
  have hu := hu.wellFormed
  rw [Schema.agreeOnDomains_iff]
  constructor
  · constructor
    · intro ⟨w, h⟩
      exact (joinedFrom_of_eq_ok ht hu h).1
    · intro agree
      obtain ⟨w, next, h, -⟩ := naturalJoin_of_agree ht hu agree session
      exact ⟨(w, next), h⟩
  · intro w h
    obtain ⟨agree, joined⟩ := joinedFrom_of_eq_ok ht hu h
    obtain ⟨lay, hy, hw⟩ := (naturalJoin_eq_ok_iff ht hu).mp h
    have attributes := (Join.layout_eq_ok hy).2.2
    have names := joined.names_eq
    refine ⟨?_, ?_, names, w.1.schema.valid.names_nodup, joined.key_eq, ?_, ?_⟩
    · intro hn
      rw [← hw]
      exact exists_join_project ht hu hy (Schema.agreeOnDomains_iff.mpr agree) hn suffix session'
    · intro hn
      have rows : w.1.tuples = t.tuples.flatMap fun l => u.tuples.map fun r => l ++ r := by
        rw [← hw]
        exact nested_of_commonNames_eq_nil hu hy hn
      refine ⟨rows, ?_⟩
      rw [size, rows, List.length_flatMap]
      simp [size]
    · rw [← hw]
      exact Schema.keyColumns_append attributes (hw ▸ joined.key_eq)
    · have lengths := Schema.length_filter_notMem_commonNames t.schema u.schema
      rw [← Schema.length_names w.1.schema, names, List.length_append, Schema.length_names, Nat.add_assoc, lengths]

/-- The levels and the sites have the names of the sites in common, the marks and the sites none. -/
theorem naturalJoin_eq_project_join_levels :
    let session : Session := ⟨"2", 0⟩
    let op := Operator.join ["site"] ["site"] "2"
    levels.Reachable ∧ sites.Reachable ∧ marks.Reachable
      ∧ levels.schema.commonNames sites.schema = ["site"] ∧ levels.schema.distinctColumns sites.schema = [0, 1, 2]
      ∧ marks.schema.commonNames sites.schema = []
      ∧ (∃ w j, levels.naturalJoin sites session = .ok w ∧ op.eval [levels, sites] session = .ok j
        ∧ j.1.tuples.mapM (fun row => row.project? [0, 1, 2]) = some w.1.tuples)
      ∧ ∃ w, marks.naturalJoin sites session = .ok w
        ∧ w.1.tuples = marks.tuples.flatMap fun l => sites.tuples.map fun r => l ++ r := by
  intro session op
  have hs : sites.Reachable := .ofTuples "sites" .hash (by decide)
  have hm : marks.Reachable := .ofTuples "marks" .btree (by decide)
  have one : levels.schema.commonNames sites.schema = ["site"] := by decide
  have none : marks.schema.commonNames sites.schema = [] := by decide
  have columns : levels.schema.distinctColumns sites.schema = [0, 1, 2] := by decide
  refine ⟨reachable_levels, hs, hm, one, columns, none, ?_, ?_⟩
  · obtain ⟨made, rows⟩ := naturalJoin_eq_project_join reachable_levels hs "2" session session
    obtain ⟨w, hw⟩ := made.mpr (by decide)
    obtain ⟨j, hj, hr⟩ := (rows w hw).1 (by decide)
    rw [one] at hj
    rw [columns] at hr
    exact ⟨w, j, hw, hj, hr⟩
  · obtain ⟨made, rows⟩ := naturalJoin_eq_project_join hm hs "2" session session
    obtain ⟨w, hw⟩ := made.mpr (by decide)
    exact ⟨w, hw, ((rows w hw).2.1 none).1⟩

end Table

end Relata
