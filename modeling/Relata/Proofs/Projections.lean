import Mathlib.Data.List.Find
import Mathlib.Data.List.Nodup
import Mathlib.Data.List.Perm.Subperm
import Relata.Proofs.CommonColumns
/-!
# Projections

What a projection makes is known from names alone. It takes the attributes with the names that it is asked for
(`restrict_eq_ok_iff`), and of each row what the row shows at those names (`project_eq_filterMap_lookup`). A row that is
projected shows at the names that are left what it showed before (`lookup_zip_project`). So a projection of a projection
gives the rows that a projection of the table gives (`project_project_eq_project`). Its key may be in another order, where
the table's key was lost on the way.
-/

namespace Relata

/-! ## Restrictions of schemas -/

namespace Schema

variable {s t : Schema} {names : List String} {columns : List Nat}

/-- Attributes of a schema are known from their names. -/
theorem eq_of_map_name {l m : List Attribute} (hl : ∀ a ∈ l, a ∈ s.attributes) (hm : ∀ a ∈ m, a ∈ s.attributes)
    (h : l.map Attribute.name = m.map Attribute.name) : l = m := by
  induction l generalizing m with
  | nil => exact (List.map_eq_nil_iff.mp h.symm).symm
  | cons a l ih =>
    cases m with
    | nil => cases h
    | cons b m =>
      obtain ⟨first, rest⟩ := List.cons.inj h
      obtain ⟨ha, hl⟩ := List.forall_mem_cons.mp hl
      obtain ⟨hb, hm⟩ := List.forall_mem_cons.mp hm
      rw [List.inj_on_of_nodup_map s.valid.names_nodup ha hb first, ih hl hm rest]

/-- At the columns that are found for names stand those names. -/
theorem filterMap_names (hc : names.map s.column? = columns.map some) :
    (columns.filterMap fun c => s.names[c]?) = names := by
  induction names generalizing columns with
  | nil => rw [List.map_eq_nil_iff.mp hc.symm, List.filterMap_nil]
  | cons first names ih =>
    cases columns with
    | nil => cases hc
    | cons c columns =>
      obtain ⟨hf, hr⟩ := List.cons.inj hc
      rw [List.filterMap_cons_some (column?_eq_some_iff.mp hf), ih hr]

theorem attributes_at_columns (hc : s.columns names = .ok columns) :
    (columns.filterMap fun c => s.attributes[c]?).map Attribute.name = names
      ∧ ∀ a ∈ columns.filterMap (fun c => s.attributes[c]?), a ∈ s.attributes := by
  constructor
  · calc
      (columns.filterMap fun c => s.attributes[c]?).map Attribute.name
          = columns.filterMap fun c => s.attributes[c]?.map Attribute.name := List.map_filterMap
      _ = columns.filterMap fun c => s.names[c]? := by simp only [Schema.names, List.getElem?_map]
      _ = names := filterMap_names (columns_eq_ok hc)
  · intro a ha
    obtain ⟨c, -, there⟩ := List.mem_filterMap.mp ha
    exact List.mem_of_getElem? there

theorem restrict_eq_build (hn : names ≠ []) (hc : s.columns names = .ok columns) :
    s.restrict names = build (columns.filterMap fun c => s.attributes[c]?)
      (if ∀ name ∈ s.key, name ∈ names then s.key else names) := by
  have covered : s.key.all names.contains = true ↔ ∀ name ∈ s.key, name ∈ names := by simp
  rw [restrict, if_neg hn, hc]
  show build _ (if s.key.all names.contains then s.key else names) = _
  simp only [covered]

/-- A restriction has the names that it is asked for, each with its attribute, and keeps the key where they cover it. -/
theorem restrict_eq_ok_iff : s.restrict names = .ok t ↔ t.names = names ∧ (∀ a ∈ t.attributes, a ∈ s.attributes)
    ∧ t.key = if ∀ name ∈ s.key, name ∈ names then s.key else names := by
  constructor
  · intro h
    have hn : names ≠ [] := by
      rintro rfl
      cases h
    obtain ⟨columns, hc, -⟩ := restrict_eq_ok h
    rw [restrict_eq_build hn hc, build_eq_ok_iff] at h
    obtain ⟨named, there⟩ := attributes_at_columns hc
    rw [Schema.names, h.1]
    exact ⟨named, there, h.2⟩
  · rintro ⟨rfl, there, key⟩
    have hn : t.names ≠ [] := fun h => t.valid.attributes_ne_nil (List.map_eq_nil_iff.mp h)
    obtain ⟨columns, hc⟩ : ∃ columns, s.columns t.names = .ok columns := by
      apply exists_columns
      intro name hm
      obtain ⟨a, ha, rfl⟩ := List.mem_map.mp hm
      exact List.mem_map_of_mem (there a ha)
    obtain ⟨named, there'⟩ := attributes_at_columns hc
    rw [restrict_eq_build hn hc, build_eq_ok_iff]
    exact ⟨eq_of_map_name there there' named.symm, key⟩

/-- Distinct names of attributes can be restricted to. -/
theorem exists_restrict (hn : names ≠ []) (hd : names.Nodup) (h : ∀ name ∈ names, name ∈ s.names) :
    ∃ t, s.restrict names = .ok t := by
  obtain ⟨columns, hc⟩ := exists_columns h
  obtain ⟨named, -⟩ := attributes_at_columns hc
  have valid : Valid (columns.filterMap fun c => s.attributes[c]?)
      (if ∀ name ∈ s.key, name ∈ names then s.key else names) := by
    constructor
    · rintro nil
      rw [nil] at named
      exact hn named.symm
    · split
      · exact s.valid.key_ne_nil
      · exact hn
    · rwa [named]
    · split
      · exact s.valid.key_nodup
      · exact hd
    · rw [named]
      split
      · next covers => exact covers
      · exact fun _ hm => hm
  exact ⟨⟨_, _, valid⟩, (restrict_eq_build hn hc).trans ((build_eq_ok_iff ..).mpr ⟨rfl, rfl⟩)⟩

/-- To restrict a restriction is to restrict the schema. The keys are in other orders at most, and only where the first
restriction lost the key and the second one rearranges it. -/
theorem restrict_restrict {fewer : List String} {first second direct : Schema} (hf : s.restrict names = .ok first)
    (hs : first.restrict fewer = .ok second) (hd : s.restrict fewer = .ok direct)
    (h : ∀ name ∈ fewer, name ∈ names) :
    second.attributes = direct.attributes ∧ second.key.Perm direct.key
      ∧ (second = direct ∨ fewer.Perm names ∧ ¬∀ name ∈ s.key, name ∈ names) := by
  obtain ⟨named, there, key⟩ := restrict_eq_ok_iff.mp hf
  obtain ⟨named', there', key'⟩ := restrict_eq_ok_iff.mp hs
  obtain ⟨named'', there'', key''⟩ := restrict_eq_ok_iff.mp hd
  have attributes : second.attributes = direct.attributes :=
    eq_of_map_name (fun a ha => there a (there' a ha)) there'' (named'.trans named''.symm)
  by_cases covers : ∀ name ∈ s.key, name ∈ names
  · -- The key is kept, so both look at whether it is covered now.
    rw [if_pos covers] at key
    rw [key, ← key''] at key'
    exact ⟨attributes, .of_eq key', .inl (eq_of_attributes_key attributes key')⟩
  · rw [if_neg covers] at key
    have lost : ¬∀ name ∈ s.key, name ∈ fewer := fun hk => covers fun name hm => h name (hk name hm)
    rw [if_neg lost] at key''
    rw [key] at key'
    by_cases all : ∀ name ∈ names, name ∈ fewer
    · rw [if_pos all] at key'
      have same : fewer.Perm names := by
        apply (List.perm_ext_iff_of_nodup (named' ▸ second.valid.names_nodup) (named ▸ first.valid.names_nodup)).mpr
        exact fun name => ⟨h name, all name⟩
      rw [key', key'']
      exact ⟨attributes, same.symm, .inr ⟨same, covers⟩⟩
    · rw [if_neg all, ← key''] at key'
      exact ⟨attributes, .of_eq key', .inl (eq_of_attributes_key attributes key')⟩

/-! ## Restrictions of rows -/

variable {row : Tuple}

/-- The columns of names, taken out of a row, are what the row shows at those names. -/
theorem project_eq_filterMap_lookup (hc : s.columns names = .ok columns) (row : Tuple) :
    row.project columns = names.filterMap fun name => (s.label row).lookup name := by
  calc
    row.project columns = (columns.map some).filterMap fun c => c.bind fun c => row[c]? := by
      rw [List.filterMap_map]
      rfl
    _ = (names.map s.column?).filterMap fun c => c.bind fun c => row[c]? := by rw [columns_eq_ok hc]
    _ = names.filterMap fun name => (s.label row).lookup name := by
      simp only [List.filterMap_map, label, lookup_zip]
      rfl

/-- The key of a row is what the row shows at the names of the key. -/
theorem keyOf_eq_filterMap_lookup (s : Schema) (row : Tuple) :
    s.keyOf row = s.key.filterMap fun name => (s.label row).lookup name := by
  rw [keyOf, Tuple.project, keyColumns, List.filterMap_filterMap]
  apply List.filterMap_congr
  intro name _
  exact (lookup_zip row name).symm

/-- The columns of names, taken out of a row, show under those names what the row shows there. -/
theorem lookup_zip_project (hc : names.map s.column? = columns.map some) (hl : ∀ c ∈ columns, c < row.length)
    {name : String} (hn : name ∈ names) : (names.zip (row.project columns)).lookup name = (s.label row).lookup name := by
  induction names generalizing columns with
  | nil => cases hn
  | cons first names ih =>
    cases columns with
    | nil => cases hc
    | cons c columns =>
      obtain ⟨hf, hr⟩ := List.cons.inj hc
      have value := List.getElem?_eq_getElem (hl c List.mem_cons_self)
      rw [Tuple.project_cons value, List.zip_cons_cons, List.lookup_cons]
      by_cases he : name = first
      · rw [he, beq_self_eq_true, label, lookup_zip, hf]
        exact value.symm
      · rw [beq_eq_false_iff_ne.mpr he]
        exact ih hr (fun d hd => hl d (List.mem_cons_of_mem c hd)) ((List.mem_cons.mp hn).resolve_left he)

section Rows

variable (h : s.restrict names = .ok t) (hc : s.columns names = .ok columns) (fits : s.Fits row)
include h hc fits

/-- A row that is projected shows at the names that are left what it showed before. -/
theorem lookup_label_project {name : String} (hn : name ∈ names) :
    (t.label (row.project columns)).lookup name = (s.label row).lookup name := by
  have within : ∀ c ∈ columns, c < row.length := fun c hm => fits.length_eq ▸ columns_lt hc c hm
  rw [label, (restrict_eq_ok_iff.mp h).1]
  exact lookup_zip_project (columns_eq_ok hc) within hn

/-- A restriction that covers the key keeps the keys of the rows. -/
theorem keyOf_project (hk : ∀ name ∈ s.key, name ∈ names) : t.keyOf (row.project columns) = s.keyOf row := by
  have key := (restrict_eq_ok_iff.mp h).2.2
  rw [if_pos hk] at key
  rw [keyOf_eq_filterMap_lookup, keyOf_eq_filterMap_lookup, key]
  apply List.filterMap_congr
  intro name hm
  exact lookup_label_project h hc fits (hk name hm)

/-- To project what is projected is to project the row. -/
theorem project_project {fewer : List String} {second direct : List Nat} (hs : t.columns fewer = .ok second)
    (hd : s.columns fewer = .ok direct) (hn : ∀ name ∈ fewer, name ∈ names) :
    (row.project columns).project second = row.project direct := by
  rw [project_eq_filterMap_lookup hs, project_eq_filterMap_lookup hd]
  apply List.filterMap_congr
  intro name hm
  exact lookup_label_project h hc fits (hn name hm)

end Rows

end Schema

/-! ## Results of projections -/

namespace Operator

variable {t : Table} {names : List String}

/-- On a well-formed table a projection takes the columns of its names out of every row. -/
theorem result_project_eq_ok_iff (ht : t.WellFormed) {result : Result} :
    (project names).result [t] = .ok result ↔ ∃ s columns, t.schema.restrict names = .ok s
      ∧ t.schema.columns names = .ok columns
      ∧ Result.mk t s (t.tuples.map fun row => row.project columns) = result := by
  have rows {columns : List Nat} (hc : t.schema.columns names = .ok columns) :=
    mapM_project? (fits_of_wellFormed ht) hc
  constructor
  · intro h
    obtain ⟨t', ht', h⟩ := exists_of_one_bind h
    cases ht'
    obtain ⟨plan, hp, h⟩ := exists_of_bind_eq_ok h
    obtain ⟨s, hs, hp⟩ : ∃ s, Rejection.lift (t.schema.restrict names) = .ok s
        ∧ Except.ok (Plan.mk s .linear) = .ok plan := exists_of_bind_eq_ok hp
    obtain ⟨columns, hc, h⟩ := exists_of_bind_eq_ok h
    obtain ⟨made, hr, h⟩ := exists_of_bind_eq_ok h
    cases hp
    cases h
    have hc := lift_eq_ok_iff.mp hc
    cases (defined_eq_ok_iff.mp hr).symm.trans (rows hc)
    exact ⟨s, columns, lift_eq_ok_iff.mp hs, hc, rfl⟩
  · intro h
    obtain ⟨s, columns, hs, hc, rfl⟩ := h
    show ((Rejection.lift (t.schema.restrict names) >>= fun s => .ok (Plan.mk s .linear)) >>= fun plan =>
      Rejection.lift (t.schema.columns names) >>= fun columns =>
      Rejection.defined (t.tuples.mapM fun row => row.project? columns) >>= fun rows =>
      .ok (Result.mk t plan.schema rows)) = _
    rw [hs, hc]
    show (Rejection.defined (t.tuples.mapM fun row => row.project? columns) >>= _) = _
    rw [rows hc]
    rfl

/-- What a projection leaves in a session: a table over the restricted schema with the rows projected. -/
theorem eval_project_eq_ok_iff (ht : t.WellFormed) {session : Session} {w : Table × Session} :
    (project names).eval [t] session = .ok w ↔ ∃ s columns, t.schema.restrict names = .ok s
      ∧ t.schema.columns names = .ok columns
      ∧ session.derive t s (t.tuples.map fun row => row.project columns) = w := by
  rw [eval_eq, map_eq_ok_iff]
  constructor
  · intro h
    obtain ⟨result, made, rfl⟩ := h
    obtain ⟨s, columns, hs, hc, rfl⟩ := (result_project_eq_ok_iff ht).mp made
    exact ⟨s, columns, hs, hc, rfl⟩
  · intro h
    obtain ⟨s, columns, hs, hc, rfl⟩ := h
    exact ⟨_, (result_project_eq_ok_iff ht).mpr ⟨s, columns, hs, hc, rfl⟩, rfl⟩

end Operator

namespace Table

variable {t : Table} {names : List String} {session : Session} {w : Table × Session}

/-- A key that the projection of a table keeps finds the projection of what it found. -/
theorem find?_of_project (ht : t.Reachable) (h : (Operator.project names).eval [t] session = .ok w)
    (hk : ∀ name ∈ t.schema.key, name ∈ names) :
    ∃ columns, t.schema.columns names = .ok columns
      ∧ ∀ key, w.1.find? key = (t.find? key).map fun row => row.project columns := by
  have wellFormed : w.1.WellFormed := (Operator.reachable_of_eval (by simp [ht]) h).wellFormed
  obtain ⟨s, columns, hs, hc, rfl⟩ := (Operator.eval_project_eq_ok_iff ht.wellFormed).mp h
  refine ⟨columns, hc, ?_⟩
  intro key
  rw [wellFormed.find?_eq, ht.wellFormed.find?_eq]
  show (t.tuples.map fun row => row.project columns).find? _ = _
  rw [List.find?_map]
  congr 1
  apply List.find?_congr
  intro row hr
  rw [Function.comp_apply]
  show decide (s.keyOf (row.project columns) = key) = _
  rw [Schema.keyOf_project hs hc (Operator.fits_of_wellFormed ht.wellFormed row hr) hk]

/-- To project a projection is to project the table: the attributes and the rows are the same, and so is all else, except
that a key that was lost on the way may be in another order. A projection that covers the key finds for each key the
projection of what the table finds. -/
theorem project_project_eq_project (ht : t.Reachable) (h : (Operator.project names).eval [t] session = .ok w)
    {fewer : List String} (hn : fewer ≠ []) (hd : fewer.Nodup) (hs : ∀ name ∈ fewer, name ∈ names)
    (session' session'' : Session) :
    (∃ x y, (Operator.project fewer).eval [w.1] session' = .ok x
        ∧ (Operator.project fewer).eval [t] session'' = .ok y
        ∧ x.1.schema.attributes = y.1.schema.attributes ∧ x.1.tuples = y.1.tuples
        ∧ x.1.schema.key.Perm y.1.schema.key
        ∧ (x.1.SameContent y.1 ∨ fewer.Perm names ∧ ¬∀ name ∈ t.schema.key, name ∈ names))
      ∧ ((∀ name ∈ t.schema.key, name ∈ names) → ∃ columns, t.schema.columns names = .ok columns
        ∧ ∀ key, w.1.find? key = (t.find? key).map fun row => row.project columns) := by
  refine ⟨?_, find?_of_project ht h⟩
  have wellFormed : w.1.WellFormed := (Operator.reachable_of_eval (by simp [ht]) h).wellFormed
  obtain ⟨first, columns, hf, hc, rfl⟩ := (Operator.eval_project_eq_ok_iff ht.wellFormed).mp h
  obtain ⟨named, there, -⟩ := Schema.restrict_eq_ok_iff.mp hf
  have left : ∀ name ∈ fewer, name ∈ first.names := fun name hm => named ▸ hs name hm
  have before : ∀ name ∈ fewer, name ∈ t.schema.names := by
    intro name hm
    obtain ⟨a, ha, rfl⟩ := List.mem_map.mp (left name hm)
    exact List.mem_map_of_mem (there a ha)
  obtain ⟨second, hx⟩ := Schema.exists_restrict hn hd left
  obtain ⟨direct, hy⟩ := Schema.exists_restrict hn hd before
  obtain ⟨xs, hxs⟩ := Schema.exists_columns left
  obtain ⟨ys, hys⟩ := Schema.exists_columns before
  obtain ⟨attributes, keys, same⟩ := Schema.restrict_restrict hf hx hy hs
  have rows : (t.tuples.map fun row => row.project columns).map (fun row => row.project xs)
      = t.tuples.map fun row => row.project ys := by
    rw [List.map_map]
    apply List.map_congr_left
    intro row hr
    exact Schema.project_project hf hc (Operator.fits_of_wellFormed ht.wellFormed row hr) hxs hys hs
  refine ⟨_, _, (Operator.eval_project_eq_ok_iff wellFormed).mpr ⟨second, xs, hx, hxs, rfl⟩,
    (Operator.eval_project_eq_ok_iff ht.wellFormed).mpr ⟨direct, ys, hy, hys, rfl⟩, attributes, rows, keys, ?_⟩
  exact same.imp_left fun he => sameContent_ofTuples _ _ he (indexKind_ofTuples ..) rows

/-- How deep rivers are at sites. -/
def depths : Table :=
  ofTuples "depths" ⟨[⟨"river", .string⟩, ⟨"site", .string⟩, ⟨"depth", .short⟩], ["site", "river"],
      ⟨by decide, by decide, by decide, by decide, by decide⟩⟩ .btree
    [[.string "Indal", .string "", .short (-1)], [.string "Ljungan", .string "", .short (-1)],
      [.string "Indal", .string "", .short 7]]

/-- Without the site the key is lost, and the names that are left change places. With the site it stays, and finds the
first of two rows. -/
theorem project_project_eq_project_depths :
    let session : Session := ⟨"2", 0⟩
    depths.Reachable
      ∧ (∃ w x y, (Operator.project ["depth", "river"]).eval [depths] session = .ok w
        ∧ (Operator.project ["river", "depth"]).eval [w.1] session = .ok x
        ∧ (Operator.project ["river", "depth"]).eval [depths] session = .ok y
        ∧ x.1.schema.attributes = y.1.schema.attributes ∧ x.1.tuples = y.1.tuples
        ∧ x.1.schema.key.Perm y.1.schema.key ∧ x.1.schema.key = ["depth", "river"])
      ∧ ∃ w x y, (Operator.project ["depth", "site", "river"]).eval [depths] session = .ok w
        ∧ (Operator.project ["river"]).eval [w.1] session = .ok x
        ∧ (Operator.project ["river"]).eval [depths] session = .ok y ∧ x.1.SameContent y.1
        ∧ w.1.find? [.string "", .string "Indal"] = some [.short (-1), .string "", .string "Indal"] := by
  intro session
  have hr : depths.Reachable := .ofTuples "depths" .btree (by decide)
  refine ⟨hr, ?_, ?_⟩
  · obtain ⟨w, hw⟩ : ∃ w, (Operator.project ["depth", "river"]).eval [depths] session = .ok w :=
      ⟨_, (Operator.eval_project_eq_ok_iff hr.wellFormed).mpr ⟨_, _, rfl, rfl, rfl⟩⟩
    have hn : ["river", "depth"] ≠ [] := by decide
    have hs : ∀ name ∈ ["river", "depth"], name ∈ ["depth", "river"] := by decide
    obtain ⟨⟨x, y, hx, hy, attributes, rows, keys, -⟩, -⟩ :=
      project_project_eq_project hr hw hn (by decide) hs session session
    have key : ((Operator.project ["depth", "river"]).eval [depths] session >>= fun w =>
        (Operator.project ["river", "depth"]).eval [w.1] session).toOption.map (fun x => x.1.schema.key)
        = some ["depth", "river"] := by decide +kernel
    rw [hw] at key
    change ((Operator.project ["river", "depth"]).eval [w.1] session).toOption.map _ = _ at key
    rw [hx] at key
    exact ⟨w, x, y, hw, hx, hy, attributes, rows, keys, Option.some.inj key⟩
  · obtain ⟨w, hw⟩ : ∃ w, (Operator.project ["depth", "site", "river"]).eval [depths] session = .ok w :=
      ⟨_, (Operator.eval_project_eq_ok_iff hr.wellFormed).mpr ⟨_, _, rfl, rfl, rfl⟩⟩
    have hn : ["river"] ≠ [] := by decide
    have hs : ∀ name ∈ ["river"], name ∈ ["depth", "site", "river"] := by decide
    have covers : ∀ name ∈ depths.schema.key, name ∈ ["depth", "site", "river"] := by decide
    obtain ⟨⟨x, y, hx, hy, -, -, -, same⟩, found⟩ :=
      project_project_eq_project hr hw hn (by decide) hs session session
    obtain ⟨columns, hc, found⟩ := found covers
    have hc' : depths.schema.columns ["depth", "site", "river"] = .ok [2, 1, 0] := rfl
    cases hc'.symm.trans hc
    refine ⟨w, x, y, hw, hx, hy, same.resolve_right fun lost => lost.2 covers, ?_⟩
    rw [found]
    decide +kernel

end Table

end Relata
