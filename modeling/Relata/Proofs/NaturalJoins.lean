import Relata.Algebra.Query
import Relata.Proofs.Labels
import Relata.Proofs.Running
/-!
# Natural joins

A natural join is the merge of labelled rows: its columns are those of the left table and the further ones
of the right table (`Merges`), and its rows are the joined ones (`NaturalJoin`). It is refused exactly when
the tables have a name in common with different domains. From that it is associative, to the last row and
its place (`naturalJoin_assoc`).
-/

namespace Relata

/-! ## Columns by name -/

namespace Schema

variable {s : Schema}

/-- The domains of the columns under their names. -/
def labels (s : Schema) : List (String × Domain) := s.names.zip s.domains

/-- The values of a row under the names of the columns. -/
def label (s : Schema) (row : Tuple) : List (String × Value) := s.names.zip row

theorem keys_labels (s : Schema) : Entries.keys s.labels = s.names := by
  apply List.map_fst_zip
  simp [names, domains]

theorem length_names (s : Schema) : s.names.length = s.arity := List.length_map _

theorem length_domains (s : Schema) : s.domains.length = s.arity := List.length_map _

theorem keys_label {row : Tuple} (h : row.length = s.arity) : Entries.keys (s.label row) = s.names := by
  apply List.map_fst_zip
  simp [length_names, h]

theorem map_snd_label {row : Tuple} (h : row.length = s.arity) : (s.label row).map Prod.snd = row := by
  apply List.map_snd_zip
  simp [length_names, h]

theorem labels_eq_map (s : Schema) : s.labels = s.attributes.map fun a => (a.name, a.domain) := by
  rw [labels, names, domains, List.zip_map']

theorem lookup_labels {a : Attribute} (h : a ∈ s.attributes) : s.labels.lookup a.name = some a.domain := by
  apply Entries.lookup_of_mem
  · rw [keys_labels]
    exact s.valid.names_nodup
  · rw [labels_eq_map]
    exact List.mem_map_of_mem h

/-- A schema is known from its labels and its key. -/
theorem eq_of_labels_key {t : Schema} (hl : s.labels = t.labels) (hk : s.key = t.key) : s = t := by
  apply eq_of_attributes_key _ hk
  rw [labels_eq_map, labels_eq_map] at hl
  apply List.map_injective_iff.mpr _ hl
  intro a b h
  cases a
  cases b
  simpa using h

theorem column?_eq_some_iff {name : String} {c : Nat} : s.column? name = some c ↔ s.names[c]? = some name := by
  constructor
  · intro h
    obtain ⟨hc, he, -⟩ := List.findIdx?_eq_some_iff_getElem.mp h
    rw [names, List.getElem?_map, List.getElem?_eq_getElem hc, Option.map_some, eq_of_beq he]
  · intro h
    obtain ⟨d, hd, hn⟩ := exists_column_of_mem (List.mem_of_getElem? h)
    obtain ⟨hl, -⟩ := List.getElem?_eq_some_iff.mp h
    rw [hd, (List.getElem?_inj hl s.valid.names_nodup).mp (h.trans hn.symm)]

theorem lookup_zip {α : Type} (row : List α) (name : String) :
    (s.names.zip row).lookup name = (s.column? name).bind fun c => row[c]? := by
  rw [names, column?]
  generalize s.attributes = attributes
  induction attributes generalizing row with
  | nil => rfl
  | cons a attributes ih =>
    cases row with
    | nil => cases List.findIdx? (fun a => a.name == name) (a :: attributes) <;> simp
    | cons v row =>
      rw [List.map_cons, List.zip_cons_cons, List.lookup_cons, List.findIdx?_cons, ih, BEq.comm]
      cases a.name == name with
      | true => rfl
      | false => cases List.findIdx? (fun a => a.name == name) attributes <;> simp

/-- A column that is there has a thing under its name. -/
theorem exists_lookup_zip {α : Type} {row : List α} {name : String} {c : Nat} (hc : s.column? name = some c)
    (h : row.length = s.arity) : ∃ a, (s.names.zip row).lookup name = some a := by
  rw [lookup_zip, hc]
  exact ⟨_, List.getElem?_eq_getElem (h ▸ column?_lt hc)⟩

theorem label_append {t : Schema} {names : List String} (hn : t.names = s.names ++ names) {row : Tuple}
    (h : row.length = s.arity) (more : Tuple) : t.label (row ++ more) = s.label row ++ names.zip more := by
  rw [label, hn, label, List.zip_append (by rw [h, length_names])]

end Schema

/-! ## Layouts as merges -/

namespace Join

variable {left right : Schema}

/-- A layout compares the columns whose names both sides have, and keeps the further ones of the right side. -/
structure Merges (left right : Schema) (lay : Layout) : Prop where
  key_eq : lay.schema.key = left.key
  labels_eq : lay.schema.labels = Labels.merge left.labels right.labels
  agree_eq : ∀ l r : Tuple, l.length = left.arity → r.length = right.arity →
    agree lay.common l r = decide (Labels.Agree (left.label l) (right.label r))
  label_eq : ∀ l r : Tuple, l.length = left.arity → r.length = right.arity →
    lay.schema.label (l ++ r.project lay.kept) = Labels.merge (left.label l) (right.label r)

theorem commonColumns_of_none {a : Attribute} (h : right.column? a.name = none) (position : Nat)
    (rest : List Attribute) :
    commonColumns right position (a :: rest) = commonColumns right (position + 1) rest := by
  rw [commonColumns, h]

theorem commonColumns_of_some {a : Attribute} {c : Nat} (h : right.column? a.name = some c) {d : Domain}
    (hd : right.labels.lookup a.name = some d) (position : Nat) (rest : List Attribute) :
    commonColumns right position (a :: rest)
      = if a.domain = d then (commonColumns right (position + 1) rest).map ((position, c) :: ·)
        else .error (.incomparable a.domain d) := by
  rw [Schema.labels, Schema.lookup_zip, h, Option.bind_some, Schema.domains, List.getElem?_map] at hd
  obtain ⟨b, hb, rfl⟩ := Option.map_eq_some_iff.mp hd
  rw [commonColumns, h]
  simp only [hb, Value.checkDomains]
  by_cases he : a.domain = b.domain
  · rw [if_pos he, if_pos he]
    cases commonColumns right (position + 1) rest <;> rfl
  · rw [if_neg he, if_neg he]
    rfl

/-- The columns that both sides name are found where their domains agree. -/
theorem commonColumns_of_agree {attributes : List Attribute} (position : Nat)
    (h : ∀ a ∈ attributes, ∀ d, right.labels.lookup a.name = some d → a.domain = d) :
    ∃ common, commonColumns right position attributes = .ok common
      ∧ ∀ p : Nat × Nat, p ∈ common ↔ ∃ i a, attributes[i]? = some a ∧ p.1 = position + i
        ∧ right.column? a.name = some p.2 := by
  induction attributes generalizing position with
  | nil => exact ⟨[], rfl, by simp⟩
  | cons a rest ih =>
    obtain ⟨more, hm, hp⟩ := ih (position + 1) fun b hb => h b (List.mem_cons_of_mem a hb)
    -- The first attribute stands at the position itself, the others one place on.
    have places : ∀ p : Nat × Nat, (∃ i b, (a :: rest)[i]? = some b ∧ p.1 = position + i
        ∧ right.column? b.name = some p.2)
        ↔ (p.1 = position ∧ right.column? a.name = some p.2) ∨ p ∈ more := by
      intro p
      rw [hp]
      constructor
      · rintro ⟨i, b, hb, hi, hc⟩
        cases i with
        | zero => simp_all
        | succ i => exact .inr ⟨i, b, hb, by omega, hc⟩
      · rintro (⟨hi, hc⟩ | ⟨i, b, hb, hi, hc⟩)
        · exact ⟨0, a, rfl, hi, hc⟩
        · exact ⟨i + 1, b, hb, by omega, hc⟩
    simp only [places]
    cases hc : right.column? a.name with
    | none => exact ⟨more, (commonColumns_of_none hc position rest).trans hm, by simp⟩
    | some c =>
      obtain ⟨d, hd⟩ := Schema.exists_lookup_zip hc (Schema.length_domains right)
      refine ⟨(position, c) :: more, ?_, ?_⟩
      · rw [commonColumns_of_some hc hd, if_pos (h a List.mem_cons_self d hd), hm]
        rfl
      · rintro ⟨i, e⟩
        simp [Prod.ext_iff, eq_comm]

theorem commonColumns_of_not_agree {attributes : List Attribute} (position : Nat) {a : Attribute}
    (ha : a ∈ attributes) {d : Domain} (hd : right.labels.lookup a.name = some d) (hn : a.domain ≠ d) :
    ∃ fault, commonColumns right position attributes = .error fault := by
  induction attributes generalizing position with
  | nil => cases ha
  | cons b rest ih =>
    cases hc : right.column? b.name with
    | none =>
      rw [commonColumns_of_none hc]
      rcases List.mem_cons.mp ha with rfl | ha
      · rw [Schema.labels, Schema.lookup_zip, hc] at hd
        cases hd
      · exact ih _ ha
    | some c =>
      obtain ⟨e, he⟩ := Schema.exists_lookup_zip hc (Schema.length_domains right)
      rw [commonColumns_of_some hc he]
      by_cases hb : b.domain = e
      · rw [if_pos hb]
        rcases List.mem_cons.mp ha with rfl | ha
        · exact absurd (hb.trans (Option.some.inj (he.symm.trans hd))) hn
        · obtain ⟨fault, hf⟩ := ih (position + 1) ha
          exact ⟨fault, by rw [hf]; rfl⟩
      · exact ⟨_, if_neg hb⟩

/-- The columns that a layout keeps, of a list with a thing for each name. -/
theorem filterMap_kept {α : Type} {keep : Nat → Bool} {further : String → Bool} (names : List String)
    (row : List α) (hl : row.length = names.length)
    (h : ∀ (c : Nat) (name : String), names[c]? = some name → keep c = further name) :
    ((List.range names.length).filter keep).filterMap (fun c => row[c]?)
      = ((names.zip row).filter fun e => further e.1).map Prod.snd := by
  induction names generalizing row keep with
  | nil => rfl
  | cons name names ih =>
    cases row with
    | nil => cases hl
    | cons v row =>
      have shifted : ∀ (c : Nat) (other : String), names[c]? = some other → (keep ∘ Nat.succ) c = further other :=
        fun c other hc => h (c + 1) other hc
      have later := ih row (Nat.succ.inj hl) shifted
      have first := h 0 name rfl
      rw [List.length_cons, List.range_succ_eq_map, List.filter_cons, List.filter_map, List.zip_cons_cons,
        List.filter_cons, first]
      cases further name <;> simpa [List.filterMap_map, Function.comp_def] using later

section Layout

variable {common : List (Nat × Nat)}
  (hc : ∀ p : Nat × Nat, p ∈ common ↔ ∃ i a, left.attributes[i]? = some a ∧ p.1 = 0 + i
    ∧ right.column? a.name = some p.2)
include hc

theorem mem_common_iff {i c : Nat} :
    (i, c) ∈ common ↔ ∃ name, left.column? name = some i ∧ right.column? name = some c := by
  rw [hc]
  constructor
  · rintro ⟨j, a, ha, hi, hr⟩
    obtain rfl : i = j := by simpa using hi
    exact ⟨a.name, Schema.column?_eq_some_iff.mpr (by simp [Schema.names, ha]), hr⟩
  · rintro ⟨name, hl, hr⟩
    rw [Schema.column?_eq_some_iff, Schema.names, List.getElem?_map] at hl
    obtain ⟨a, ha, rfl⟩ := Option.map_eq_some_iff.mp hl
    exact ⟨i, a, ha, by simp, hr⟩

theorem agree_common_iff {l r : Tuple} (hl : l.length = left.arity) (hr : r.length = right.arity) :
    agree common l r = true ↔ Labels.Agree (left.label l) (right.label r) := by
  rw [agree, List.all_eq_true]
  simp only [Labels.Agree, Schema.label, Schema.lookup_zip, beq_iff_eq]
  constructor
  · intro h name a b ha hb
    obtain ⟨i, hi, ha⟩ := Option.bind_eq_some_iff.mp ha
    obtain ⟨c, hcol, hb⟩ := Option.bind_eq_some_iff.mp hb
    have := h (i, c) ((mem_common_iff hc).mpr ⟨name, hi, hcol⟩)
    simpa [ha, hb] using this
  · rintro h ⟨i, c⟩ hp
    obtain ⟨name, hi, hcol⟩ := (mem_common_iff hc).mp hp
    obtain ⟨a, ha⟩ : ∃ a, l[i]? = some a := ⟨_, List.getElem?_eq_getElem (hl ▸ Schema.column?_lt hi)⟩
    obtain ⟨b, hb⟩ : ∃ b, r[c]? = some b := ⟨_, List.getElem?_eq_getElem (hr ▸ Schema.column?_lt hcol)⟩
    rw [ha, hb, h name a b (by simp [hi, ha]) (by simp [hcol, hb])]

theorem kept_iff {c : Nat} {name : String} (h : right.names[c]? = some name) :
    (!(common.any fun p => p.2 == c)) = decide (name ∉ left.names) := by
  have there : (common.any fun p => p.2 == c) = true ↔ name ∈ left.names := by
    rw [List.any_eq_true]
    constructor
    · rintro ⟨⟨i, d⟩, hp, hd⟩
      obtain rfl : d = c := eq_of_beq hd
      obtain ⟨other, hi, ho⟩ := (mem_common_iff hc).mp hp
      rw [Schema.column?_eq_some_iff] at hi ho
      obtain rfl : other = name := Option.some.inj (ho.symm.trans h)
      exact List.mem_of_getElem? hi
    · intro hm
      obtain ⟨i, hi, -⟩ := Schema.exists_column_of_mem hm
      exact ⟨(i, c), (mem_common_iff hc).mpr ⟨name, hi, Schema.column?_eq_some_iff.mpr h⟩, beq_self_eq_true c⟩
  rw [Bool.eq_iff_iff, Bool.not_eq_true', decide_eq_true_iff, ← there, Bool.not_eq_true]

/-- What a layout keeps of a list with a thing for each column of the right side. -/
theorem filterMap_common {α : Type} (row : List α) (hl : row.length = right.arity) :
    ((List.range right.arity).filter fun c => !(common.any fun p => p.2 == c)).filterMap (fun c => row[c]?)
      = ((right.names.zip row).filter fun e => e.1 ∉ left.names).map Prod.snd := by
  rw [← Schema.length_names] at hl ⊢
  exact filterMap_kept right.names row hl fun c name hn => kept_iff hc hn

end Layout

/-- The attributes of the left side, then those of the right side with further names. -/
def mergedAttributes (left right : Schema) : List Attribute :=
  left.attributes ++ right.attributes.filter fun a => a.name ∉ left.names

theorem names_mergedAttributes (left right : Schema) : (mergedAttributes left right).map Attribute.name
    = left.names ++ right.names.filter fun name => name ∉ left.names := by
  rw [mergedAttributes, List.map_append, Schema.names, Schema.names, List.filter_map]
  rfl

theorem valid_mergedAttributes (left right : Schema) : Schema.Valid (mergedAttributes left right) left.key where
  attributes_ne_nil := by simp [mergedAttributes, left.valid.attributes_ne_nil]
  key_ne_nil := left.valid.key_ne_nil
  names_nodup := by
    rw [names_mergedAttributes, ← left.keys_labels, ← right.keys_labels, ← Labels.keys_merge]
    apply Labels.nodup_keys_merge
    · rw [left.keys_labels]
      exact left.valid.names_nodup
    · rw [right.keys_labels]
      exact right.valid.names_nodup
  key_nodup := left.valid.key_nodup
  key_subset name hk := by
    rw [names_mergedAttributes]
    exact List.mem_append_left _ (left.valid.key_subset name hk)

theorem domain_eq_of_agree (h : Labels.Agree left.labels right.labels) :
    ∀ a ∈ left.attributes, ∀ d, right.labels.lookup a.name = some d → a.domain = d := by
  intro a ha d hd
  exact h a.name a.domain d (Schema.lookup_labels ha) hd

/-- Where the names that both sides have stand for the same domains, the natural join has a layout. -/
theorem layout_of_agree (h : Labels.Agree left.labels right.labels) :
    ∃ lay, layout left right = .ok lay ∧ Merges left right lay := by
  obtain ⟨common, hok, hc⟩ := commonColumns_of_agree 0 (domain_eq_of_agree h)
  let kept := (List.range right.arity).filter fun c => !(common.any fun p => p.2 == c)
  let schema : Schema := ⟨mergedAttributes left right, left.key, valid_mergedAttributes left right⟩
  have attributes : kept.filterMap (fun c => right.attributes[c]?)
      = right.attributes.filter fun a => a.name ∉ left.names := by
    have zip : right.names.zip right.attributes = right.attributes.map fun a => (a.name, a) := by
      rw [Schema.names, ← List.zip_map', List.map_id']
    rw [filterMap_common hc right.attributes rfl, zip, List.filter_map, List.map_map]
    exact List.map_id _
  refine ⟨⟨common, kept, schema⟩, ?_, rfl, ?_, fun l r hl hr => ?_, fun l r hl hr => ?_⟩
  · have built := (Schema.build_eq_ok_iff _ _ schema).mpr ⟨rfl, rfl⟩
    rw [layout, hok]
    show (Schema.build (left.attributes ++ kept.filterMap fun c => right.attributes[c]?) left.key >>= _) = _
    rw [attributes, ← mergedAttributes, built]
    rfl
  · rw [Labels.merge, Schema.keys_labels]
    simp only [Schema.labels_eq_map, schema, mergedAttributes, List.map_append, List.filter_map]
    rfl
  · rw [Bool.eq_iff_iff, decide_eq_true_iff, agree_common_iff hc hl hr]
  · have further : (right.names.filter fun name => name ∉ left.names).zip (r.project kept)
        = (right.label r).filter fun e => e.1 ∉ left.names := by
      have names : ((right.label r).filter fun e => e.1 ∉ left.names).map Prod.fst
          = right.names.filter fun name => name ∉ left.names := by
        rw [← Schema.keys_label hr, Entries.keys, List.filter_map]
        rfl
      exact (List.zip_of_prod names (filterMap_common hc r hr).symm).symm
    rw [Schema.label_append (t := schema) (names_mergedAttributes left right) hl, further, Labels.merge,
      Schema.keys_label hl]

theorem layout_of_not_agree (h : ¬Labels.Agree left.labels right.labels) :
    ∃ fault, layout left right = .error fault := by
  simp only [Labels.Agree, not_forall] at h
  obtain ⟨name, d, e, hd, he, hn⟩ := h
  have hm := Entries.mem_of_lookup hd
  rw [Schema.labels_eq_map] at hm
  obtain ⟨a, ha, hp⟩ := List.mem_map.mp hm
  cases hp
  obtain ⟨fault, hf⟩ := commonColumns_of_not_agree 0 ha he hn
  exact ⟨fault, by rw [layout, hf]; rfl⟩

end Join

/-! ## Tables -/

namespace Table

/-- A table with the columns and the rows of a natural join of two others. -/
structure JoinedFrom (t u w : Table) : Prop where
  /-- The index is that of the rows, kept as the one of the left table. -/
  made : w = ofTuples w.name w.schema t.indexKind w.tuples
  key_eq : w.schema.key = t.schema.key
  labels_eq : w.schema.labels = Labels.merge t.schema.labels u.schema.labels
  conforms : ∀ row ∈ w.tuples, w.schema.check row = .ok ()
  label_eq : w.tuples.map w.schema.label
    = Labels.join (t.tuples.map t.schema.label) (u.tuples.map u.schema.label)

/-- Two tables that differ at most in their names. -/
structure SameContent (t t' : Table) : Prop where
  schema_eq : t.schema = t'.schema
  keyColumns_eq : t.schema.keyColumns = t'.schema.keyColumns
  indexKind_eq : t.indexKind = t'.indexKind
  tuples_eq : t.tuples = t'.tuples
  index_eq : t.index = t'.index
  find?_eq : ∀ key, t.find? key = t'.find? key

/-- A name is all that tables can differ in that are made of the same parts. -/
theorem sameContent_ofTuples (name name' : String) {schema schema' : Schema} (hs : schema = schema')
    {kind kind' : IndexKind} (hk : kind = kind') {rows rows' : List Tuple} (hr : rows = rows') :
    (ofTuples name schema kind rows).SameContent (ofTuples name' schema' kind' rows') := by
  subst hs hk hr
  exact ⟨rfl, rfl, rfl, rfl, rfl, fun _ => rfl⟩

theorem length_of_conforms {t : Table} (h : ∀ row ∈ t.tuples, t.schema.check row = .ok ()) :
    ∀ row ∈ t.tuples, row.length = t.schema.arity :=
  fun row hr => (Schema.check_eq_ok_iff.mp (h row hr)).length_eq

/-- The rows of a natural join of tables, labelled. -/
theorem map_label_nested {left right : Schema} {lay : Join.Layout} (h : Join.Merges left right lay)
    {lefts rights : List Tuple} (hl : ∀ l ∈ lefts, l.length = left.arity)
    (hr : ∀ r ∈ rights, r.length = right.arity) :
    (Join.nested (Join.agree lay.common) (fun l r => l ++ r.project lay.kept) lefts rights).map lay.schema.label
      = Labels.join (lefts.map left.label) (rights.map right.label) := by
  induction lefts with
  | nil => rfl
  | cons l lefts ih =>
    have hl' := hl l List.mem_cons_self
    have later := ih fun m hm => hl m (List.mem_cons_of_mem l hm)
    have agreeing : rights.filter (Join.agree lay.common l)
        = rights.filter fun r => Labels.Agree (left.label l) (right.label r) :=
      List.filter_congr fun r hm => h.agree_eq l r hl' (hr r hm)
    rw [Join.nested_cons, List.map_append, later, List.map_cons, Labels.join_cons, agreeing, List.filter_map, List.map_map, List.map_map]
    congr 1
    apply List.map_congr_left
    intro r hm
    exact h.label_eq l r hl' (hr r (List.mem_filter.mp hm).1)

variable {t u v : Table}

/-- Where the names that both tables have stand for the same domains, they have a natural join. -/
theorem naturalJoin_of_agree (ht : t.WellFormed) (hu : u.WellFormed)
    (h : Labels.Agree t.schema.labels u.schema.labels) (session : Session) :
    ∃ w session', t.naturalJoin u session = .ok (w, session') ∧ t.JoinedFrom u w := by
  obtain ⟨lay, hlay, hm⟩ := Join.layout_of_agree h
  obtain ⟨hp, hk, -⟩ := Join.layout_eq_ok hlay
  have lefts := Operator.fits_of_wellFormed ht
  have rights := Operator.fits_of_wellFormed hu
  let rows := Join.nested (Join.agree lay.common) (fun l r => l ++ r.project lay.kept) t.tuples u.tuples
  have result : Operator.naturalJoin.result [t, u] = .ok ⟨t, lay.schema, rows⟩ := by
    show (Rejection.lift (Join.layout t.schema u.schema) >>= _) = _
    rw [hlay]
    show (Rejection.defined (Join.natural? lay.common lay.kept t.tuples u.tuples) >>= _) = _
    rw [Join.natural?_eq_some lefts rights hp hk]
    rfl
  refine ⟨ofTuples (session.fresh t.name).1 lay.schema t.indexKind rows, (session.fresh t.name).2, ?_, rfl,
    hm.key_eq, hm.labels_eq, ?_, ?_⟩
  · rw [naturalJoin, Operator.eval, Operator.run_of_result_eq_ok result]
    rfl
  · intro row hm
    obtain ⟨l, hl, r, hr, rfl⟩ := Join.mem_nested hm
    exact Schema.check_eq_ok_iff.mpr (Join.fits_append_project hlay (lefts l hl) (rights r hr))
  · exact map_label_nested hm (length_of_conforms ht.conforms) (length_of_conforms hu.conforms)

theorem naturalJoin_of_not_agree (h : ¬Labels.Agree t.schema.labels u.schema.labels) (session : Session) :
    ∃ rejection, t.naturalJoin u session = .error rejection := by
  obtain ⟨fault, hf⟩ := Join.layout_of_not_agree h
  have result : Operator.naturalJoin.result [t, u] = .error (.fault fault) := by
    show (Rejection.lift (Join.layout t.schema u.schema) >>= _) = _
    rw [hf]
    rfl
  refine ⟨.fault fault, ?_⟩
  rw [naturalJoin, Operator.eval, Operator.run_of_result_eq_error result]
  rfl

theorem joinedFrom_of_eq_ok (ht : t.WellFormed) (hu : u.WellFormed) {session session' : Session} {w : Table}
    (h : t.naturalJoin u session = .ok (w, session')) :
    Labels.Agree t.schema.labels u.schema.labels ∧ t.JoinedFrom u w := by
  by_cases ha : Labels.Agree t.schema.labels u.schema.labels
  · obtain ⟨w', session'', he, hj⟩ := naturalJoin_of_agree ht hu ha session
    rw [h] at he
    cases he
    exact ⟨ha, hj⟩
  · obtain ⟨rejection, he⟩ := naturalJoin_of_not_agree ha session
    rw [h] at he
    cases he

theorem JoinedFrom.wellFormed {w : Table} (h : t.JoinedFrom u w) : w.WellFormed := by
  rw [h.made]
  exact .ofTuples _ _ h.conforms

/-- Joins of three tables have the same content whichever two of them are joined first. -/
theorem JoinedFrom.sameContent {tu uv w w' : Table} (htu : t.JoinedFrom u tu) (hw : tu.JoinedFrom v w)
    (huv : u.JoinedFrom v uv) (hw' : t.JoinedFrom uv w') : w.SameContent w' := by
  have schemas : w.schema = w'.schema := by
    apply Schema.eq_of_labels_key
    · rw [hw.labels_eq, htu.labels_eq, hw'.labels_eq, huv.labels_eq, Labels.merge_assoc]
    · rw [hw.key_eq, htu.key_eq, hw'.key_eq]
  have labels : w.tuples.map w.schema.label = w'.tuples.map w'.schema.label := by
    rw [hw.label_eq, htu.label_eq, hw'.label_eq, huv.label_eq, Labels.join_assoc]
  -- A row is known from its labels, since it has a value for each of the names.
  have unlabel : ∀ {z : Table}, (∀ row ∈ z.tuples, z.schema.check row = .ok ()) →
      (z.tuples.map z.schema.label).map (List.map Prod.snd) = z.tuples := by
    intro z hz
    rw [List.map_map]
    have same : z.tuples.map (List.map Prod.snd ∘ z.schema.label) = z.tuples.map id :=
      List.map_congr_left fun row hr => Schema.map_snd_label (length_of_conforms hz row hr)
    rw [same, List.map_id]
  have tuples : w.tuples = w'.tuples := by
    rw [← unlabel hw.conforms, labels, unlabel hw'.conforms]
  have kinds : tu.indexKind = t.indexKind := by
    rw [htu.made]
    apply indexKind_ofTuples
  rw [hw.made, hw'.made]
  exact sameContent_ofTuples _ _ schemas kinds tuples

section Three

variable (ht : t.WellFormed) (hu : u.WellFormed) (hv : v.WellFormed) {session : Session}
include ht hu hv

/-- The first two tables are joined, and the third is joined to the result. -/
theorem joinedFrom_left {w : Table × Session}
    (h : (t.naturalJoin u session >>= fun tu => tu.1.naturalJoin v tu.2) = .ok w) :
    (Labels.Agree t.schema.labels u.schema.labels
        ∧ Labels.Agree (Labels.merge t.schema.labels u.schema.labels) v.schema.labels)
      ∧ ∃ tu, t.JoinedFrom u tu ∧ tu.JoinedFrom v w.1 := by
  obtain ⟨⟨tu, next⟩, h₁, h₂⟩ := exists_of_bind_eq_ok h
  obtain ⟨a₁, j₁⟩ := joinedFrom_of_eq_ok ht hu h₁
  obtain ⟨a₂, j₂⟩ := joinedFrom_of_eq_ok j₁.wellFormed hv h₂
  rw [j₁.labels_eq] at a₂
  exact ⟨⟨a₁, a₂⟩, tu, j₁, j₂⟩

theorem exists_left_iff : (∃ w, (t.naturalJoin u session >>= fun tu => tu.1.naturalJoin v tu.2) = .ok w)
    ↔ Labels.Agree t.schema.labels u.schema.labels
      ∧ Labels.Agree (Labels.merge t.schema.labels u.schema.labels) v.schema.labels := by
  constructor
  · rintro ⟨w, h⟩
    exact (joinedFrom_left ht hu hv h).1
  · rintro ⟨a₁, a₂⟩
    obtain ⟨tu, next, h₁, j₁⟩ := naturalJoin_of_agree ht hu a₁ session
    obtain ⟨w, last, h₂, -⟩ := naturalJoin_of_agree j₁.wellFormed hv (j₁.labels_eq ▸ a₂) next
    rw [h₁]
    exact ⟨(w, last), h₂⟩

/-- The last two tables are joined, and the result is joined to the first. -/
theorem joinedFrom_right {w : Table × Session}
    (h : (u.naturalJoin v session >>= fun uv => t.naturalJoin uv.1 uv.2) = .ok w) :
    (Labels.Agree u.schema.labels v.schema.labels
        ∧ Labels.Agree t.schema.labels (Labels.merge u.schema.labels v.schema.labels))
      ∧ ∃ uv, u.JoinedFrom v uv ∧ t.JoinedFrom uv w.1 := by
  obtain ⟨⟨uv, next⟩, h₁, h₂⟩ := exists_of_bind_eq_ok h
  obtain ⟨a₁, j₁⟩ := joinedFrom_of_eq_ok hu hv h₁
  obtain ⟨a₂, j₂⟩ := joinedFrom_of_eq_ok ht j₁.wellFormed h₂
  rw [j₁.labels_eq] at a₂
  exact ⟨⟨a₁, a₂⟩, uv, j₁, j₂⟩

theorem exists_right_iff : (∃ w, (u.naturalJoin v session >>= fun uv => t.naturalJoin uv.1 uv.2) = .ok w)
    ↔ Labels.Agree u.schema.labels v.schema.labels
      ∧ Labels.Agree t.schema.labels (Labels.merge u.schema.labels v.schema.labels) := by
  constructor
  · rintro ⟨w, h⟩
    exact (joinedFrom_right ht hu hv h).1
  · rintro ⟨a₁, a₂⟩
    obtain ⟨uv, next, h₁, j₁⟩ := naturalJoin_of_agree hu hv a₁ session
    obtain ⟨w, last, h₂, -⟩ := naturalJoin_of_agree ht j₁.wellFormed (j₁.labels_eq ▸ a₂) next
    rw [h₁]
    exact ⟨(w, last), h₂⟩

end Three

/-- The natural join is associative: joined in either order, three tables are refused or give the same
columns, the same rows in the same order, and the same index. -/
theorem naturalJoin_assoc (ht : t.Reachable) (hu : u.Reachable) (hv : v.Reachable)
    (session session' : Session) :
    let left := t.naturalJoin u session >>= fun tu => tu.1.naturalJoin v tu.2
    let right := u.naturalJoin v session' >>= fun uv => t.naturalJoin uv.1 uv.2
    ((∃ w, left = .ok w) ↔ ∃ w, right = .ok w)
      ∧ ∀ w w', left = .ok w → right = .ok w' → w.1.SameContent w'.1 := by
  intro left right
  have ht := ht.wellFormed
  have hu := hu.wellFormed
  have hv := hv.wellFormed
  constructor
  · calc (∃ w, left = .ok w)
      _ ↔ _ := exists_left_iff ht hu hv
      _ ↔ _ := Labels.agree_merge_iff t.schema.labels u.schema.labels v.schema.labels
      _ ↔ ∃ w, right = .ok w := (exists_right_iff ht hu hv).symm
  · intro w w' h h'
    obtain ⟨-, tu, htu, hw⟩ := joinedFrom_left ht hu hv h
    obtain ⟨-, uv, huv, hw'⟩ := joinedFrom_right ht hu hv h'
    exact htu.sameContent hw huv hw'

/-! ### Sites on rivers

The rivers and the levels share a name that the sites lack. -/

/-- Which river a site is on. -/
def sites : Table :=
  ofTuples "sites" ⟨[⟨"river", .string⟩, ⟨"site", .string⟩], ["river", "site"],
      ⟨by decide, by decide, by decide, by decide, by decide⟩⟩ .hash
    [[.string "Indal", .string "Åre \"N\""], [.string "Indal", .string ""], [.string "Ljungan", .string ""]]

/-- Which levels a river has had. -/
def rivers : Table :=
  ofTuples "rivers" ⟨[⟨"level", .double⟩, ⟨"river", .string⟩], ["river"],
      ⟨by decide, by decide, by decide, by decide, by decide⟩⟩ .hash
    [[.double 0x7FF8000000000001, .string "Indal"], [.double 0x8000000000000000, .string "Indal"],
      [.double 0x8000000000000000, .string "Indal"], [.double 0, .string "Ljungan"]]

theorem naturalJoin_assoc_levels :
    let session : Session := ⟨"2", 0⟩
    let left := levels.naturalJoin sites session >>= fun tu => tu.1.naturalJoin rivers tu.2
    let right := sites.naturalJoin rivers session >>= fun uv => levels.naturalJoin uv.1 uv.2
    levels.Reachable ∧ sites.Reachable ∧ rivers.Reachable ∧ left.toOption.map (fun w => w.1.size) = some 3
      ∧ ((∃ w, left = .ok w) ↔ ∃ w, right = .ok w)
      ∧ ∀ w w', left = .ok w → right = .ok w' → w.1.SameContent w'.1 :=
  have hs : sites.Reachable := .ofTuples "sites" .hash (by decide)
  have hr : rivers.Reachable := .ofTuples "rivers" .hash (by decide)
  ⟨reachable_levels, hs, hr, by decide +kernel, naturalJoin_assoc reachable_levels hs hr _ _⟩

end Table

end Relata
