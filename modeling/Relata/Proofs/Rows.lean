import Relata.Proofs.Partial
import Relata.Schema.Basic
/-!
# Rows that fit a schema

A row passes the check of a schema exactly when its domains are those of the schema in order
(`check_eq_ok_iff`). Such a row has every column that the schema can name, so what is read at those
columns is there (`project?_eq_some`), and its domains are the ones the schema gives
(`Fits.map_domain_project`).
-/

namespace Relata

namespace Schema

variable {s : Schema} {row : Tuple}

/-- A row fits a schema: it has one value for each attribute, of the domain of that attribute. -/
def Fits (s : Schema) (row : Tuple) : Prop := row.map Value.domain = s.domains

theorem mismatch?_eq_none_iff (position : Nat) (values : List Value) (attributes : List Attribute)
    (h : values.length = attributes.length) :
    mismatch? position values attributes = none
      ↔ values.map Value.domain = attributes.map Attribute.domain := by
  induction values generalizing position attributes with
  | nil =>
    cases attributes with
    | nil => simp [mismatch?]
    | cons a attributes => cases h
  | cons v values ih =>
    cases attributes with
    | nil => cases h
    | cons a attributes =>
      rw [mismatch?, List.map_cons, List.map_cons, List.cons.injEq]
      by_cases hd : v.domain = a.domain
      · rw [if_pos hd, ih (position + 1) attributes (Nat.succ.inj h)]
        exact ⟨fun hr => ⟨hd, hr⟩, fun hr => hr.2⟩
      · rw [if_neg hd]
        exact ⟨fun hr => (nomatch hr), fun hr => absurd hr.1 hd⟩

theorem Fits.length_eq (h : s.Fits row) : row.length = s.arity := by
  have := congrArg List.length h
  simpa [domains, arity] using this

/-- The check accepts exactly the rows that fit. -/
theorem check_eq_ok_iff : s.check row = .ok () ↔ s.Fits row := by
  unfold check
  by_cases hl : row.length = s.arity
  · rw [if_neg (not_not_intro hl), Fits, domains, ← mismatch?_eq_none_iff 0 row s.attributes hl]
    cases mismatch? 0 row s.attributes with
    | none => exact ⟨fun _ => rfl, fun _ => rfl⟩
    | some fault => exact ⟨fun h => (nomatch h), fun h => (nomatch h)⟩
  · rw [if_pos hl]
    exact ⟨fun h => (nomatch h), fun h => absurd h.length_eq hl⟩

theorem Fits.of_domains_eq {t : Schema} (hd : t.domains = s.domains) (h : s.Fits row) : t.Fits row :=
  h.trans hd.symm

/-! ## Columns -/

theorem column?_lt {name : String} {c : Nat} (h : s.column? name = some c) : c < s.arity := by
  obtain ⟨hc, -, -⟩ := List.findIdx?_eq_some_iff_getElem.mp h
  exact hc

/-- Every column of the key is one of the schema. -/
theorem keyColumns_lt : ∀ c ∈ s.keyColumns, c < s.arity := by
  intro c hc
  obtain ⟨name, -, h⟩ := List.mem_filterMap.mp hc
  exact column?_lt h

theorem exists_column_of_mem {name : String} (h : name ∈ s.names) :
    ∃ c, s.column? name = some c ∧ s.names[c]? = some name := by
  obtain ⟨a, ha, hn⟩ := List.mem_map.mp h
  have found : (s.attributes.findIdx? fun a => a.name == name).isSome = true := by
    rw [List.findIdx?_isSome, List.any_eq_true]
    exact ⟨a, ha, beq_iff_eq.mpr hn⟩
  obtain ⟨c, hc⟩ := Option.isSome_iff_exists.mp found
  obtain ⟨hl, he, -⟩ := List.findIdx?_eq_some_iff_getElem.mp hc
  refine ⟨c, hc, ?_⟩
  rw [names, List.getElem?_map, List.getElem?_eq_getElem hl, Option.map_some, eq_of_beq he]

/-- At the columns of the key stand the names of the key, in its order. -/
theorem names_keyColumns (s : Schema) : (s.keyColumns.map fun c => s.names[c]?) = s.key.map some := by
  have all : ∀ key : List String, (∀ name ∈ key, name ∈ s.names) →
      ((key.filterMap s.column?).map fun c => s.names[c]?) = key.map some := by
    intro key
    induction key with
    | nil => exact fun _ => rfl
    | cons name key ih =>
      intro h
      obtain ⟨c, hc, hn⟩ := exists_column_of_mem (h name List.mem_cons_self)
      rw [List.filterMap_cons_some hc, List.map_cons, List.map_cons, hn,
        ih fun other ho => h other (List.mem_cons_of_mem name ho)]
  exact all s.key s.valid.key_subset

theorem column_eq_ok_iff {name : String} {c : Nat} :
    s.column name = .ok c ↔ s.column? name = some c := by
  rw [column]
  cases s.column? name with
  | none => exact ⟨fun h => (nomatch h), fun h => (nomatch h)⟩
  | some d => exact ⟨fun h => congrArg some (Except.ok.inj h), fun h => congrArg Except.ok (Option.some.inj h)⟩

/-- The columns found for names are those of the names, one each, in their order. -/
theorem columns_eq_ok {names : List String} {columns : List Nat} (h : s.columns names = .ok columns) :
    names.map s.column? = columns.map some := by
  induction names generalizing columns with
  | nil => cases h; rfl
  | cons name names ih =>
    rw [Schema.columns, List.mapM_cons] at h
    obtain ⟨c, hc, h⟩ := exists_of_bind_eq_ok h
    obtain ⟨rest, hr, h⟩ := exists_of_bind_eq_ok h
    cases h
    rw [List.map_cons, List.map_cons, column_eq_ok_iff.mp hc, ih hr]

theorem columns_lt {names : List String} {columns : List Nat} (h : s.columns names = .ok columns) :
    ∀ c ∈ columns, c < s.arity := by
  intro c hc
  have hm : some c ∈ names.map s.column? := columns_eq_ok h ▸ List.mem_map_of_mem hc
  obtain ⟨name, -, hn⟩ := List.mem_map.mp hm
  exact column?_lt hn

theorem length_columns {names : List String} {columns : List Nat} (h : s.columns names = .ok columns) :
    columns.length = names.length := by
  have := congrArg List.length (columns_eq_ok h)
  simpa using this.symm

theorem locate_lt {name : String} {c : Nat} {d : Domain} (h : s.locate name = .ok (c, d)) :
    c < s.arity := by
  rw [locate] at h
  cases hc : s.column? name with
  | none => rw [hc] at h; cases h
  | some e =>
    have he := column?_lt hc
    simp only [hc, List.getElem?_eq_getElem (show e < s.attributes.length from he)] at h
    cases h
    exact he

end Schema

/-! ## Reading columns -/

theorem Tuple.project_cons {row : Tuple} {c : Nat} {v : Value} (h : row[c]? = some v) (columns : List Nat) :
    row.project (c :: columns) = v :: row.project columns :=
  List.filterMap_cons_some (f := fun c => row[c]?) h

/-- A row that has the columns shows a value at each of them. -/
theorem Tuple.project?_eq_some {row : Tuple} {columns : List Nat} (h : ∀ c ∈ columns, c < row.length) :
    row.project? columns = some (row.project columns) := by
  induction columns with
  | nil => rfl
  | cons c columns ih =>
    have hc := List.getElem?_eq_getElem (h c List.mem_cons_self)
    have tail := ih fun d hd => h d (List.mem_cons_of_mem c hd)
    rw [project?] at tail ⊢
    rw [List.mapM_cons, hc, tail, project_cons hc]
    rfl

namespace Schema

variable {s : Schema} {row : Tuple}

theorem Fits.project?_eq_some (h : s.Fits row) {columns : List Nat} (hc : ∀ c ∈ columns, c < s.arity) :
    row.project? columns = some (row.project columns) :=
  Tuple.project?_eq_some fun c hm => h.length_eq ▸ hc c hm

/-- The key of a row that fits is all there. -/
theorem Fits.project?_keyColumns (h : s.Fits row) : row.project? s.keyColumns = some (s.keyOf row) :=
  h.project?_eq_some keyColumns_lt

theorem Fits.getElem? (h : s.Fits row) {c : Nat} (hc : c < s.arity) : ∃ v, row[c]? = some v :=
  ⟨_, List.getElem?_eq_getElem (h.length_eq ▸ hc)⟩

/-- What a row that fits shows at some columns has the domains of the attributes there. -/
theorem Fits.map_domain_project (h : s.Fits row) (columns : List Nat) :
    (row.project columns).map Value.domain
      = (columns.filterMap fun c => s.attributes[c]?).map Attribute.domain := by
  rw [Tuple.project, List.map_filterMap, List.map_filterMap]
  congr 1
  funext c
  rw [← List.getElem?_map, ← List.getElem?_map, h, domains]

/-! ## Schemas made from schemas -/

theorem attributes_of_build {attributes : List Attribute} {key : List String} {t : Schema}
    (h : build attributes key = .ok t) : t.attributes = attributes :=
  ((build_eq_ok_iff attributes key t).mp h).1

/-- A schema is built again from its attributes and its key. -/
theorem build_self (s : Schema) : build s.attributes s.key = .ok s :=
  (build_eq_ok_iff s.attributes s.key s).mpr ⟨rfl, rfl⟩

theorem pair_names_domains (s : Schema) : pair s.names s.domains = s.attributes := by
  rw [pair, names, domains, List.zipWith_map_left, List.zipWith_map_right, List.zipWith_self]
  exact List.map_id _

theorem pair_eq_map_zip (names : List String) (domains : List Domain) :
    pair names domains = (names.zip domains).map fun p => ⟨p.1, p.2⟩ := by
  rw [pair, List.zip_eq_zipWith, List.map_zipWith]

theorem map_name_pair {names : List String} {domains : List Domain} (h : names.length = domains.length) :
    (pair names domains).map Attribute.name = names := by
  rw [pair_eq_map_zip, List.map_map]
  exact List.map_fst_zip (Nat.le_of_eq h)

theorem map_domain_pair {names : List String} {domains : List Domain} (h : names.length = domains.length) :
    (pair names domains).map Attribute.domain = domains := by
  rw [pair_eq_map_zip, List.map_map]
  exact List.map_snd_zip (Nat.le_of_eq h.symm)

/-- A restriction takes the attributes at the columns of the names. -/
theorem restrict_eq_ok {names : List String} {t : Schema} (h : s.restrict names = .ok t) :
    ∃ columns, s.columns names = .ok columns
      ∧ t.attributes = columns.filterMap fun c => s.attributes[c]? := by
  rw [restrict] at h
  split at h
  · cases h
  · obtain ⟨columns, hc, h⟩ := exists_of_bind_eq_ok h
    exact ⟨columns, hc, attributes_of_build h⟩

end Schema

end Relata
