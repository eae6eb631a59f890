import Relata.Proofs.Projections
import Relata.Proofs.Pushdown
import Relata.Store.Image
/-!
# Schemas as records

What is kept of a schema is a record of its attributes, its key and the columns of the key as they were found
(`Schema.Record`), and nothing in a record says that it is valid. The columns are found while the key is checked
(`Record.make`): a record is made where a schema is built, and refused with the same fault (`make_eq_map_build`). So it
is in every way to make a schema (`Record.EveryWay`); a restriction may look at the columns in place of the names of the
key (`restrict_record`). The record of a schema is sound, and names and columns are found from each other
(`made_sound_and_looksUp`).
-/

namespace Relata.Schema

/-! ## Records -/

/-- What is kept of a schema: its attributes, its key, and the columns of the key as they were found. -/
structure Record where
  attributes : List Attribute
  key : List String
  keyColumns : List Nat
  deriving DecidableEq

def record (s : Schema) : Record := ⟨s.attributes, s.key, s.keyColumns⟩

namespace Record

/-- The attributes and the key of a record make a schema, and at each name of the key stands its only column. -/
structure Sound (r : Record) : Prop where
  valid : Valid r.attributes r.key
  length_eq : r.keyColumns.length = r.key.length
  column_eq : ∀ {i : Nat} {name : String} {c : Nat}, r.key[i]? = some name → r.keyColumns[i]? = some c →
    ∀ d, (r.attributes.map Attribute.name)[d]? = some name ↔ d = c

/-- The column of a name among attributes. -/
def columnOf? (attributes : List Attribute) (name : String) : Option Nat :=
  attributes.findIdx? fun a => a.name == name

/-- The columns that are found for the names of a key, after those that have been found. A name that is no attribute's
is refused, and so is one whose column has been found before. -/
def findColumns (attributes : List Attribute) : (found : List Nat) → List String → Except Fault (List Nat)
  | found, [] => .ok found
  | found, name :: rest =>
    match columnOf? attributes name with
    | none => .error (.unknownAttribute name)
    | some c =>
      if c ∈ found then .error (.schema (.repeatedKey name)) else findColumns attributes (found ++ [c]) rest

/-- The record of attributes and a key, or their first fault. -/
def make (attributes : List Attribute) (key : List String) : Except Fault Record :=
  if attributes = [] then .error (.schema .noAttributes)
  else if key = [] then .error (.schema .noKey)
  else match repeated? [] (attributes.map Attribute.name) with
    | some name => .error (.schema (.duplicateAttribute name))
    | none => (findColumns attributes [] key).map fun columns => ⟨attributes, key, columns⟩

/-! ## Finding the columns of a key -/

section Find

variable {attributes : List Attribute} {name other : String} {c : Nat}

theorem name_of_columnOf? (h : columnOf? attributes name = some c) :
    (attributes.map Attribute.name)[c]? = some name := by
  obtain ⟨hc, he, -⟩ := List.findIdx?_eq_some_iff_getElem.mp h
  rw [List.getElem?_map, List.getElem?_eq_getElem hc, Option.map_some, eq_of_beq he]

theorem columnOf?_eq_none_iff : columnOf? attributes name = none ↔ name ∉ attributes.map Attribute.name := by
  rw [columnOf?, List.findIdx?_eq_none_iff, List.mem_map]
  simp

/-- Names have columns of their own. -/
theorem columnOf?_inj (h : columnOf? attributes name = some c) (ho : columnOf? attributes other = some c) :
    name = other :=
  Option.some.inj ((name_of_columnOf? h).symm.trans (name_of_columnOf? ho))

/-- A name has been seen exactly where its column has been found, so the columns are found while the key is checked. -/
theorem findColumns_eq {found : List Nat} {seen : List String}
    (h : ∀ {name c}, columnOf? attributes name = some c → (c ∈ found ↔ name ∈ seen)) (key : List String) :
    findColumns attributes found key = match keyFault? (attributes.map Attribute.name) seen key with
      | some fault => .error fault
      | none => .ok (found ++ key.filterMap (columnOf? attributes)) := by
  induction key generalizing found seen with
  | nil => simp [findColumns, keyFault?]
  | cons name key ih =>
    rw [findColumns, keyFault?]
    cases hc : columnOf? attributes name with
    | none =>
      rw [if_pos (columnOf?_eq_none_iff.mp hc)]
    | some c =>
      have there : name ∈ attributes.map Attribute.name := List.mem_of_getElem? (name_of_columnOf? hc)
      rw [if_neg (not_not_intro there)]
      by_cases hs : name ∈ seen
      · simp [hs, (h hc).mpr hs]
      · have later : ∀ {other d}, columnOf? attributes other = some d → (d ∈ found ++ [c] ↔ other ∈ name :: seen) := by
          intro other d hd
          rw [List.mem_append, List.mem_singleton, List.mem_cons, h hd, or_comm]
          apply or_congr_left
          constructor
          · rintro rfl
            exact columnOf?_inj hd hc
          · rintro rfl
            exact Option.some.inj (hd.symm.trans hc)
        have fresh : c ∉ found := fun hf => hs ((h hc).mp hf)
        simp only [hs, fresh, if_false, ih later, List.filterMap_cons_some hc, List.append_assoc, List.singleton_append]

end Find

/-- The loop that finds the columns meets the faults of a schema in their order. -/
theorem make_eq (attributes : List Attribute) (key : List String) :
    make attributes key = match fault? attributes key with
      | some fault => .error fault
      | none => .ok ⟨attributes, key, key.filterMap (columnOf? attributes)⟩ := by
  rw [make, fault?]
  by_cases ha : attributes = []
  · rw [if_pos ha, if_pos ha]
  by_cases hk : key = []
  · rw [if_neg ha, if_pos hk, if_neg ha, if_pos hk]
  rw [if_neg ha, if_neg hk, if_neg ha, if_neg hk]
  cases repeated? [] (attributes.map Attribute.name) with
  | some name => rfl
  | none =>
    have unseen : ∀ {name c}, columnOf? attributes name = some c → (c ∈ ([] : List Nat) ↔ name ∈ ([] : List String)) := by
      simp
    simp only [findColumns_eq unseen key]
    cases keyFault? (attributes.map Attribute.name) [] key <;> rfl

/-- A record is made where a schema is built, and refused with the same fault. -/
theorem make_eq_map_build (attributes : List Attribute) (key : List String) :
    make attributes key = (build attributes key).map record := by
  rw [make_eq]
  cases hb : build attributes key with
  | error fault => rw [(build_eq_error_iff attributes key fault).mp hb]; rfl
  | ok s =>
    obtain ⟨rfl, rfl⟩ := (build_eq_ok_iff attributes key s).mp hb
    rw [(fault?_eq_none_iff _ _).mpr s.valid]
    rfl

/-! ## Sound records -/

/-- The record of every schema is sound. -/
theorem sound_record (s : Schema) : s.record.Sound where
  valid := s.valid
  length_eq := by
    have := congrArg List.length s.names_keyColumns
    rwa [List.length_map, List.length_map] at this
  column_eq := by
    intro i name c hn hc d
    have there : s.names[c]? = some name := by
      have at_i : (s.keyColumns.map fun c => s.names[c]?)[i]? = (s.key.map some)[i]? := by rw [names_keyColumns]
      rw [List.getElem?_map, List.getElem?_map, show s.keyColumns[i]? = some c from hc,
        show s.key[i]? = some name from hn] at at_i
      exact Option.some.inj at_i
    show s.names[d]? = some name ↔ d = c
    constructor
    · intro hd
      exact Option.some.inj ((column?_eq_some_iff.mpr hd).symm.trans (column?_eq_some_iff.mpr there))
    · rintro rfl
      exact there

/-- The attributes and the key leave no choice of the columns. -/
theorem Sound.eq_of_attributes_key {r r' : Record} (h : r.Sound) (h' : r'.Sound) (ha : r.attributes = r'.attributes)
    (hk : r.key = r'.key) : r = r' := by
  obtain ⟨attributes, key, columns⟩ := r
  obtain ⟨attributes', key', columns'⟩ := r'
  obtain rfl : attributes = attributes' := ha
  obtain rfl : key = key' := hk
  have same : columns = columns' := by
    apply List.ext_getElem (h.length_eq.trans h'.length_eq.symm)
    intro i hi hi'
    have hk : i < key.length := Nat.lt_of_lt_of_eq hi h.length_eq
    have hn : key[i]? = some key[i] := List.getElem?_eq_getElem hk
    have there := (h.column_eq hn (List.getElem?_eq_getElem hi) columns[i]).mpr rfl
    exact (h'.column_eq hn (List.getElem?_eq_getElem hi') columns[i]).mp there
  rw [same]

/-- What is made of attributes and a key is the sound record of them, and nothing where there is none. -/
theorem make_eq_ok_iff {attributes : List Attribute} {key : List String} {r : Record} :
    make attributes key = .ok r ↔ r.attributes = attributes ∧ r.key = key ∧ r.Sound := by
  rw [make_eq_map_build, map_eq_ok_iff]
  constructor
  · rintro ⟨s, hs, rfl⟩
    obtain ⟨ha, hk⟩ := (build_eq_ok_iff attributes key s).mp hs
    exact ⟨ha, hk, sound_record s⟩
  · rintro ⟨rfl, rfl, sound⟩
    let s : Schema := ⟨r.attributes, r.key, sound.valid⟩
    exact ⟨s, (build_eq_ok_iff _ _ s).mpr ⟨rfl, rfl⟩, (sound_record s).eq_of_attributes_key sound rfl rfl⟩

/-! ## Restricting a record -/

/-- The columns of names, as they stand in a record. -/
def columns (r : Record) (names : List String) : Except Fault (List Nat) :=
  names.mapM fun name =>
    match columnOf? r.attributes name with
    | some c => .ok c
    | none => .error (.unknownAttribute name)

/-- The record with the named attributes in the given order. Whether they cover the key is seen from the columns that
were found for it when the record was made. -/
def restrict (r : Record) (names : List String) : Except Fault Record :=
  if names = [] then .error (.schema .emptyProjection)
  else do
    let columns ← r.columns names
    let attributes := columns.filterMap fun c => r.attributes[c]?
    make attributes (if r.keyColumns.all columns.contains then r.key else attributes.map Attribute.name)

/-- Columns that are found for names cover those of the key exactly where the names cover the key. -/
theorem all_keyColumns {s : Schema} {names : List String} {columns : List Nat} (h : s.columns names = .ok columns) :
    s.keyColumns.all columns.contains = s.key.all names.contains := by
  have found : ∀ {name c}, s.column? name = some c → (c ∈ columns ↔ name ∈ names) := by
    intro name c hc
    have mem : c ∈ columns ↔ ∃ other ∈ names, s.column? other = some c := by
      rw [← List.mem_map, columns_eq_ok h, List.mem_map]
      simp
    rw [mem]
    constructor
    · rintro ⟨other, ho, hd⟩
      rwa [columnOf?_inj hc hd]
    · intro hn
      exact ⟨name, hn, hc⟩
  rw [Bool.eq_iff_iff, List.all_eq_true, List.all_eq_true]
  simp only [List.contains_iff_mem]
  constructor
  · intro covers name hn
    obtain ⟨c, hc, -⟩ := exists_column_of_mem (s.valid.key_subset name hn)
    exact (found hc).mp (covers c (List.mem_filterMap.mpr ⟨name, hn, hc⟩))
  · intro covers c hm
    obtain ⟨name, hn, hc⟩ := List.mem_filterMap.mp hm
    exact (found hc).mpr (covers name hn)

/-- Restricting a record is restricting its schema. -/
theorem restrict_record (s : Schema) (names : List String) :
    s.record.restrict names = (s.restrict names).map record := by
  rw [restrict, Schema.restrict]
  by_cases hn : names = []
  · rw [if_pos hn, if_pos hn]
    rfl
  rw [if_neg hn, if_neg hn]
  show (s.columns names >>= _) = _
  cases hc : s.columns names with
  | error fault => rfl
  | ok columns =>
    show make (columns.filterMap fun c => s.attributes[c]?) (if s.keyColumns.all columns.contains then s.key
      else (columns.filterMap fun c => s.attributes[c]?).map Attribute.name) = _
    rw [make_eq_map_build, all_keyColumns hc, (attributes_at_columns hc).1]
    rfl

/-! ## Records that are spelled -/

/-- The record that lists of names and domains spell, with a key. -/
def ofLists (names : List String) (domains : List Domain) (key : List String) : Except Fault Record :=
  if names.length ≠ domains.length then .error (.schema (.unevenLists names.length domains.length))
  else make (pair names domains) key

/-- The record that words separated by white space spell. -/
def ofWords (attributes domains key : String) : Except Fault Record := do
  let domains ← (Text.words domains).mapM Domain.parse
  ofLists (Text.words attributes) domains (Text.words key)

def ofJson? (v : Json) : Option Record := do
  let fields ← v.fields? ["attributes", "domains", "key"]
  match fields with
  | [names, domains, key] =>
    let names ← names.strings?
    let domains ← domainsOfJson? domains
    let key ← key.strings?
    (ofLists names domains key).toOption
  | _ => none

/-- Whether a row has a value of the right domain for each attribute. -/
def check (r : Record) (values : List Value) : Except Fault Unit :=
  if values.length ≠ r.attributes.length then .error (.arity r.attributes.length values.length)
  else match mismatch? 0 values r.attributes with
    | some fault => .error fault
    | none => .ok ()

/-- The record that the image of a table spells. The tuples of the image must fit it. -/
def ofImage (image : TableImage) : Except StoreFault Record :=
  if image.attributes.length ≠ image.domains.length then
    .error (.format (.unevenLists image.attributes.length image.domains.length))
  else do
    let r ← StoreFault.lift (make (pair image.attributes image.domains) image.key)
    StoreFault.lift (image.tuples.forM r.check)
    return r

theorem ofLists_eq (names : List String) (domains : List Domain) (key : List String) :
    ofLists names domains key = (Schema.ofLists names domains key).map record := by
  rw [ofLists, Schema.ofLists]
  split
  · rfl
  · apply make_eq_map_build

theorem ofWords_eq (attributes domains key : String) :
    ofWords attributes domains key = (Schema.ofWords attributes domains key).map record := by
  rw [ofWords, Schema.ofWords]
  cases (Text.words domains).mapM Domain.parse with
  | error fault => rfl
  | ok domains => exact ofLists_eq _ domains _

theorem ofJson?_eq (v : Json) : ofJson? v = (Schema.ofJson? v).map record := by
  rw [ofJson?, Schema.ofJson?]
  cases v.fields? ["attributes", "domains", "key"] with
  | none => rfl
  | some fields =>
    rcases fields with _ | ⟨names, _ | ⟨domains, _ | ⟨key, _ | ⟨_, _⟩⟩⟩⟩
    · rfl
    · rfl
    · rfl
    · simp only [Option.bind_eq_bind, Option.bind_some, Option.map_bind, Function.comp_def, ofLists_eq, toOption_map]
    · rfl

theorem ofImage_eq (image : TableImage) : ofImage image = image.toTable.map fun t => t.schema.record := by
  rw [ofImage, TableImage.toTable]
  split
  · rfl
  · rw [make_eq_map_build]
    cases build (pair image.attributes image.domains) image.key with
    | error fault => rfl
    | ok s =>
      show (StoreFault.lift (image.tuples.forM s.check) >>= fun _ => Except.ok s.record)
        = Except.map _ (StoreFault.lift (image.tuples.forM s.check) >>= fun _ => Except.ok _)
      cases StoreFault.lift (image.tuples.forM s.check) <;> rfl

/-! ## Records of joins -/

/-- The record of a join: the left attributes, the right ones renamed where they collide, and the left key. -/
def join (left right : Record) (suffix : String) : Except Fault Record :=
  make (left.attributes ++ Join.renamed suffix (left.attributes.map Attribute.name) right.attributes) left.key

/-- The columns that both sides name, from a position on, in left order. -/
def commonColumns (right : Record) : (position : Nat) → List Attribute → Except Fault (List (Nat × Nat))
  | _, [] => .ok []
  | position, a :: rest =>
    match columnOf? right.attributes a.name with
    | none => commonColumns right (position + 1) rest
    | some c =>
      match right.attributes[c]? with
      | none => commonColumns right (position + 1) rest
      | some b => do
        Value.checkDomains a.domain b.domain
        let more ← commonColumns right (position + 1) rest
        return (position, c) :: more

/-- The record of a natural join: the left attributes, the right ones whose columns are not common, and the left
key. -/
def naturalJoin (left right : Record) : Except Fault Record := do
  let common ← right.commonColumns 0 left.attributes
  let kept := (List.range right.attributes.length).filter fun c => !(common.any fun p => p.2 == c)
  make (left.attributes ++ kept.filterMap fun c => right.attributes[c]?) left.key

theorem commonColumns_record (right : Schema) (position : Nat) (attributes : List Attribute) :
    right.record.commonColumns position attributes = Join.commonColumns right position attributes := by
  induction attributes generalizing position with
  | nil => rfl
  | cons a rest ih =>
    rw [commonColumns, Join.commonColumns, ih]
    rfl

theorem naturalJoin_record (left right : Schema) :
    left.record.naturalJoin right.record = (Join.layout left right).map fun lay => lay.schema.record := by
  rw [naturalJoin, Join.layout, commonColumns_record]
  show (Join.commonColumns right 0 left.attributes >>= _) = _
  cases Join.commonColumns right 0 left.attributes with
  | error fault => rfl
  | ok common =>
    let kept := (List.range right.arity).filter fun c => !(common.any fun p => p.2 == c)
    let attributes := left.attributes ++ kept.filterMap fun c => right.attributes[c]?
    show make attributes left.key
      = (build attributes left.key >>= fun s => .ok (Join.Layout.mk common kept s)).map fun lay => lay.schema.record
    rw [make_eq_map_build]
    cases build attributes left.key <;> rfl

/-- In every way to make a schema its record is made by the loop over the key: of attributes and a key, of words, of a
JSON value or of the image of a table, by restricting a schema, and by joining two. -/
structure EveryWay : Prop where
  make_eq : ∀ attributes key, make attributes key = (build attributes key).map record
  ofWords_eq : ∀ attributes domains key, ofWords attributes domains key = (Schema.ofWords attributes domains key).map record
  ofJson?_eq : ∀ v, ofJson? v = (Schema.ofJson? v).map record
  ofImage_eq : ∀ image, ofImage image = image.toTable.map fun t => t.schema.record
  restrict_eq : ∀ (s : Schema) names, s.record.restrict names = (s.restrict names).map record
  join_eq : ∀ (left right : Schema) suffix,
    left.record.join right.record suffix = (Join.schema left right suffix).map record
  naturalJoin_eq : ∀ left right : Schema,
    left.record.naturalJoin right.record = (Join.layout left right).map fun lay => lay.schema.record

theorem everyWay : EveryWay where
  make_eq := make_eq_map_build
  ofWords_eq := ofWords_eq
  ofJson?_eq := ofJson?_eq
  ofImage_eq := ofImage_eq
  restrict_eq := restrict_record
  join_eq _ _ _ := make_eq_map_build _ _
  naturalJoin_eq := naturalJoin_record

end Record

/-! ## Names and columns -/

variable {s : Schema} {names : List String} {columns : List Nat} {name : String} {c : Nat} {fault : Fault}

theorem column?_eq_none_iff : s.column? name = none ↔ name ∉ s.names := Record.columnOf?_eq_none_iff

theorem column_eq_error_iff : s.column name = .error fault ↔ name ∉ s.names ∧ fault = .unknownAttribute name := by
  rw [column, ← column?_eq_none_iff]
  cases s.column? name with
  | none =>
    show Except.error _ = _ ↔ _
    rw [Except.error.injEq, eq_comm, and_iff_right rfl]
  | some c => simp only [reduceCtorEq, false_and]

theorem locate_eq_error_iff : s.locate name = .error fault ↔ name ∉ s.names ∧ fault = .unknownAttribute name := by
  rw [locate, ← column?_eq_none_iff]
  cases hc : s.column? name with
  | none =>
    show Except.error _ = _ ↔ _
    rw [Except.error.injEq, eq_comm, and_iff_right rfl]
  | some c =>
    have hl : c < s.attributes.length := column?_lt hc
    simp only [List.getElem?_eq_getElem hl, reduceCtorEq, false_and]

theorem columns_cons (name : String) (names : List String) :
    s.columns (name :: names) = s.column name >>= fun c => s.columns names >>= fun rest => .ok (c :: rest) := by
  rw [Schema.columns, List.mapM_cons]
  rfl

/-- The columns of names are those where the names stand. -/
theorem columns_eq_ok_iff : s.columns names = .ok columns ↔ (columns.map fun c => s.names[c]?) = names.map some := by
  induction names generalizing columns with
  | nil =>
    rw [List.map_nil, List.map_eq_nil_iff]
    constructor
    · intro h
      cases h
      rfl
    · rintro rfl
      rfl
  | cons name names ih =>
    rw [columns_cons, bind_eq_ok_iff]
    constructor
    · rintro ⟨c, hc, h⟩
      obtain ⟨rest, hr, h⟩ := exists_of_bind_eq_ok h
      cases h
      rw [List.map_cons, List.map_cons, column?_eq_some_iff.mp (column_eq_ok_iff.mp hc), ih.mp hr]
    · intro h
      cases columns with
      | nil => cases h
      | cons c rest =>
        obtain ⟨hc, hr⟩ := List.cons.inj h
        refine ⟨c, column_eq_ok_iff.mpr (column?_eq_some_iff.mpr hc), ?_⟩
        rw [ih.mpr hr]
        rfl

/-- The fault of names is their first that is no attribute's. -/
theorem columns_eq_error_iff : s.columns names = .error fault ↔ ∃ known name later, names = known ++ name :: later
    ∧ (∀ other ∈ known, other ∈ s.names) ∧ name ∉ s.names ∧ fault = .unknownAttribute name := by
  constructor
  · intro h
    induction names with
    | nil => cases h
    | cons name names ih =>
      rw [columns_cons, bind_eq_error_iff] at h
      rcases h with first | ⟨c, hc, rest⟩
      · obtain ⟨unknown, same⟩ := column_eq_error_iff.mp first
        exact ⟨[], name, names, rfl, fun _ hm => (nomatch hm), unknown, same⟩
      · rcases bind_eq_error_iff.mp rest with rest | ⟨_, -, ⟨⟩⟩
        obtain ⟨known, other, later, rfl, hk, unknown, same⟩ := ih rest
        have there : name ∈ s.names := List.mem_of_getElem? (column?_eq_some_iff.mp (column_eq_ok_iff.mp hc))
        exact ⟨name :: known, other, later, rfl, List.forall_mem_cons.mpr ⟨there, hk⟩, unknown, same⟩
  · rintro ⟨known, name, later, rfl, hk, unknown, rfl⟩
    induction known with
    | nil => rw [List.nil_append, columns_cons, column_eq_error_iff.mpr ⟨unknown, rfl⟩]; rfl
    | cons first known ih =>
      obtain ⟨there, hk⟩ := List.forall_mem_cons.mp hk
      obtain ⟨c, hc, -⟩ := exists_column_of_mem there
      rw [List.cons_append, columns_cons, column_eq_ok_iff.mpr hc, ih hk]
      rfl

/-- Names and columns are found from each other: a name has the column where it stands and no other, so do several
names, and names that are no attribute's are at fault, the first of them where there are several. -/
structure LooksUp (s : Schema) : Prop where
  column?_iff : ∀ {name : String} {c : Nat}, s.column? name = some c ↔ s.names[c]? = some name
  columns_iff : ∀ {names : List String} {columns : List Nat},
    s.columns names = .ok columns ↔ (columns.map fun c => s.names[c]?) = names.map some
  columns_fault_iff : ∀ {names : List String} {fault : Fault}, s.columns names = .error fault ↔
    ∃ known name later, names = known ++ name :: later ∧ (∀ other ∈ known, other ∈ s.names) ∧ name ∉ s.names
      ∧ fault = .unknownAttribute name
  locate_iff : ∀ {name : String} {c : Nat} {d : Domain},
    s.locate name = .ok (c, d) ↔ s.attributes[c]? = some ⟨name, d⟩
  locate_fault_iff : ∀ {name : String} {fault : Fault},
    s.locate name = .error fault ↔ name ∉ s.names ∧ fault = .unknownAttribute name

theorem looksUp (s : Schema) : s.LooksUp where
  column?_iff := column?_eq_some_iff
  columns_iff := columns_eq_ok_iff
  columns_fault_iff := columns_eq_error_iff
  locate_iff := locate_eq_ok_iff
  locate_fault_iff := locate_eq_error_iff

/-- A schema is built exactly of attributes and a key that are valid. Its record is what the loop over the key makes, the
only sound one of them, in whatever way the schema is made, and with the same faults. Of every schema the record is
sound, and names and columns are found from each other. -/
theorem made_sound_and_looksUp :
    (∀ attributes key, (∃ s, build attributes key = .ok s) ↔ attributes ≠ [] ∧ key ≠ []
      ∧ (attributes.map Attribute.name).Nodup ∧ (∀ name ∈ key, name ∈ attributes.map Attribute.name) ∧ key.Nodup)
    ∧ (∀ attributes key r, Record.make attributes key = .ok r ↔ r.attributes = attributes ∧ r.key = key ∧ r.Sound)
    ∧ Record.EveryWay
    ∧ ∀ s : Schema, s.record.Sound ∧ s.LooksUp := by
  refine ⟨?_, fun _ _ _ => Record.make_eq_ok_iff, Record.everyWay, ?_⟩
  · intro attributes key
    constructor
    · rintro ⟨s, hs⟩
      obtain ⟨rfl, rfl⟩ := (build_eq_ok_iff attributes key s).mp hs
      have v := s.valid
      exact ⟨v.attributes_ne_nil, v.key_ne_nil, v.names_nodup, v.key_subset, v.key_nodup⟩
    · rintro ⟨attributes_ne_nil, key_ne_nil, names_nodup, key_subset, key_nodup⟩
      have v : Valid attributes key := ⟨attributes_ne_nil, key_ne_nil, names_nodup, key_nodup, key_subset⟩
      exact ⟨⟨attributes, key, v⟩, (build_eq_ok_iff ..).mpr ⟨rfl, rfl⟩⟩
  · intro s
    exact ⟨Record.sound_record s, s.looksUp⟩

open Table in
/-- The sites with their columns exchanged keep their key, whose columns are now in the other order. -/
theorem made_sound_and_looksUp_sites :
    let r : Record := ⟨[⟨"site", .string⟩, ⟨"river", .string⟩], ["river", "site"], [1, 0]⟩
    Record.make r.attributes r.key = .ok r ∧ r.Sound ∧ sites.schema.record.restrict ["site", "river"] = .ok r
      ∧ ∃ t, sites.schema.restrict ["site", "river"] = .ok t ∧ t.record = r ∧ t.record.Sound ∧ t.LooksUp := by
  intro r
  obtain ⟨-, made, ways, sound⟩ := made_sound_and_looksUp
  have hm : Record.make r.attributes r.key = .ok r := by decide
  have hr : sites.schema.record.restrict ["site", "river"] = .ok r := by decide
  obtain ⟨t, ht, same⟩ := map_eq_ok_iff.mp ((ways.restrict_eq _ _).symm.trans hr)
  exact ⟨hm, ((made _ _ r).mp hm).2.2, hr, t, ht, same, sound t⟩

end Relata.Schema
