import Relata.Proofs.Decoding
import Relata.Proofs.SchemaRecords
/-!
# Spellings of schemas and tables

A schema is spelled by the lists of its names, domains and key (`Schema.Spec`), by three texts of words, and in the
image of a table. From each it is made again. A specification makes a schema only if it is the one of that schema
(`Spec.toSchema_eq_ok_iff`), and so is the image that makes a table (`TableImage.of_toTable_eq_ok`): nothing in them is
left out, changed or put in another order.
-/

namespace Relata

/-! ## Words -/

namespace Text

/-- A text that stands as it is among words separated by white space. -/
def IsWord (w : String) : Prop := w ≠ "" ∧ ∀ c ∈ w.toList, isBlank c = false

instance (w : String) : Decidable (IsWord w) :=
  decidable_of_iff (w ≠ "" ∧ w.toList.all (fun c => !isBlank c) = true) (by simp [IsWord])

/-- Pieces without white space are what is between the spaces that join them. -/
theorem splitOnP_intercalate {pieces : List (List Char)} (hn : pieces ≠ [])
    (h : ∀ piece ∈ pieces, ∀ c ∈ piece, isBlank c = false) : ([' '].intercalate pieces).splitOnP isBlank = pieces := by
  induction pieces with
  | nil => exact absurd rfl hn
  | cons piece pieces ih =>
    obtain ⟨first, later⟩ := List.forall_mem_cons.mp h
    cases pieces with
    | nil =>
      rw [List.intercalate_singleton]
      exact List.splitOnP_eq_singleton first
    | cons next pieces =>
      have joined : [' '].intercalate (piece :: next :: pieces) = piece ++ ' ' :: [' '].intercalate (next :: pieces) := by
        rw [List.intercalate_cons_cons, List.append_assoc, List.singleton_append]
      rw [joined, List.splitOnP_append_cons_of_forall_mem first ' ' rfl, ih (by simp) later]

/-- Words joined with spaces are read back in their order. -/
theorem words_joined {ws : List String} (h : ∀ w ∈ ws, IsWord w) : words (joined " " ws) = ws := by
  have same : String.ofList ∘ String.toList = id := by
    funext s
    exact String.ofList_toList
  rw [words, joined, String.toList_ofList]
  show ((([' '].intercalate (ws.map String.toList)).splitOnP isBlank).filter _).map _ = _
  by_cases hn : ws = []
  · subst hn
    rfl
  · have pieces : ∀ piece ∈ ws.map String.toList, ∀ c ∈ piece, isBlank c = false := by
      intro piece hp
      obtain ⟨w, hw, rfl⟩ := List.mem_map.mp hp
      exact (h w hw).2
    have kept : (ws.map String.toList).filter (fun w => !w.isEmpty) = ws.map String.toList := by
      rw [List.filter_eq_self]
      intro piece hp
      obtain ⟨w, hw, rfl⟩ := List.mem_map.mp hp
      simpa using (h w hw).1
    rw [splitOnP_intercalate (by simpa using hn) pieces, kept, List.map_map, same, List.map_id]

end Text

theorem Domain.parse_name (d : Domain) : Domain.parse d.name = .ok d := by
  cases d <;> rfl

theorem Domain.mapM_parse_names (l : List Domain) : (l.map Domain.name).mapM Domain.parse = .ok l := by
  induction l with
  | nil => rfl
  | cons d l ih =>
    rw [List.map_cons, List.mapM_cons, Domain.parse_name, ih]
    rfl

namespace Schema

variable {s : Schema}

/-! ## Specifications -/

/-- A schema spelled out. -/
structure Spec where
  attributes : List String
  domains : List Domain
  key : List String
  deriving DecidableEq

namespace Spec

def ofSchema (s : Schema) : Spec := ⟨s.names, s.domains, s.key⟩

/-- The schema that is spelled. -/
def toSchema (spec : Spec) : Except Fault Schema := ofLists spec.attributes spec.domains spec.key

def toJson (spec : Spec) : Json :=
  Json.record [("attributes", Json.ofStrings spec.attributes), ("domains", .array (spec.domains.map Domain.toJson)),
    ("key", Json.ofStrings spec.key)]

def ofJson? (v : Json) : Option Spec := do
  let fields ← v.fields? ["attributes", "domains", "key"]
  match fields with
  | [attributes, domains, key] => return ⟨← attributes.strings?, ← domainsOfJson? domains, ← key.strings?⟩
  | _ => none

variable {spec : Spec}

/-- A specification makes a schema only if it is the specification of that schema. -/
theorem toSchema_eq_ok_iff : spec.toSchema = .ok s ↔ ofSchema s = spec := by
  obtain ⟨attributes, domains, key⟩ := spec
  rw [toSchema, ofLists, ofSchema, mk.injEq]
  by_cases hl : attributes.length = domains.length
  · rw [if_neg (not_not_intro hl), build_eq_ok_iff]
    constructor
    · rintro ⟨ha, hk⟩
      exact ⟨by rw [names, ha, map_name_pair hl], by rw [Schema.domains, ha, map_domain_pair hl], hk⟩
    · rintro ⟨rfl, rfl, hk⟩
      exact ⟨(pair_names_domains s).symm, hk⟩
  · rw [if_pos hl]
    constructor
    · intro h
      cases h
    · rintro ⟨rfl, rfl, -⟩
      exact absurd (by rw [names, Schema.domains, List.length_map, List.length_map]) hl

theorem toSchema_ofSchema (s : Schema) : (ofSchema s).toSchema = .ok s := toSchema_eq_ok_iff.mpr rfl

/-- A schema is read from JSON by way of its specification. -/
theorem ofJson?_eq_bind (v : Json) : Schema.ofJson? v = (ofJson? v).bind fun spec => spec.toSchema.toOption := by
  rw [Schema.ofJson?, ofJson?]
  cases v.fields? ["attributes", "domains", "key"] with
  | none => rfl
  | some fields =>
    rcases fields with _ | ⟨attributes, _ | ⟨domains, _ | ⟨key, _ | ⟨_, _⟩⟩⟩⟩
    · rfl
    · rfl
    · rfl
    · show (attributes.strings?.bind fun names => (domainsOfJson? domains).bind fun domains => key.strings?.bind
          fun key => (ofLists names domains key).toOption)
        = (attributes.strings?.bind fun names => (domainsOfJson? domains).bind fun domains => key.strings?.bind
          fun key => some (mk names domains key)).bind fun spec => spec.toSchema.toOption
      simp only [Option.bind_assoc, Option.bind_some]
      rfl
    · rfl

theorem ofJson?_toJson (spec : Spec) : ofJson? spec.toJson = some spec := by
  have distinct : ["attributes", "domains", "key"].Nodup := by decide
  have fields : spec.toJson.fields? ["attributes", "domains", "key"] = some [Json.ofStrings spec.attributes,
      .array (spec.domains.map Domain.toJson), Json.ofStrings spec.key] := Json.fields?_record distinct
  rw [ofJson?, fields]
  simp only [Option.bind_eq_bind, Option.bind_some, Json.strings?_ofStrings, domainsOfJson?_map, Option.pure_def]

theorem wellSpelled_toJson (spec : Spec) : spec.toJson.WellSpelled := by
  refine Json.wellSpelled_record fun m hm => ?_
  simp only [List.mem_cons, List.not_mem_nil, or_false] at hm
  rcases hm with rfl | rfl | rfl
  · exact Json.wellSpelled_ofStrings _
  · exact Json.wellSpelled_array_map _ fun d _ => d.wellSpelled_toJson
  · exact Json.wellSpelled_ofStrings _

end Spec

/-- A JSON value is read as a schema exactly where it spells the specification of that schema. -/
theorem ofJson?_eq_some_iff {v : Json} : ofJson? v = some s ↔ Spec.ofJson? v = some (Spec.ofSchema s) := by
  rw [Spec.ofJson?_eq_bind, Option.bind_eq_some_iff]
  simp only [toOption_eq_some_iff, Spec.toSchema_eq_ok_iff]
  constructor
  · rintro ⟨spec, hs, rfl⟩
    exact hs
  · intro hs
    exact ⟨_, hs, rfl⟩

theorem toJson_eq (s : Schema) : s.toJson = (Spec.ofSchema s).toJson := rfl

/-- The JSON text of a specification is read as the schema that has it, and as no other. -/
theorem read_spec_eq_some_iff {spec : Spec} :
    (Json.read? spec.toJson.write).bind ofJson? = some s ↔ Spec.ofSchema s = spec := by
  rw [Json.read?_write spec.wellSpelled_toJson, Option.bind_some, ofJson?_eq_some_iff, Spec.ofJson?_toJson,
    Option.some.injEq, eq_comm]

/-! ## Schemas in words -/

/-- A schema whose names are words is read from them. -/
theorem ofWords_joined (h : ∀ name ∈ s.names, Text.IsWord name) :
    ofWords (Text.joined " " s.names) (Text.joined " " (s.domains.map Domain.name)) (Text.joined " " s.key) = .ok s := by
  have names := Text.words_joined h
  have key := Text.words_joined fun name hk => h name (s.valid.key_subset name hk)
  have domains : Text.words (Text.joined " " (s.domains.map Domain.name)) = s.domains.map Domain.name := by
    apply Text.words_joined
    intro w hw
    obtain ⟨d, -, rfl⟩ := List.mem_map.mp hw
    cases d <;> decide
  rw [ofWords, domains, Domain.mapM_parse_names, names, key]
  exact Spec.toSchema_ofSchema s

/-- The columns of the key are found again when a schema is made of what it spells. -/
theorem make_pair_names_domains (s : Schema) : Record.make (pair s.names s.domains) s.key = .ok s.record := by
  rw [pair_names_domains, Record.make_eq_map_build, build_self]
  rfl

end Schema

/-! ## Images -/

namespace TableImage

/-- Every valid image makes a table. -/
theorem Valid.exists_toTable {image : TableImage} (h : image.Valid) : ∃ t, image.toTable = .ok t := by
  have names := Schema.map_name_pair h.lengths_eq
  have valid : Schema.Valid (Schema.pair image.attributes image.domains) image.key := {
    attributes_ne_nil := fun he => h.attributes_ne_nil (by rw [← names, he]; rfl)
    key_ne_nil := h.key_ne_nil
    names_nodup := names.symm ▸ h.attributes_nodup
    key_nodup := h.key_nodup
    key_subset := names.symm ▸ h.key_subset }
  let schema : Schema := ⟨_, _, valid⟩
  have built : Schema.build (Schema.pair image.attributes image.domains) image.key = .ok schema :=
    (Schema.build_eq_ok_iff ..).mpr ⟨rfl, rfl⟩
  have fits : image.tuples.forM schema.check = .ok () := by
    apply forM_eq_ok_iff.mpr
    intro row hr
    apply Schema.check_eq_ok_iff.mpr
    exact (h.rows_fit row hr).trans (Schema.map_domain_pair h.lengths_eq).symm
  refine ⟨Table.ofTuples image.name schema image.index image.tuples, ?_⟩
  rw [toTable, if_neg (not_not_intro h.lengths_eq), lift_eq_ok_iff.mpr built]
  show (StoreFault.lift (image.tuples.forM schema.check) >>= _) = _
  rw [lift_eq_ok_iff.mpr fits]
  rfl

theorem exists_toTable_iff {image : TableImage} : (∃ t, image.toTable = .ok t) ↔ image.Valid := by
  constructor
  · rintro ⟨t, ht⟩
    exact (of_toTable_eq_ok ht).2
  · exact Valid.exists_toTable

end TableImage

namespace Schema

/-- A schema is read back from its JSON text and made again of what it spells, with the columns of its key; from its words
too where its names are words. What is read as a schema spells the specification of that schema, and JSON text of a
specification that is read is written again. An image that makes a table is the image of that table, and exactly the valid
ones do. -/
theorem spelled_and_read_back :
    (∀ s : Schema, (Json.read? s.toJson.write).bind ofJson? = some s ∧ (Spec.ofSchema s).toSchema = .ok s
      ∧ Record.make (pair s.names s.domains) s.key = .ok s.record)
    ∧ (∀ s : Schema, (∀ name ∈ s.names, Text.IsWord name) →
      ofWords (Text.joined " " s.names) (Text.joined " " (s.domains.map Domain.name)) (Text.joined " " s.key) = .ok s)
    ∧ (∀ v s, ofJson? v = some s ↔ Spec.ofJson? v = some (Spec.ofSchema s))
    ∧ (∀ (spec : Spec) s, (Json.read? spec.toJson.write).bind ofJson? = some s →
      Spec.ofSchema s = spec ∧ s.toJson.write = spec.toJson.write)
    ∧ (∀ (image : TableImage) t, image.toTable = .ok t → TableImage.ofTable t = image)
    ∧ ∀ image : TableImage, (∃ t, image.toTable = .ok t) ↔ image.Valid := by
  refine ⟨fun s => ⟨?_, Spec.toSchema_ofSchema s, make_pair_names_domains s⟩, fun s h => ofWords_joined h,
    fun v s => ofJson?_eq_some_iff, ?_, fun image t h => (TableImage.of_toTable_eq_ok h).1,
    fun image => TableImage.exists_toTable_iff⟩
  · rw [toJson_eq]
    exact read_spec_eq_some_iff.mpr rfl
  · intro spec s h
    have same := read_spec_eq_some_iff.mp h
    exact ⟨same, by rw [toJson_eq, same]⟩

/-- The levels with both attributes as their key, the second one first, and with every row twice. -/
theorem spelled_and_read_back_levels :
    let s : Schema := ⟨[⟨"site", .string⟩, ⟨"level", .double⟩], ["level", "site"],
      ⟨by decide, by decide, by decide, by decide, by decide⟩⟩
    let spec : Spec := ⟨["site", "level"], [.string, .double], ["level", "site"]⟩
    let image : TableImage := ⟨"levels", spec.attributes, spec.domains, spec.key, .btree,
      Table.levelsRows ++ Table.levelsRows⟩
    (∀ name ∈ s.names, Text.IsWord name) ∧ ofWords "site level" "String Double" "level site" = .ok s
      ∧ (Json.read? spec.toJson.write).bind ofJson? = some s ∧ s.toJson.write = spec.toJson.write
      ∧ Spec.ofJson? s.toJson = some spec ∧ image.Valid
      ∧ ∃ t, image.toTable = .ok t ∧ TableImage.ofTable t = image := by
  intro s spec image
  obtain ⟨back, words, spelled, again, images, valid⟩ := spelled_and_read_back
  have hw : ∀ name ∈ s.names, Text.IsWord name := by decide
  have hs : (Json.read? spec.toJson.write).bind ofJson? = some s := (back s).1
  have hj : ofJson? s.toJson = some s := (spelled s.toJson s).mpr (Spec.ofJson?_toJson (Spec.ofSchema s))
  obtain ⟨t, ht⟩ : ∃ t, image.toTable = .ok t := by
    refine (valid image).mpr ⟨rfl, by decide, by decide, by decide, by decide, by decide, ?_⟩
    decide
  exact ⟨hw, words s hw, hs, (again spec s hs).2, (spelled _ s).mp hj, (valid image).mp ⟨t, ht⟩, t, ht, images image t ht⟩

end Schema

end Relata
