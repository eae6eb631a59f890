import Relata.Proofs.Snapshots
import Relata.Store.Catalog
import Relata.Store.Memory
/-!
# Catalogs as maps

A run of calls on a catalog over a storage in memory that is empty at first. A name holds the table that
was saved last under it and not removed since (`held`), and the catalog answers by what the names hold
(`Shows`). `Keeps` ties the storage to what the names hold: a call keeps it (`Keeps.call`), so a run does
(`Keeps.after`).
-/

namespace Relata

/-! ## Tables that a catalog takes -/

namespace Table

/-- Tables that differ at most in how their indexes came about. -/
structure Alike (t t' : Table) : Prop where
  name_eq : t.name = t'.name
  schema_eq : t.schema = t'.schema
  indexKind_eq : t.indexKind = t'.indexKind
  tuples_eq : t.tuples = t'.tuples
  find?_eq : ∀ key, t.find? key = t'.find? key

theorem WellFormed.alike_copy {t : Table} (h : t.WellFormed) : t.copy.Alike t where
  name_eq := rfl
  schema_eq := rfl
  indexKind_eq := indexKind_ofTuples ..
  tuples_eq := rfl
  find?_eq key := by
    rw [h.find?_eq]
    apply find?_ofTuples

/-- A table that a snapshot can hold. -/
structure Storable (t : Table) : Prop where
  wellFormed : t.WellFormed
  length_le : (Snapshot.payload t).length ≤ Snapshot.maxPayload.toNat

end Table

namespace Catalog

/-! ## Runs of calls -/

inductive Call where
  | save (t : Table)
  | load (name : String)
  | contains (name : String)
  | remove (name : String)
  | slots

inductive Answer where
  | path (path : String)
  | table (t : Table)
  | found (found : Bool)
  | removed
  | names (names : List String)

namespace Call

/-- The name that a call is about. -/
def name? : Call → Option String
  | save t => some t.name
  | load name => some name
  | contains name => some name
  | remove name => some name
  | slots => none

/-- The name that a call saves a table under. -/
def saved? : Call → Option String
  | save t => some t.name
  | _ => none

def Storable : Call → Prop
  | save t => t.Storable
  | _ => True

/-- What a name holds after a call, from what it held before. -/
def keep (name : String) (before : Option Table) : Call → Option Table
  | save t => if t.name = name ∧ isSlotName name = true then some t else before
  | remove removed => if removed = name then none else before
  | _ => before

end Call

/-- A catalog over a storage in memory without slots. -/
def inMemory (codec : Codec) : Catalog Memory := ⟨Memory.empty, codec⟩

/-- The table that was saved last under a name and not removed since. -/
def held (calls : List Call) (name : String) : Option Table := calls.foldl (Call.keep name) none

theorem keep_saves_of_not_mem {name : String} {tables : List Table} (before : Option Table)
    (h : name ∉ tables.map Table.name) : (tables.map Call.save).foldl (Call.keep name) before = before := by
  induction tables with
  | nil => rfl
  | cons t tables ih =>
    rw [List.map_cons, List.mem_cons, not_or] at h
    have kept : Call.keep name before (.save t) = before := if_neg fun he => h.1 he.1.symm
    rw [List.map_cons, List.foldl_cons, kept, ih h.2]

/-- Of tables with distinct names that are saved, each is held. -/
theorem held_saves {tables : List Table} (hn : (tables.map Table.name).Nodup) {t : Table} (ht : t ∈ tables)
    (hv : isSlotName t.name = true) : held (tables.map .save) t.name = some t := by
  have all : ∀ before, (tables.map Call.save).foldl (Call.keep t.name) before = some t := by
    induction tables with
    | nil => cases ht
    | cons u tables ih =>
      intro before
      rw [List.map_cons, List.nodup_cons] at hn
      rw [List.map_cons, List.foldl_cons]
      rcases List.mem_cons.mp ht with rfl | ht
      · rw [keep_saves_of_not_mem _ hn.1]
        exact if_pos ⟨rfl, hv⟩
      · exact ih hn.2 ht _
  exact all none

/-- The answer to a call, and the catalog after it. -/
def call {σ : Type} [Storage σ] (c : Catalog σ) : Call → Except StoreFault Answer × Catalog σ
  | .save t => ((c.save t).1.map .path, (c.save t).2)
  | .load name => ((c.load name).map .table, c)
  | .contains name => ((c.contains name).map .found, c)
  | .remove name => ((c.remove name).1.map fun _ => .removed, (c.remove name).2)
  | .slots => (.ok (.names c.slots), c)

/-- The catalog after calls. -/
def after {σ : Type} [Storage σ] (c : Catalog σ) (calls : List Call) : Catalog σ :=
  calls.foldl (fun c call => (c.call call).2) c

/-! ## Paths of slots -/

section Paths

variable {name path : String}

theorem slotPath_of_valid (h : isSlotName name = true) : slotPath name = .ok (name ++ ending) := if_pos h

theorem slotPath_of_invalid (h : isSlotName name = false) :
    slotPath name = .error (.storage (.invalidSlot name)) := by
  rw [slotPath, h]
  rfl

/-- Different names have different paths, also where a name has the ending itself. -/
theorem append_ending_inj {other : String} : name ++ ending = other ++ ending ↔ name = other := by
  rw [← String.toList_inj, String.toList_append, String.toList_append, List.append_cancel_right_eq,
    String.toList_inj]

theorem eq_of_slotName? (h : slotName? path = some name) : path = name ++ ending := by
  simp only [slotName?] at h
  split at h
  · cases h
  · next hs =>
    rw [Bool.or_eq_true, Bool.or_eq_true, not_or, not_or] at hs
    obtain ⟨front, hf⟩ : ending.toList <:+ path.toList := by simpa using hs.1.2
    have cut : path.toList.take (path.toList.length - ending.length) = front := by
      rw [← hf, List.length_append]
      exact List.take_left' (Nat.add_sub_cancel ..).symm
    rw [cut] at h
    rw [← String.toList_inj, String.toList_append, ← Option.some.inj h, String.toList_ofList, hf]

theorem slotName?_append_ending (h : isSlotName name = true) : slotName? (name ++ ending) = some name := by
  simp only [isSlotName, Bool.and_eq_true, decide_eq_true_eq, List.all_eq_true, Bool.not_eq_true'] at h
  obtain ⟨⟨⟨hn, -⟩, -⟩, hc⟩ := h
  have pos : name.toList.length ≠ 0 := by
    intro he
    apply hn
    rw [← String.toList_inj, List.length_eq_zero_iff.mp he]
    rfl
  have slash : (name.toList ++ ending.toList).contains '/' = false := by
    rw [← Bool.not_eq_true, List.contains_iff_mem, List.mem_append, not_or]
    exact ⟨fun hm => (hc '/' hm).1.1 rfl, by decide⟩
  have isSuffix : ending.toList.isSuffixOf (name.toList ++ ending.toList) = true := by
    rw [List.isSuffixOf_iff_suffix]
    exact ⟨name.toList, rfl⟩
  have long : ¬(name.toList ++ ending.toList).length ≤ ending.length := by
    rw [List.length_append]
    show ¬_ + ending.length ≤ _
    omega
  have cut : (name.toList ++ ending.toList).take ((name.toList ++ ending.toList).length - ending.length)
      = name.toList := by
    rw [List.length_append]
    exact List.take_left' (Nat.add_sub_cancel ..).symm
  simp only [slotName?, String.toList_append]
  rw [slash, isSuffix, decide_eq_false long, if_neg (by decide), cut, String.ofList_toList]

end Paths

/-! ## Single calls -/

section Calls

variable {σ : Type} [Storage σ] (c : Catalog σ)

/-- A name that is no slot's is refused by every call about it, before anything else happens. -/
theorem call_of_invalid {name : String} (hv : isSlotName name = false) {call : Call}
    (hn : call.name? = some name) : c.call call = (.error (.storage (.invalidSlot name)), c) := by
  cases call with
  | save t => cases hn; rw [Catalog.call, save, slotPath_of_invalid hv]; rfl
  | load other => cases hn; rw [Catalog.call, load, slotPath_of_invalid hv]; rfl
  | contains other => cases hn; rw [Catalog.call, contains, slotPath_of_invalid hv]; rfl
  | remove other => cases hn; rw [Catalog.call, remove, slotPath_of_invalid hv]; rfl
  | slots => cases hn

theorem save_of_encode_eq_error {t : Table} {fault : StoreFault} (he : Snapshot.encode t c.codec = .error fault) :
    ∃ fault, c.call (.save t) = (.error fault, c) := by
  cases hv : isSlotName t.name with
  | false => exact ⟨_, call_of_invalid c hv rfl⟩
  | true =>
    refine ⟨fault, ?_⟩
    rw [Catalog.call, save, slotPath_of_valid hv, he]
    rfl

theorem save_of_unavailable (h : c.codec.isAvailable = false) (t : Table) :
    ∃ fault, c.call (.save t) = (.error fault, c) := by
  have refused : Snapshot.encode t c.codec = .error (.unsupported (some c.codec)) := by
    cases hc : c.codec with
    | stored => rw [hc] at h; cases h
    | zstd => rfl
    | lz4 => rfl
  exact save_of_encode_eq_error c refused

theorem contains_of_valid {name : String} (hv : isSlotName name = true) :
    c.contains name = .ok (Storage.contains c.storage (name ++ ending)) := by
  rw [contains, slotPath_of_valid hv]
  rfl

theorem load_of_absent {name : String} (hv : isSlotName name = true)
    (absent : Storage.contains c.storage (name ++ ending) = false) :
    c.load name = .error (.storage (.missingSlot name)) := by
  rw [load, slotPath_of_valid hv]
  show (if !Storage.contains c.storage (name ++ ending) then _ else _) = _
  rw [absent]
  rfl

theorem load_of_present {name : String} (hv : isSlotName name = true)
    (present : Storage.contains c.storage (name ++ ending) = true) {bytes : Bytes}
    (content : Storage.read c.storage (name ++ ending) = .ok bytes) : c.load name = Snapshot.decode bytes := by
  rw [load, slotPath_of_valid hv]
  show (if !Storage.contains c.storage (name ++ ending) then _ else _) = _
  rw [present, content]
  rfl

end Calls

section Memory

variable (c : Catalog Memory) {name : String}

/-- The bytes in the slot of a name. -/
def slot? (name : String) : Option Bytes := c.storage.entries.lookup (name ++ ending)

theorem call_save {t : Table} (hv : isSlotName t.name = true) {bytes : Bytes}
    (he : Snapshot.encode t c.codec = .ok bytes) :
    c.call (.save t)
      = (.ok (.path (t.name ++ ending)), ⟨c.storage.insert (t.name ++ ending) bytes, c.codec⟩) := by
  rw [Catalog.call, save, slotPath_of_valid hv, he]
  rfl

theorem call_remove (hv : isSlotName name = true) :
    c.call (.remove name) = (.ok .removed, ⟨⟨Entries.erase (name ++ ending) c.storage.entries⟩, c.codec⟩) := by
  rw [Catalog.call, remove, slotPath_of_valid hv]
  rfl

theorem contains_eq (hv : isSlotName name = true) : c.contains name = .ok (c.slot? name).isSome :=
  contains_of_valid c hv

theorem load_of_slot?_eq_none (hv : isSlotName name = true) (hs : c.slot? name = none) :
    c.load name = .error (.storage (.missingSlot name)) :=
  load_of_absent c hv (congrArg Option.isSome hs)

theorem load_of_slot?_eq_some (hv : isSlotName name = true) {bytes : Bytes} (hs : c.slot? name = some bytes) :
    c.load name = Snapshot.decode bytes := by
  have content : Storage.read c.storage (name ++ ending) = .ok bytes := by
    rw [slot?] at hs
    simp only [Storage.read, hs]
  exact load_of_present c hv (congrArg Option.isSome hs) content

theorem list_eq_keys (m : Memory) : Storage.list m "" = Entries.keys m.entries := by
  apply List.filter_eq_self.mpr
  intro path _
  rfl

theorem mem_slots_iff :
    name ∈ c.slots ↔ slotName? (name ++ ending) = some name ∧ (c.slot? name).isSome = true := by
  rw [slots, list_eq_keys, List.mem_filterMap, slot?, Entries.isSome_lookup_iff]
  constructor
  · rintro ⟨path, hp, hn⟩
    exact eq_of_slotName? hn ▸ ⟨hn, hp⟩
  · intro ⟨hn, hp⟩
    exact ⟨name ++ ending, hp, hn⟩

/-! ## What a call changes -/

/-- A call leaves the catalog as it is, or saves a table in its slot, or removes a slot. -/
theorem call_cases (call : Call) : (c.call call).2 = c
    ∨ (∃ t bytes, call = .save t ∧ c.call call
      = (.ok (.path (t.name ++ ending)), ⟨c.storage.insert (t.name ++ ending) bytes, c.codec⟩))
    ∨ ∃ name, call = .remove name ∧ c.call call
      = (.ok .removed, ⟨⟨Entries.erase (name ++ ending) c.storage.entries⟩, c.codec⟩) := by
  cases call with
  | save t =>
    cases hv : isSlotName t.name with
    | false => exact .inl (by rw [call_of_invalid c hv rfl])
    | true =>
      cases he : Snapshot.encode t c.codec with
      | error fault =>
        obtain ⟨fault', h⟩ := save_of_encode_eq_error c he
        exact .inl (by rw [h])
      | ok bytes => exact .inr (.inl ⟨t, bytes, rfl, call_save c hv he⟩)
  | remove other =>
    cases hv : isSlotName other with
    | false => exact .inl (by rw [call_of_invalid c hv rfl])
    | true => exact .inr (.inr ⟨other, rfl, call_remove c hv⟩)
  | load other => exact .inl rfl
  | contains other => exact .inl rfl
  | slots => exact .inl rfl

theorem call_of_error {call : Call} {fault : StoreFault} (h : (c.call call).1 = .error fault) :
    (c.call call).2 = c := by
  rcases call_cases c call with hc | ⟨t, bytes, -, hc⟩ | ⟨name, -, hc⟩
  · exact hc
  · rw [hc] at h
    cases h
  · rw [hc] at h
    cases h

theorem codec_call (call : Call) : (c.call call).2.codec = c.codec := by
  rcases call_cases c call with hc | ⟨t, bytes, -, hc⟩ | ⟨name, -, hc⟩ <;> rw [hc]

theorem slot?_save (other : String) (bytes : Bytes) :
    (Catalog.mk (c.storage.insert (other ++ ending) bytes) c.codec).slot? name
      = if name = other then some bytes else c.slot? name := by
  show (Entries.insert (other ++ ending) bytes c.storage.entries).lookup (name ++ ending) = _
  rw [Entries.lookup_insert]
  simp only [append_ending_inj]
  rfl

theorem slot?_remove (other : String) :
    (Catalog.mk ⟨Entries.erase (other ++ ending) c.storage.entries⟩ c.codec).slot? name
      = if name = other then none else c.slot? name := by
  show (Entries.erase (other ++ ending) c.storage.entries).lookup (name ++ ending) = _
  rw [Entries.lookup_erase]
  simp only [append_ending_inj]
  rfl

/-- A call changes no slot but the one of its own name. -/
theorem slot?_call {call : Call} (hn : call.name? ≠ some name) : (c.call call).2.slot? name = c.slot? name := by
  rcases call_cases c call with hc | ⟨t, bytes, rfl, hc⟩ | ⟨other, rfl, hc⟩
  · rw [hc]
  · have ne : name ≠ t.name := fun he => hn (he ▸ rfl)
    rw [hc, slot?_save, if_neg ne]
  · have ne : name ≠ other := fun he => hn (he ▸ rfl)
    rw [hc, slot?_remove, if_neg ne]

/-- The answer to a call about a name comes from the slot of that name alone. -/
theorem answer_congr {c' : Catalog Memory} (hc : c'.codec = c.codec) (hs : c'.slot? name = c.slot? name)
    {call : Call} (hn : call.name? = some name) : (c'.call call).1 = (c.call call).1 := by
  cases hv : isSlotName name with
  | false => rw [call_of_invalid c hv hn, call_of_invalid c' hv hn]
  | true =>
    cases call with
    | save t =>
      cases hn
      cases he : Snapshot.encode t c.codec with
      | error fault => rw [Catalog.call, Catalog.call, save, save, slotPath_of_valid hv, hc, he]
      | ok bytes => rw [call_save c hv he, call_save c' hv (hc ▸ he)]
    | load other =>
      cases hn
      rw [Catalog.call, Catalog.call]
      cases h : c.slot? name with
      | none => rw [load_of_slot?_eq_none c hv h, load_of_slot?_eq_none c' hv (hs.trans h)]
      | some bytes => rw [load_of_slot?_eq_some c hv h, load_of_slot?_eq_some c' hv (hs.trans h)]
    | contains other =>
      cases hn
      rw [Catalog.call, Catalog.call, contains_eq c hv, contains_eq c' hv, hs]
    | remove other =>
      cases hn
      rw [call_remove c hv, call_remove c' hv]
    | slots => cases hn

end Memory

/-! ## Runs -/

/-- The storage has what the names hold, as snapshots in their slots, and nothing else. -/
structure Keeps (c : Catalog Memory) (held : String → Option Table) : Prop where
  codec_eq : c.codec = .stored
  ascending : Entries.Ascending c.storage.entries
  slot?_eq : ∀ name, c.slot? name = (held name).map fun t => Snapshot.body t ++ (Snapshot.body t).digest
  storable : ∀ name t, held name = some t → isSlotName name = true ∧ t.Storable

section Keeps

variable {c : Catalog Memory} {held : String → Option Table}

theorem Keeps.inMemory : Keeps (inMemory .stored) fun _ => none where
  codec_eq := rfl
  ascending := List.Pairwise.nil
  slot?_eq _ := rfl
  storable _ _ h := nomatch h

/-- Only what one name holds changes. -/
theorem Keeps.change (h : c.Keeps held) {changed : String} {now : Option Table} {storage : Memory}
    (ha : Entries.Ascending storage.entries)
    (hl : ∀ name, (Catalog.mk storage c.codec).slot? name = if name = changed
      then now.map fun t => Snapshot.body t ++ (Snapshot.body t).digest else c.slot? name)
    (hs : ∀ t, now = some t → isSlotName changed = true ∧ t.Storable) :
    (Catalog.mk storage c.codec).Keeps fun name => if changed = name then now else held name := by
  refine ⟨h.codec_eq, ha, fun name => ?_, fun name t hn => ?_⟩
  · rw [hl]
    by_cases he : name = changed
    · rw [if_pos he, if_pos he.symm]
    · rw [if_neg he, if_neg (Ne.symm he), h.slot?_eq]
  · by_cases he : changed = name
    · rw [if_pos he] at hn
      exact he ▸ hs t hn
    · rw [if_neg he] at hn
      exact h.storable name t hn

theorem Keeps.save (h : c.Keeps held) {t : Table} (hv : isSlotName t.name = true) (hs : t.Storable) :
    (c.call (.save t)).2.Keeps fun name => if t.name = name then some t else held name := by
  have he : Snapshot.encode t c.codec = .ok (Snapshot.body t ++ (Snapshot.body t).digest) :=
    h.codec_eq ▸ Snapshot.encode_stored t
  rw [call_save c hv he]
  apply h.change (Entries.ascending_insert _ _ h.ascending)
  · intro name
    apply slot?_save
  · rintro t' ⟨⟩
    exact ⟨hv, hs⟩

theorem Keeps.remove (h : c.Keeps held) {removed : String} (hv : isSlotName removed = true) :
    (c.call (.remove removed)).2.Keeps fun name => if removed = name then none else held name := by
  rw [call_remove c hv]
  apply h.change (Entries.ascending_erase _ h.ascending)
  · intro name
    apply slot?_remove
  · rintro t ⟨⟩

theorem Keeps.eq_none (h : c.Keeps held) {name : String} (hv : isSlotName name = false) : held name = none := by
  cases hn : held name with
  | none => rfl
  | some t =>
    rw [(h.storable name t hn).1] at hv
    cases hv

/-- A call about a name that is no slot's changes nothing that a name holds. -/
theorem Keeps.keep_eq (h : c.Keeps held) {call : Call} {name : String} (hn : call.name? = some name)
    (hv : isSlotName name = false) : (fun other => call.keep other (held other)) = held := by
  funext other
  cases call with
  | save t =>
    cases hn
    have never : ¬(t.name = other ∧ isSlotName other = true) := by
      rintro ⟨rfl, ho⟩
      rw [hv] at ho
      cases ho
    exact if_neg never
  | remove removed =>
    cases hn
    by_cases he : name = other
    · exact (if_pos he).trans (h.eq_none (he ▸ hv)).symm
    · exact if_neg he
  | load other => rfl
  | contains other => rfl
  | slots => rfl

theorem Keeps.call (h : c.Keeps held) {call : Call} (hs : call.Storable) :
    (c.call call).2.Keeps fun name => call.keep name (held name) := by
  cases call with
  | save t =>
    have about : (Call.save t).name? = some t.name := rfl
    cases hv : isSlotName t.name with
    | true =>
      have same : ∀ name, (t.name = name ∧ isSlotName name = true) = (t.name = name) := by
        intro name
        apply propext
        exact ⟨And.left, fun he => ⟨he, he ▸ hv⟩⟩
      simp only [Call.keep, same]
      exact h.save hv hs
    | false =>
      rw [call_of_invalid c hv about, h.keep_eq about hv]
      exact h
  | remove removed =>
    have about : (Call.remove removed).name? = some removed := rfl
    cases hv : isSlotName removed with
    | true => exact h.remove hv
    | false =>
      rw [call_of_invalid c hv about, h.keep_eq about hv]
      exact h
  | load name => exact h
  | contains name => exact h
  | slots => exact h

theorem Keeps.after (h : c.Keeps held) {calls : List Call} (hs : ∀ call ∈ calls, call.Storable) :
    (c.after calls).Keeps fun name => calls.foldl (Call.keep name) (held name) := by
  induction calls generalizing c held with
  | nil => exact h
  | cons call rest ih =>
    exact ih (h.call (hs call List.mem_cons_self)) fun other ho => hs other (List.mem_cons_of_mem call ho)

end Keeps

/-! ## What a catalog shows -/

/-- A catalog answers by what the names hold. -/
structure Shows (c : Catalog Memory) (held : String → Option Table) : Prop where
  save_ok : ∀ t, isSlotName t.name = true → ∃ path, (c.call (.save t)).1 = .ok (.path path)
  remove_ok : ∀ name, isSlotName name = true → (c.call (.remove name)).1 = .ok .removed
  load_ok : ∀ name t, held name = some t → ∃ t', c.load name = .ok t' ∧ t'.Alike t
  load_error : ∀ name, held name = none → ∃ fault, c.load name = .error (.storage fault)
  contains_eq : ∀ name, isSlotName name = true → c.contains name = .ok (held name).isSome
  mem_slots_iff : ∀ name, name ∈ c.slots ↔ (held name).isSome = true
  nodup_slots : c.slots.Nodup

theorem Keeps.shows {c : Catalog Memory} {held : String → Option Table} (h : c.Keeps held) :
    c.Shows held where
  save_ok t hv := ⟨_, congrArg Prod.fst (call_save c hv (h.codec_eq ▸ Snapshot.encode_stored t))⟩
  remove_ok name hv := congrArg Prod.fst (call_remove c hv)
  load_ok name t ht := by
    obtain ⟨hv, hs⟩ := h.storable name t ht
    have slot := h.slot?_eq name
    rw [ht] at slot
    refine ⟨t.copy, ?_, hs.wellFormed.alike_copy⟩
    rw [load_of_slot?_eq_some c hv slot]
    exact Snapshot.decode_body_digest hs.wellFormed.conforms hs.length_le
  load_error name hn := by
    cases hv : isSlotName name with
    | false =>
      rw [load, slotPath_of_invalid hv]
      exact ⟨_, rfl⟩
    | true =>
      have slot := h.slot?_eq name
      rw [hn] at slot
      exact ⟨_, load_of_slot?_eq_none c hv slot⟩
  contains_eq name hv := by rw [Catalog.contains_eq c hv, h.slot?_eq, Option.isSome_map]
  mem_slots_iff name := by
    rw [Catalog.mem_slots_iff, h.slot?_eq, Option.isSome_map]
    constructor
    · exact And.right
    · intro hs
      obtain ⟨t, ht⟩ := Option.isSome_iff_exists.mp hs
      exact ⟨slotName?_append_ending (h.storable name t ht).1, hs⟩
  nodup_slots := by
    rw [slots, list_eq_keys]
    apply List.Nodup.filterMap
    · intro path path' name hp hp'
      rw [eq_of_slotName? hp, eq_of_slotName? hp']
    · exact Entries.nodup_of_ascending h.ascending

/-- What every call keeps to, whatever the catalog holds. -/
structure Steady (c : Catalog Memory) : Prop where
  /-- A call changes no answer about another name. -/
  answer_eq : ∀ (call other : Call) (name : String), other.name? = some name → call.name? ≠ some name →
    ((c.call call).2.call other).1 = (c.call other).1
  mem_slots_iff : ∀ (call : Call) (name : String), call.name? ≠ some name →
    (name ∈ (c.call call).2.slots ↔ name ∈ c.slots)
  /-- All calls refuse the same names. -/
  refused : ∀ (call : Call) (name : String), call.name? = some name → isSlotName name = false →
    c.call call = (.error (.storage (.invalidSlot name)), c)
  failed : ∀ (call : Call) (fault : StoreFault), (c.call call).1 = .error fault → (c.call call).2 = c

theorem steady (c : Catalog Memory) : c.Steady where
  answer_eq call other name ho hn := answer_congr c (codec_call c call) (slot?_call c hn) ho
  mem_slots_iff call name hn := by rw [mem_slots_iff, mem_slots_iff, slot?_call c hn]
  refused _ _ hn hv := call_of_invalid c hv hn
  failed _ _ h := call_of_error c h

theorem codec_after (c : Catalog Memory) (calls : List Call) : (c.after calls).codec = c.codec := by
  induction calls generalizing c with
  | nil => rfl
  | cons call rest ih =>
    show ((c.call call).2.after rest).codec = _
    rw [ih, codec_call]

/-- A catalog over a storage in memory is a map from names to tables, as long as the tables that are saved
fit in a snapshot. With a codec that cannot be used it saves nothing. -/
theorem after_is_map (codec : Codec) (calls : List Call) :
    (after (inMemory codec) calls).Steady
      ∧ (codec.isAvailable = true → (∀ call ∈ calls, call.Storable) →
        (after (inMemory codec) calls).Shows (held calls))
      ∧ (codec.isAvailable = false → ∀ t, ∃ fault,
        (after (inMemory codec) calls).call (.save t) = (.error fault, after (inMemory codec) calls)) := by
  refine ⟨steady _, fun ha hs => ?_, fun ha t => ?_⟩
  · obtain rfl : codec = .stored := eq_of_beq ha
    exact (Keeps.inMemory.after hs).shows
  · apply save_of_unavailable
    rw [codec_after]
    exact ha

/-- Of two tables the one whose name has the ending of slots stays. -/
theorem after_is_map_levels :
    let calls : List Call := [.save Table.levels, .save (Table.levels.rename "a.dbf"), .remove "levels"]
    let c := after (inMemory .stored) calls
    (∃ t, c.load "a.dbf" = .ok t ∧ t.Alike (Table.levels.rename "a.dbf"))
      ∧ (∃ fault, c.load "levels" = .error (.storage fault)) ∧ c.slots.Nodup ∧ "a.dbf" ∈ c.slots :=
  have storable : ∀ name ∈ ["levels", "a.dbf"], (Table.levels.rename name).Storable := fun name hn =>
    ⟨.ofTuples name _ Table.levelsRows_conform, by revert name; decide +kernel⟩
  have shows := (after_is_map .stored
    [.save Table.levels, .save (Table.levels.rename "a.dbf"), .remove "levels"]).2.1 rfl (by
      simp only [List.forall_mem_cons]
      exact ⟨storable "levels" (by decide), storable "a.dbf" (by decide), trivial, nofun⟩)
  ⟨shows.load_ok "a.dbf" _ rfl, shows.load_error "levels" rfl, shows.nodup_slots,
    (shows.mem_slots_iff "a.dbf").mpr rfl⟩

end Catalog

end Relata
