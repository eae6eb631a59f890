import Relata.Proofs.Reachable
/-!
# Decoding any bytes

Decoding takes slices of the bytes at positions that the bytes themselves name, and adds up lengths that
they claim. `decode?` is decoding with all of that watched: a slice that leaves the bytes, a byte or a
column that is not there, and a sum of 64 bits that overflows are traps. It never traps, and it does
what `decode` does (`decode?_eq`). What it accepts is the spelling of an image that is valid, so the
table it gives is sound (`decode_is_safe_and_sound`).
-/

namespace Relata

/-! ## Steps that may trap -/

/-- What a computation gives that may also trap. A trap is `none`. -/
abbrev Guarded (α : Type) := ExceptT StoreFault Option α

namespace Guarded

variable {α β : Type}

/-- A result that is there without a trap. -/
def settled (result : Except StoreFault α) : Guarded α := ExceptT.mk (some result)

theorem bind_settled (result : Except StoreFault α) {next? : α → Guarded β} {next : α → Except StoreFault β}
    (h : ∀ a, result = .ok a → next? a = settled (next a)) :
    settled result >>= next? = settled (result >>= next) := by
  cases result with
  | error fault => rfl
  | ok a => exact h a rfl

theorem bind_some (a : α) (next? : α → Guarded β) : (liftM (some a) : Guarded α) >>= next? = next? a := rfl

end Guarded

/-- The sum of two lengths, if 64 bits hold it. -/
def sum? (a b : Nat) : Option Nat := if a + b < UInt64.size then some (a + b) else none

theorem sum?_eq_some {a b : Nat} (h : a + b < UInt64.size) : sum? a b = some (a + b) := if_pos h

/-- The bytes from a position up to another, if both lie within the bytes. -/
def Bytes.slice? (bytes : Bytes) (start stop : Nat) : Option Bytes :=
  if start ≤ stop ∧ stop ≤ bytes.length then some ((bytes.drop start).take (stop - start)) else none

theorem Bytes.slice?_eq_some {bytes : Bytes} {start stop : Nat} (hs : start ≤ stop)
    (hl : stop ≤ bytes.length) : bytes.slice? start stop = some ((bytes.drop start).take (stop - start)) :=
  if_pos ⟨hs, hl⟩

theorem Bytes.slice?_zero {bytes : Bytes} {n : Nat} (h : n ≤ bytes.length) :
    bytes.slice? 0 n = some (bytes.take n) :=
  slice?_eq_some (Nat.zero_le n) h

theorem Bytes.slice?_length {bytes : Bytes} {n : Nat} (h : n ≤ bytes.length) :
    bytes.slice? n bytes.length = some (bytes.drop n) := by
  rw [slice?_eq_some h (Nat.le_refl _), ← List.length_drop, List.take_length]

/-! ## Headers -/

namespace Header

/-- The number that some of the bytes spell, if they are there. -/
def number? (bytes : Bytes) (position width : Nat) : Option Nat := do
  let stop ← sum? position width
  let digits ← bytes.slice? position stop
  return Bytes.ofLittleEndian digits

theorem number?_eq_some {bytes : Bytes} {position width : Nat} (hl : position + width ≤ bytes.length)
    (hs : position + width < UInt64.size) :
    number? bytes position width = some (number bytes position width) := by
  rw [number?, sum?_eq_some hs, Option.bind_eq_bind, Option.bind_some,
    Bytes.slice?_eq_some (Nat.le_add_right ..) hl, Nat.add_sub_cancel_left]
  rfl

def read? (bytes : Bytes) : Guarded Header := do
  if bytes.length < size then .settled (.error (.format .shortHeader))
  else
    let mark ← bytes.slice? 0 4
    if mark ≠ magic then .settled (.error (.format .badMagic))
    else
      let found ← number? bytes 4 2
      if found ≠ version then .settled (.error (.format (.unsupportedVersion found)))
      else
        let code ← (bytes[6]? : Option UInt8)
        let codec ← Guarded.settled (Codec.ofCode code)
        let uncompressed ← number? bytes 8 8
        let compressed ← number? bytes 16 8
        return ⟨codec, uncompressed.toUInt64, compressed.toUInt64⟩

/-- Behind the first check, every part of a header is there. -/
theorem read?_eq (bytes : Bytes) : read? bytes = .settled (read bytes) := by
  unfold read? read
  by_cases hs : bytes.length < size
  · rw [if_pos hs, if_pos hs]
  have hl : 24 ≤ bytes.length := Nat.le_of_not_lt hs
  rw [if_neg hs, if_neg hs, Bytes.slice?_zero (by omega), Guarded.bind_some]
  by_cases hm : bytes.take 4 ≠ magic
  · rw [if_pos hm, if_pos hm]
  rw [if_neg hm, if_neg hm, number?_eq_some (by omega) (by decide), Guarded.bind_some]
  by_cases hv : number bytes 4 2 ≠ version
  · rw [if_pos hv, if_pos hv]
  have code : bytes[6]? = some (bytes.getD 6 0) := by
    rw [List.getD_eq_getElem?_getD, List.getElem?_eq_getElem (by omega), Option.getD_some]
  rw [if_neg hv, if_neg hv, code, Guarded.bind_some]
  refine Guarded.bind_settled _ fun codec _ => ?_
  rw [number?_eq_some (by omega) (by decide), Guarded.bind_some, number?_eq_some (by omega) (by decide),
    Guarded.bind_some]
  rfl

end Header

/-! ## Tables -/

/-- The table of the given tuples. Every row must have the columns of the key. -/
def Table.ofTuples? (name : String) (schema : Schema) (kind : IndexKind) (tuples : List Tuple) : Option Table := do
  let index ← tuples.foldlM (fun index row => do
    let key ← row.project? schema.keyColumns
    return if index.contains key then index else index.insert key row) (Index.empty kind)
  return ⟨name, schema, tuples, index⟩

theorem Table.ofTuples?_eq_some (name : String) {schema : Schema} (kind : IndexKind) {tuples : List Tuple}
    (h : ∀ row ∈ tuples, schema.Fits row) :
    ofTuples? name schema kind tuples = some (ofTuples name schema kind tuples) := by
  have fold : ∀ index : Index, tuples.foldlM (fun index row => do
      let key ← row.project? schema.keyColumns
      return if index.contains key then index else index.insert key row) index
      = some (tuples.foldl (indexFirst schema) index) := by
    induction tuples with
    | nil => exact fun _ => rfl
    | cons row rest ih =>
      intro index
      rw [List.foldlM_cons, (h row List.mem_cons_self).project?_keyColumns]
      exact ih (fun r hr => h r (List.mem_cons_of_mem row hr)) (indexFirst schema index row)
  rw [ofTuples?, fold]
  rfl

namespace TableImage

/-- The table of an image, with its rows looked at only at columns that they have. -/
def toTable? (image : TableImage) : Guarded Table :=
  if image.attributes.length ≠ image.domains.length then
    .settled (.error (.format (.unevenLists image.attributes.length image.domains.length)))
  else do
    let schema ← Guarded.settled (StoreFault.lift (Schema.build (Schema.pair image.attributes image.domains) image.key))
    Guarded.settled (StoreFault.lift (image.tuples.forM schema.check))
    let t ← Table.ofTuples? image.name schema image.index image.tuples
    return t

theorem toTable?_eq (image : TableImage) : image.toTable? = .settled image.toTable := by
  unfold toTable? toTable
  by_cases hl : image.attributes.length ≠ image.domains.length
  · rw [if_pos hl, if_pos hl]
  rw [if_neg hl, if_neg hl]
  refine Guarded.bind_settled _ fun schema _ => Guarded.bind_settled _ fun _ hc => ?_
  have fits : ∀ row ∈ image.tuples, schema.Fits row := fun row hr =>
    Schema.check_eq_ok_iff.mp (forM_eq_ok_iff.mp (lift_eq_ok_iff.mp hc) row hr)
  rw [Table.ofTuples?_eq_some _ _ fits]
  rfl

end TableImage

namespace Snapshot

/-- Decoding that traps at a slice which leaves the bytes and at a length which 64 bits do not hold. -/
def decode? (bytes : Bytes) : Guarded Table := do
  let header ← Header.read? bytes
  Guarded.settled (header.check maxPayload)
  let bodySize ← sum? Header.size header.compressed.toNat
  let total ← sum? bodySize digestSize
  if bytes.length ≠ total then .settled (.error (.format (.wrongSize total bytes.length)))
  else
    let body ← bytes.slice? 0 bodySize
    let trailer ← bytes.slice? bodySize bytes.length
    if Bytes.digest body ≠ trailer then .settled (.error .checksumMismatch)
    else
      let packed ← body.slice? Header.size body.length
      let text ← Guarded.settled (header.codec.decompress packed)
      if text.length ≠ header.uncompressed.toNat then .settled (.error (.format .wrongPayloadLength))
      else match (Json.read? text).bind TableImage.ofJson? with
        | none => .settled (.error .unreadablePayload)
        | some image => image.toTable?

/-- A header that passes its check claims no more bytes than the bound. -/
theorem compressed_le_of_check {header : Header} (h : header.check maxPayload = .ok ()) :
    header.compressed.toNat ≤ maxPayload.toNat := by
  rw [Header.check] at h
  split at h
  · cases h
  · next hm =>
    rw [not_or] at hm
    exact UInt64.le_iff_toNat_le.mp (UInt64.not_lt.mp hm.2)

/-- The checks of the header come before its lengths are used, so no step of decoding traps. -/
theorem decode?_eq (bytes : Bytes) : decode? bytes = .settled (decode bytes) := by
  unfold decode? decode
  rw [Header.read?_eq]
  refine Guarded.bind_settled _ fun header _ => Guarded.bind_settled _ fun _ hc => ?_
  have bound : header.compressed.toNat ≤ 268435456 := compressed_le_of_check hc
  have small : Header.size + header.compressed.toNat + digestSize < UInt64.size := by
    show 24 + header.compressed.toNat + 32 < 18446744073709551616
    omega
  rw [sum?_eq_some (by omega), Guarded.bind_some, sum?_eq_some small, Guarded.bind_some]
  by_cases hl : bytes.length ≠ Header.size + header.compressed.toNat + digestSize
  · rw [if_pos hl]
    exact (congrArg Guarded.settled (if_pos hl)).symm
  have length := not_not.mp hl
  -- The length that was looked at last leaves room for all three slices.
  have body : Header.size ≤ (bytes.take (Header.size + header.compressed.toNat)).length := by
    rw [List.length_take]
    omega
  generalize Header.size + header.compressed.toNat = bodySize at *
  rw [if_neg hl, Bytes.slice?_zero (by omega), Guarded.bind_some, Bytes.slice?_length (by omega),
    Guarded.bind_some]
  simp only [if_neg hl]
  by_cases hd : Bytes.digest (bytes.take bodySize) ≠ bytes.drop bodySize
  · rw [if_pos hd, if_pos hd]
  rw [if_neg hd, if_neg hd, Bytes.slice?_length body, Guarded.bind_some]
  refine Guarded.bind_settled _ fun text _ => ?_
  by_cases ht : text.length ≠ header.uncompressed.toNat
  · rw [if_pos ht, if_pos ht]
  rw [if_neg ht, if_neg ht]
  cases (Json.read? text).bind TableImage.ofJson? with
  | none => rfl
  | some image => exact image.toTable?_eq

end Snapshot

/-! ## Valid images -/

/-- What makes an image the spelling of a table. -/
structure TableImage.Valid (image : TableImage) : Prop where
  /-- Each name has one domain. -/
  lengths_eq : image.attributes.length = image.domains.length
  attributes_ne_nil : image.attributes ≠ []
  attributes_nodup : image.attributes.Nodup
  key_ne_nil : image.key ≠ []
  key_nodup : image.key.Nodup
  key_subset : ∀ name ∈ image.key, name ∈ image.attributes
  /-- Every row has one value for each domain, and of that domain. -/
  rows_fit : ∀ row ∈ image.tuples, row.map Value.domain = image.domains

namespace TableImage

/-- A table comes of an image only if the image is valid, and the image is then the one of the table. -/
theorem of_toTable_eq_ok {image : TableImage} {t : Table} (h : image.toTable = .ok t) :
    ofTable t = image ∧ image.Valid := by
  rw [toTable] at h
  split at h
  · cases h
  next hl =>
  rw [not_not] at hl
  obtain ⟨schema, hb, h⟩ := exists_of_bind_eq_ok h
  obtain ⟨⟨⟩, hc, h⟩ := exists_of_bind_eq_ok h
  cases h
  obtain ⟨ha, hk⟩ := (Schema.build_eq_ok_iff _ _ _).mp (lift_eq_ok_iff.mp hb)
  have names : schema.names = image.attributes := by
    rw [Schema.names, ha, Schema.map_name_pair hl]
  have domains : schema.domains = image.domains := by
    rw [Schema.domains, ha, Schema.map_domain_pair hl]
  refine ⟨?_, ?_⟩
  · show TableImage.mk image.name schema.names schema.domains schema.key
      (Table.ofTuples image.name schema image.index image.tuples).indexKind image.tuples = image
    rw [names, domains, hk, Table.indexKind_ofTuples]
  · have rows := forM_eq_ok_iff.mp (lift_eq_ok_iff.mp hc)
    exact {
      lengths_eq := hl
      attributes_ne_nil := fun he => schema.valid.attributes_ne_nil (List.map_eq_nil_iff.mp (names.trans he))
      attributes_nodup := names ▸ schema.valid.names_nodup
      key_ne_nil := hk ▸ schema.valid.key_ne_nil
      key_nodup := hk ▸ schema.valid.key_nodup
      key_subset := by rw [← hk, ← names]; exact schema.valid.key_subset
      rows_fit := fun row hr => (Schema.check_eq_ok_iff.mp (rows row hr)).trans domains }

end TableImage

/-! ## What decoding accepts -/

/-- What a table is that comes of bytes: its schema is valid with the right columns for the key, its rows
fit, and every key finds the first row that has it. -/
structure Table.Proper (t : Table) : Prop where
  attributes_ne_nil : t.schema.attributes ≠ []
  names_nodup : t.schema.names.Nodup
  key_ne_nil : t.schema.key ≠ []
  key_nodup : t.schema.key.Nodup
  names_keyColumns : (t.schema.keyColumns.map fun c => t.schema.names[c]?) = t.schema.key.map some
  length_eq : ∀ row ∈ t.tuples, row.length = t.schema.arity
  domains_eq : ∀ row ∈ t.tuples, row.map Value.domain = t.schema.domains
  find?_eq : ∀ key, t.find? key = t.tuples.find? fun row => row.project? t.schema.keyColumns = some key

theorem Table.Sound.proper {t : Table} (h : t.Sound) : t.Proper where
  attributes_ne_nil := t.schema.valid.attributes_ne_nil
  names_nodup := t.schema.valid.names_nodup
  key_ne_nil := t.schema.valid.key_ne_nil
  key_nodup := t.schema.valid.key_nodup
  names_keyColumns := t.schema.names_keyColumns
  length_eq row hr := (Schema.check_eq_ok_iff.mp (h.1.conforms row hr)).length_eq
  domains_eq row hr := Schema.check_eq_ok_iff.mp (h.1.conforms row hr)
  find?_eq := h.indexed.find?_eq

namespace Snapshot

/-- Decoding traps on no bytes. A table that it gives is proper, and its image is the one that the bytes
spell; bytes that spell an image which is not valid give a fault. -/
theorem decode_is_safe_and_sound (bytes : Bytes) :
    decode? bytes = .settled (decode bytes)
      ∧ (∀ t, decode bytes = .ok t →
        t.Proper ∧ spelled? bytes = some (TableImage.ofTable t) ∧ (TableImage.ofTable t).Valid)
      ∧ ∀ image, spelled? bytes = some image → ¬image.Valid → ∃ fault, decode bytes = .error fault := by
  refine ⟨decode?_eq bytes, fun t h => ?_, fun image hi hv => ?_⟩
  · obtain ⟨image, hs, ht⟩ := of_decode_eq_ok h
    obtain ⟨rfl, valid⟩ := TableImage.of_toTable_eq_ok ht
    exact ⟨(Table.Sound.load h).proper, hs, valid⟩
  · cases h : decode bytes with
    | error fault => exact ⟨fault, rfl⟩
    | ok t =>
      obtain ⟨other, hs, ht⟩ := of_decode_eq_ok h
      rw [hi, Option.some.injEq] at hs
      exact absurd (TableImage.of_toTable_eq_ok ht).2 (hs ▸ hv)

/-- The saved levels are bytes that give a table. -/
theorem decode_is_safe_and_sound_levels :
    let bytes := body Table.levels ++ (body Table.levels).digest
    decode? bytes = .settled (.ok Table.levels.copy) ∧ Table.levels.copy.Proper
      ∧ spelled? bytes = some (TableImage.ofTable Table.levels) :=
  have h : decode (body Table.levels ++ (body Table.levels).digest) = .ok Table.levels.copy :=
    decode_body_digest Table.levelsRows_conform (by decide +kernel)
  have safe := decode_is_safe_and_sound (body Table.levels ++ (body Table.levels).digest)
  have sound := safe.2.1 Table.levels.copy h
  ⟨h ▸ safe.1, sound.1, sound.2.1⟩

end Snapshot

end Relata
