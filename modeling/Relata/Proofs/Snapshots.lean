import Relata.Proofs.Bytes
import Relata.Proofs.Reading
import Relata.Proofs.Tables
import Relata.Proofs.ValueJson
import Relata.Store.Snapshot
/-!
# Snapshots read back

A table that is saved and loaded again is the same table, with an index made anew
(`decode_encode_eq_copy`). The layers are read back one by one: the image from its JSON form, the header
from its bytes, and the payload from between the header and the digest.
-/

namespace Relata

/-! ## Images -/

theorem IndexKind.ofJson?_toJson (kind : IndexKind) : ofJson? kind.toJson = some kind := by
  rw [ofJson?, toJson, Json.name?_ofString]
  cases kind <;> rfl

namespace TableImage

/-- An image is read back from its JSON form. -/
theorem ofJson?_toJson (image : TableImage) : ofJson? image.toJson = some image := by
  have distinct : ["name", "attributes", "domains", "key", "index", "tuples"].Nodup := by decide
  have fields : image.toJson.fields? ["name", "attributes", "domains", "key", "index", "tuples"]
      = some [Json.ofString image.name, Json.ofStrings image.attributes,
        .array (image.domains.map Domain.toJson), Json.ofStrings image.key, image.index.toJson,
        .array (image.tuples.map Tuple.toJson)] := Json.fields?_record distinct
  have rows : tuplesOfJson? (.array (image.tuples.map Tuple.toJson)) = some image.tuples :=
    mapM_map image.tuples fun t _ => Tuple.ofJson?_toJson t
  rw [ofJson?, fields]
  simp only [Option.bind_eq_bind, Option.bind_some, Json.string?_ofString, Json.strings?_ofStrings,
    Schema.domainsOfJson?_map, IndexKind.ofJson?_toJson, rows, Option.pure_def]

theorem wellSpelled_toJson (image : TableImage) : image.toJson.WellSpelled := by
  refine Json.wellSpelled_record fun m hm => ?_
  simp only [List.mem_cons, List.not_mem_nil, or_false] at hm
  rcases hm with rfl | rfl | rfl | rfl | rfl | rfl
  · exact Json.wellSpelled_ofString _
  · exact Json.wellSpelled_ofStrings _
  · exact Json.wellSpelled_array_map _ fun d _ => d.wellSpelled_toJson
  · exact Json.wellSpelled_ofStrings _
  · exact Json.wellSpelled_ofString _
  · exact Json.wellSpelled_array_map _ fun t _ => Tuple.wellSpelled_toJson t

theorem lift_eq_ok_iff {α : Type} {result : Except Fault α} {a : α} :
    StoreFault.lift result = .ok a ↔ result = .ok a :=
  mapError_eq_ok_iff

/-- The image of a table gives a copy of it, or the fault of the first row that does not fit. -/
theorem toTable_ofTable_eq (t : Table) :
    (ofTable t).toTable = (StoreFault.lift (t.tuples.forM t.schema.check)).map fun _ => t.copy := by
  have hl : t.schema.names.length = t.schema.domains.length := by
    rw [Schema.names, Schema.domains, List.length_map, List.length_map]
  rw [toTable, if_neg (show ¬(ofTable t).attributes.length ≠ (ofTable t).domains.length from not_not_intro hl)]
  simp only [ofTable, Schema.pair_names_domains]
  rw [lift_eq_ok_iff.mpr t.schema.build_self]
  show (StoreFault.lift (t.tuples.forM t.schema.check)).bind _ = _
  cases t.tuples.forM t.schema.check <;> rfl

/-- The image of a table whose rows fit gives a copy of the table. -/
theorem toTable_ofTable {t : Table} (h : ∀ row ∈ t.tuples, t.schema.check row = .ok ()) :
    (ofTable t).toTable = .ok t.copy := by
  rw [toTable_ofTable_eq, lift_eq_ok_iff.mpr (forM_eq_ok_iff.mpr h)]
  rfl

/-- A table comes of an image only when its rows fit. -/
theorem exists_of_toTable_eq_ok {image : TableImage} {t : Table} (h : image.toTable = .ok t) :
    ∃ schema, (∀ row ∈ image.tuples, schema.check row = .ok ())
      ∧ t = Table.ofTuples image.name schema image.index image.tuples := by
  rw [toTable] at h
  split at h
  · cases h
  · obtain ⟨schema, -, h⟩ := exists_of_bind_eq_ok h
    obtain ⟨⟨⟩, hc, h⟩ := exists_of_bind_eq_ok h
    exact ⟨schema, forM_eq_ok_iff.mp (lift_eq_ok_iff.mp hc), (Except.ok.inj h).symm⟩

end TableImage

/-! ## Headers -/

theorem Codec.ofCode_code (c : Codec) : ofCode c.code = .ok c := by
  cases c <;> rfl

namespace Header

theorem length_bytes (h : Header) : h.bytes.length = size := by
  simp only [bytes, List.length_append, Bytes.length_littleEndian]
  rfl

/-- A number is read at the place where its bytes stand. -/
theorem number_append {front part rest : Bytes} {position width n : Nat}
    (hf : front.length = position) (hp : part = Bytes.littleEndian width n) (hn : n < Nat.pow 256 width) :
    number (front ++ part ++ rest) position width = n := by
  have hl : part.length = width := hp ▸ Bytes.length_littleEndian width n
  rw [number, List.append_assoc, List.drop_left' hf, List.take_left' hl, hp,
    Bytes.ofLittleEndian_littleEndian width n hn]

/-- A header is read back from the front of any bytes. -/
theorem read_append (h : Header) (rest : Bytes) : read (h.bytes ++ rest) = .ok h := by
  have hs : ¬(h.bytes ++ rest).length < size := by
    rw [List.length_append, length_bytes]
    omega
  -- Each number is read behind the parts that come before it.
  have parts : h.bytes ++ rest = magic ++ (Bytes.littleEndian 2 version ++ ([h.codec.code, 0]
      ++ (Bytes.littleEndian 8 h.uncompressed.toNat
        ++ (Bytes.littleEndian 8 h.compressed.toNat ++ rest)))) := by
    simp only [bytes, List.append_assoc]
  have hm : (h.bytes ++ rest).take 4 = magic := by
    rw [parts]
    exact List.take_left' rfl
  have hv : number (h.bytes ++ rest) 4 2 = version := by
    rw [parts, ← List.append_assoc]
    exact number_append rfl rfl (by decide)
  have hc : (h.bytes ++ rest).getD 6 0 = h.codec.code := by
    rw [parts]
    rfl
  have hu : number (h.bytes ++ rest) 8 8 = h.uncompressed.toNat := by
    rw [parts, ← List.append_assoc, ← List.append_assoc, ← List.append_assoc]
    exact number_append rfl rfl h.uncompressed.toNat_lt
  have hp : number (h.bytes ++ rest) 16 8 = h.compressed.toNat := by
    rw [parts, ← List.append_assoc, ← List.append_assoc, ← List.append_assoc, ← List.append_assoc]
    exact number_append (by simp only [List.length_append, Bytes.length_littleEndian]; rfl) rfl
      h.compressed.toNat_lt
  rw [read, if_neg hs, if_neg (not_not_intro hm), hv, if_neg (not_not_intro rfl), hc, Codec.ofCode_code,
    hu, hp]
  show Except.ok (Header.mk h.codec h.uncompressed.toNat.toUInt64 h.compressed.toNat.toUInt64) = _
  rw [Nat.toUInt64_eq, UInt64.ofNat_toNat, Nat.toUInt64_eq, UInt64.ofNat_toNat]

/-- Which bytes begin with a header, and with which one. The byte that is kept free is not looked at. -/
theorem read_eq_ok_iff {bytes : Bytes} {h : Header} :
    read bytes = .ok h ↔ size ≤ bytes.length ∧ bytes.take 4 = magic ∧ number bytes 4 2 = version
      ∧ Codec.ofCode (bytes.getD 6 0) = .ok h.codec ∧ h.uncompressed = (number bytes 8 8).toUInt64
      ∧ h.compressed = (number bytes 16 8).toUInt64 := by
  unfold read
  split
  · next hs => simp; omega
  · next hs =>
    split
    · next hm => simp [hm]
    · next hm =>
      split
      · next hv => simp [hv]
      · next hv =>
        rw [not_not] at hm hv
        cases hc : Codec.ofCode (bytes.getD 6 0) with
        | error fault => simp [bind, Except.bind]
        | ok codec =>
          obtain ⟨c, u, p⟩ := h
          simp only [bind, Except.bind, pure, Except.pure, Except.ok.injEq, mk.injEq, hm, hv, true_and]
          constructor
          · rintro ⟨rfl, rfl, rfl⟩
            exact ⟨by omega, rfl, rfl, rfl⟩
          · rintro ⟨-, rfl, rfl, rfl⟩
            exact ⟨rfl, rfl, rfl⟩

/-- Equal lengths within the bound pass the check under every codec. -/
theorem check_of_eq {h : Header} {max : UInt64} (hl : h.uncompressed ≤ max)
    (he : h.compressed = h.uncompressed) : h.check max = .ok () := by
  have hm : ¬(h.uncompressed > max ∨ h.compressed > max) := by
    rw [he, or_self]
    exact UInt64.not_lt.mpr hl
  rw [check, if_neg hm, if_neg fun hc => hc.2 he]

end Header

/-! ## Snapshots -/

theorem Bytes.length_digest (bytes : Bytes) : bytes.digest.length = Snapshot.digestSize := by
  have words : ∀ chain : Digest.Chain, (Digest.bytesOf chain).length = 32 := by
    intro chain
    rw [Digest.bytesOf, List.length_flatMap]
    simp only [Bytes.length_littleEndian, List.map_const', List.sum_replicate_nat, Vector.length_toList]
  exact words _

namespace Snapshot

/-- The header of a payload that a codec keeps at its length. -/
def headerOf (codec : Codec) (t : Table) : Header :=
  ⟨codec, (payload t).length.toUInt64, (payload t).length.toUInt64⟩

/-- Header and payload, of which the digest is taken. -/
def body (t : Table) : Bytes := (headerOf .stored t).bytes ++ payload t

theorem encode_stored (t : Table) : encode t .stored = .ok (body t ++ (body t).digest) := rfl

section Sizes

variable {t : Table} (hs : (payload t).length ≤ maxPayload.toNat)
include hs

/-- The bound on payloads keeps their length within its eight bytes. -/
theorem toNat_length_payload : (payload t).length.toUInt64.toNat = (payload t).length :=
  Nat.mod_eq_of_lt (Nat.lt_of_le_of_lt hs (by decide))

theorem check_headerOf (codec : Codec) : (headerOf codec t).check maxPayload = .ok () := by
  refine Header.check_of_eq ?_ rfl
  rw [UInt64.le_iff_toNat_le]
  show (payload t).length.toUInt64.toNat ≤ _
  rwa [toNat_length_payload hs]

theorem length_body : (body t).length = Header.size + (headerOf .stored t).compressed.toNat := by
  show _ = _ + (payload t).length.toUInt64.toNat
  rw [body, List.length_append, Header.length_bytes, toNat_length_payload hs]

end Sizes

theorem read_body_append (t : Table) (rest : Bytes) : Header.read (body t ++ rest) = .ok (headerOf .stored t) := by
  rw [body, List.append_assoc]
  exact Header.read_append _ _

/-- What is loaded from the bytes of a table is the table of its image. -/
theorem decode_body_digest_eq {t : Table} (hs : (payload t).length ≤ maxPayload.toNat) :
    decode (body t ++ (body t).digest) = (TableImage.ofTable t).toTable := by
  have image : (Json.read? (payload t)).bind TableImage.ofJson? = some (TableImage.ofTable t) := by
    rw [payload, Json.read?_write (TableImage.wellSpelled_toJson _), Option.bind_some,
      TableImage.ofJson?_toJson]
  have hb := length_body hs
  have length : (body t ++ (body t).digest).length
      = Header.size + (headerOf .stored t).compressed.toNat + digestSize := by
    rw [List.length_append, hb, Bytes.length_digest]
  have packed : (body t).drop Header.size = payload t := List.drop_left' (Header.length_bytes _)
  rw [decode, read_body_append]
  show ((headerOf .stored t).check maxPayload).bind _ = _
  rw [check_headerOf hs]
  show (if (body t ++ (body t).digest).length
    ≠ Header.size + (headerOf .stored t).compressed.toNat + digestSize then _ else _) = _
  rw [if_neg (not_not_intro length), List.take_left' hb, List.drop_left' hb, if_neg (not_not_intro rfl),
    packed]
  show (if (payload t).length ≠ (payload t).length.toUInt64.toNat then _ else _) = _
  rw [if_neg (not_not_intro (toNat_length_payload hs).symm), image]

theorem decode_body_digest {t : Table} (h : ∀ row ∈ t.tuples, t.schema.check row = .ok ())
    (hs : (payload t).length ≤ maxPayload.toNat) : decode (body t ++ (body t).digest) = .ok t.copy := by
  rw [decode_body_digest_eq hs, TableImage.toTable_ofTable h]

/-- The image that the bytes between header and digest spell. -/
def spelled? (bytes : Bytes) : Option TableImage :=
  (Json.read? ((bytes.take (bytes.length - digestSize)).drop Header.size)).bind TableImage.ofJson?

/-- Whatever the bytes are, a table that is decoded is that of the image which they spell. -/
theorem of_decode_eq_ok {bytes : Bytes} {t : Table} (h : decode bytes = .ok t) :
    ∃ image, spelled? bytes = some image ∧ image.toTable = .ok t := by
  obtain ⟨header, -, h⟩ := exists_of_bind_eq_ok h
  obtain ⟨⟨⟩, -, h⟩ := exists_of_bind_eq_ok h
  simp only at h
  split at h
  · cases h
  next hl =>
  split at h
  · cases h
  obtain ⟨text, ht, h⟩ := exists_of_bind_eq_ok h
  have packed : text = (bytes.take (bytes.length - digestSize)).drop Header.size := by
    rw [not_not.mp hl, Nat.add_sub_cancel]
    cases hc : header.codec with
    | stored => rw [hc] at ht; exact (Except.ok.inj ht).symm
    | zstd => rw [hc] at ht; cases ht
    | lz4 => rw [hc] at ht; cases ht
  split at h
  · cases h
  split at h
  · cases h
  next image hi => exact ⟨image, by rw [spelled?, ← packed, hi], h⟩

/-- A table whose rows fit and whose payload is not too large is saved, and what is loaded from the
bytes is a copy of it. -/
theorem decode_encode_eq_copy {t : Table} (h : ∀ row ∈ t.tuples, t.schema.check row = .ok ())
    (hs : (payload t).length ≤ maxPayload.toNat) :
    ∃ bytes, encode t .stored = .ok bytes ∧ decode bytes = .ok t.copy :=
  ⟨_, encode_stored t, decode_body_digest h hs⟩

/-- A well-formed table is saved, and what is loaded has its name, its schema, its kind of index and
its rows, and finds the same row under every key. -/
theorem load_of_save {t : Table} (h : t.WellFormed) (hs : (payload t).length ≤ maxPayload.toNat) :
    ∃ bytes t', encode t .stored = .ok bytes ∧ decode bytes = .ok t' ∧ t'.name = t.name
      ∧ t'.schema = t.schema ∧ t'.indexKind = t.indexKind ∧ t'.tuples = t.tuples
      ∧ ∀ key, t'.find? key = t.find? key := by
  obtain ⟨bytes, he, hd⟩ := decode_encode_eq_copy h.conforms hs
  refine ⟨bytes, t.copy, he, hd, rfl, rfl, Table.indexKind_ofTuples .., rfl, fun key => ?_⟩
  rw [h.find?_eq]
  exact Table.find?_ofTuples ..

theorem load_of_save_levels :
    Table.levels.WellFormed ∧ (payload Table.levels).length ≤ maxPayload.toNat
      ∧ ∃ bytes t', encode Table.levels .stored = .ok bytes ∧ decode bytes = .ok t'
        ∧ t'.name = Table.levels.name ∧ t'.schema = Table.levels.schema
        ∧ t'.indexKind = Table.levels.indexKind ∧ t'.tuples = Table.levels.tuples
        ∧ ∀ key, t'.find? key = Table.levels.find? key :=
  have h : Table.levels.WellFormed := .ofTuples "levels" .btree Table.levelsRows_conform
  have hs : (payload Table.levels).length ≤ maxPayload.toNat := by decide +kernel
  ⟨h, hs, load_of_save h hs⟩

end Snapshot

end Relata
