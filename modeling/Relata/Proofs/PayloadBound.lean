import Relata.Proofs.Catalogs
import Relata.Proofs.Corruption
/-!
# The bound on payloads

Reading a snapshot refuses a payload beyond the bound, and writing one does not look at the bound. So a table
with a payload that is too large is saved without a fault, in place of what its slot held, and is not loaded
again (`save_disregards_bound`).
-/

namespace Relata

namespace Snapshot

/-! ## Payloads of any length -/

/-- Nothing but header, payload and digest is encoded, and by no codec but the one that stores. -/
theorem of_encode_eq_ok {t : Table} {codec : Codec} {bytes : Bytes} (h : encode t codec = .ok bytes) :
    codec = .stored ∧ bytes = body t ++ (body t).digest := by
  cases codec with
  | stored => exact ⟨rfl, (Except.ok.inj h).symm⟩
  | zstd => cases h
  | lz4 => cases h

/-- What the length of its payload decides about a table that has been encoded. -/
structure Weighed (t : Table) (bytes : Bytes) : Prop where
  read_eq : Header.read bytes = .ok (headerOf .stored t)
  check_iff : (headerOf .stored t).check maxPayload = .ok () ↔ (payload t).length ≤ maxPayload.toNat
  decode_ok : (payload t).length ≤ maxPayload.toNat → ∃ t', decode bytes = .ok t' ∧ t'.Alike t
  decode_error : maxPayload.toNat < (payload t).length → decode bytes = .error (.format
    (.oversized (payload t).length.toUInt64 (payload t).length.toUInt64 maxPayload))

section Large

variable {t : Table} (hn : (payload t).length < UInt64.size) (hl : maxPayload.toNat < (payload t).length)
include hn hl

theorem check_headerOf_eq_error (codec : Codec) : (headerOf codec t).check maxPayload = .error (.format
    (.oversized (payload t).length.toUInt64 (payload t).length.toUInt64 maxPayload)) := by
  -- Below 64 bits the header holds the length itself.
  have above : (headerOf codec t).uncompressed > maxPayload := by
    rw [gt_iff_lt, UInt64.lt_iff_toNat_lt]
    show _ < (payload t).length.toUInt64.toNat
    rwa [Nat.toUInt64_eq, UInt64.toNat_ofNat_of_lt' hn]
  rw [Header.check, if_pos (.inl above)]
  rfl

theorem decode_body_digest_eq_error : decode (body t ++ (body t).digest) = .error (.format
    (.oversized (payload t).length.toUInt64 (payload t).length.toUInt64 maxPayload)) :=
  decode_of_check_eq_error (read_body_append t _) (check_headerOf_eq_error hn hl .stored)

end Large

theorem weighed {t : Table} (h : t.WellFormed) (hn : (payload t).length < UInt64.size) :
    Weighed t (body t ++ (body t).digest) where
  read_eq := read_body_append t _
  check_iff := by
    constructor
    · intro hc
      by_contra hl
      rw [check_headerOf_eq_error hn (Nat.lt_of_not_le hl)] at hc
      cases hc
    · intro hs
      exact check_headerOf hs .stored
  decode_ok hs := ⟨t.copy, decode_body_digest h.conforms hs, h.alike_copy⟩
  decode_error hl := decode_body_digest_eq_error hn hl

end Snapshot

namespace Catalog

theorem load_save {c : Catalog Memory} {t : Table} (hv : isSlotName t.name = true) {bytes : Bytes}
    (he : Snapshot.encode t c.codec = .ok bytes) :
    (c.call (.save t)).1 = .ok (.path (t.name ++ ending))
      ∧ (c.call (.save t)).2.load t.name = Snapshot.decode bytes := by
  rw [call_save c hv he]
  refine ⟨rfl, load_of_slot?_eq_some _ hv ?_⟩
  rw [slot?_save, if_pos rfl]

/-- A table that is encoded passes the check of its header, and is read again, exactly when its payload is
within the bound. A save succeeds either way, and leaves in the slot what was encoded. -/
theorem save_disregards_bound {t : Table} (h : t.WellFormed) (hn : (Snapshot.payload t).length < UInt64.size)
    {codec : Codec} {bytes : Bytes} (he : Snapshot.encode t codec = .ok bytes) :
    Snapshot.Weighed t bytes ∧ ∀ c : Catalog Memory, c.codec = codec → isSlotName t.name = true →
      (c.call (.save t)).1 = .ok (.path (t.name ++ ending))
        ∧ (c.call (.save t)).2.load t.name = Snapshot.decode bytes := by
  obtain ⟨-, hb⟩ := Snapshot.of_encode_eq_ok he
  constructor
  · rw [hb]
    exact Snapshot.weighed h hn
  · intro c hc hv
    exact load_save hv (hc ▸ he)

theorem save_disregards_bound_levels :
    Table.levels.WellFormed ∧ (Snapshot.payload Table.levels).length < UInt64.size
      ∧ ∃ bytes, Snapshot.encode Table.levels .stored = .ok bytes ∧ Snapshot.Weighed Table.levels bytes
        ∧ ((inMemory .stored).call (.save Table.levels)).2.load "levels" = Snapshot.decode bytes :=
  have h : Table.levels.WellFormed := .ofTuples "levels" .btree Table.levelsRows_conform
  have hn : (Snapshot.payload Table.levels).length < UInt64.size := by decide +kernel
  have weighed := save_disregards_bound h hn (Snapshot.encode_stored Table.levels)
  ⟨h, hn, _, Snapshot.encode_stored _, weighed.1, (weighed.2 (inMemory .stored) rfl (by decide)).2⟩

end Catalog

/-! ## A table that is saved and lost -/

namespace Bytes

theorem utf8_append (s t : String) : utf8 (s ++ t) = utf8 s ++ utf8 t := by
  simp [utf8, String.toByteArray_append]

/-- A letter stands for itself, however often it comes. -/
theorem escape_replicate (n : Nat) :
    Json.escape (utf8 (String.ofList (List.replicate n 'a'))) = List.replicate n 0x61 := by
  have letter : Json.escape (utf8 (String.ofList ['a'])) = [0x61] := by decide
  induction n with
  | zero => decide
  | succ n ih =>
    have split : String.ofList (List.replicate (n + 1) 'a')
        = String.ofList ['a'] ++ String.ofList (List.replicate n 'a') := by
      rw [← String.ofList_append]
      rfl
    rw [split, utf8_append, Json.escape, List.flatMap_append]
    show Json.escape _ ++ Json.escape _ = _
    rw [letter, ih]
    rfl

end Bytes

namespace TableImage

/-- The rows of an image add to what is written of it what is written of them. -/
theorem length_write_tuples (image : TableImage) (tuples : List Tuple) :
    { image with tuples }.toJson.write.length + (Json.array (image.tuples.map Tuple.toJson)).write.length
      = image.toJson.write.length + (Json.array (tuples.map Tuple.toJson)).write.length := by
  simp only [toJson, Json.record, List.map_cons, List.map_nil, Json.write, Json.writeMembers, List.length_append,
    List.length_cons]
  omega

end TableImage

namespace Snapshot

/-- A table of one row that is a text. -/
def note (text : String) : Table := .ofTuples "note"
  ⟨[⟨"text", .string⟩], ["text"], by decide, by decide, by decide, by decide, by decide⟩ .hash [[.string text]]

theorem wellFormed_note (text : String) : (note text).WellFormed := by
  apply Table.WellFormed.ofTuples
  intro row hr
  rw [List.mem_singleton.mp hr]
  rfl

theorem length_write_row (text : String) :
    (Json.array ([[Value.string text]].map Tuple.toJson)).write.length
      = 17 + (Json.escape (Bytes.utf8 text)).length := by
  have name : (Json.escape (Bytes.utf8 (Value.string text).domain.name)).length = 6 :=
    show (Json.escape (Bytes.utf8 "String")).length = 6 by decide
  simp only [Tuple.toJson, Value.toJson, Value.payloadJson, Json.ofString, Json.record, List.map_cons, List.map_nil,
    Json.write, Json.writeItems, Json.writeMembers, List.length_append, List.length_cons, List.length_nil]
  omega

/-- The payload of a note grows with what is written of its text. -/
theorem length_payload_note (text : String) :
    (payload (note text)).length = 115 + (Json.escape (Bytes.utf8 text)).length := by
  have empty : (payload (note "")).length = 115 := by decide +kernel
  -- The image of a note differs from that of the empty one in its only row.
  have grown : (payload (note text)).length + _ = (payload (note "")).length + _ :=
    (TableImage.ofTable (note "")).length_write_tuples [[.string text]]
  rw [length_write_row text, empty] at grown
  have row : (Json.array ((TableImage.ofTable (note "")).tuples.map Tuple.toJson)).write.length = 17 := by
    decide +kernel
  omega

/-- A note with a payload of one byte more than the bound. -/
def long : Table := note (String.ofList (List.replicate 268435342 'a'))

theorem length_payload_long : (payload long).length = 268435457 := by
  rw [long, length_payload_note, Bytes.escape_replicate, List.length_replicate]

theorem wellFormed_long : long.WellFormed := wellFormed_note _

theorem weighed_long : Weighed long (body long ++ (body long).digest) :=
  weighed wellFormed_long (by rw [length_payload_long]; decide)

theorem headerOf_long : headerOf .stored long = ⟨.stored, 268435457, 268435457⟩ := by
  rw [headerOf, length_payload_long]
  rfl

end Snapshot

namespace Catalog

open Snapshot

/-- A note is loaded until a longer one takes its place, the header of which fails the check. -/
theorem long_note_is_lost :
    let c := (inMemory .stored).after [.save (note "")]
    (∃ t, c.load "note" = .ok t ∧ t.Alike (note "")) ∧ long.WellFormed
      ∧ (c.call (.save long)).1 = .ok (.path "note.dbf")
      ∧ (c.call (.save long)).2.load "note" = .error (.format (.oversized 268435457 268435457 maxPayload))
      ∧ ∃ bytes header, encode long c.codec = .ok bytes
        ∧ bytes.take Header.size
          = [0x52, 0x4C, 0x41, 0x47, 1, 0, 0, 0, 1, 0, 0, 0x10, 0, 0, 0, 0, 1, 0, 0, 0x10, 0, 0, 0, 0]
        ∧ Header.read bytes = .ok header ∧ header.check maxPayload ≠ .ok () := by
  intro c
  -- The catalog is left as it stands, and of the long payload only the length is used.
  have stored : c.codec = .stored := codec_after _ _
  have before : c.load "note" = _ := (load_save (c := inMemory .stored) (t := note "") (by decide) (encode_stored _)).2
  have after := load_save (c := c) (t := long) (by decide) (stored ▸ encode_stored _)
  have lost := weighed_long.decode_error (by rw [length_payload_long]; decide)
  rw [length_payload_long] at lost
  have short : (payload (note "")).length ≤ maxPayload.toNat := by decide +kernel
  have kept := decode_body_digest (wellFormed_note "").conforms short
  have front : (body long ++ (body long).digest).take Header.size = (headerOf .stored long).bytes := by
    rw [body, List.append_assoc, List.take_left' (Header.length_bytes _)]
  refine ⟨⟨_, before.trans kept, (wellFormed_note "").alike_copy⟩, wellFormed_long, after.1, after.2.trans lost,
    _, _, stored ▸ encode_stored _, ?_, weighed_long.read_eq, ?_⟩
  · rw [front, headerOf_long]
    rfl
  · rw [headerOf_long]
    decide

end Catalog

end Relata
