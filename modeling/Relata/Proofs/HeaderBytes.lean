import Relata.Proofs.Corruption
/-!
# Headers, byte for byte

The bytes of a header and the header that bytes begin with determine each other, but for the byte that is kept free.
A header is read back from its own bytes, whatever follows them (`Record.read_bytes_append`). Which bytes are read at
all is said by four conditions on them (`exists_read_iff`), and what is read has the bytes that it was read from, with
the free one cleared (`bytes_of_read`).
-/

namespace Relata

namespace Bytes

/-- Bytes are the digits of the number that they spell. -/
theorem littleEndian_ofLittleEndian (bytes : Bytes) : littleEndian bytes.length (ofLittleEndian bytes) = bytes := by
  apply ofLittleEndian_inj (length_littleEndian ..)
  exact ofLittleEndian_littleEndian _ _ (ofLittleEndian_lt bytes)

theorem getElem?_littleEndian {width i : Nat} (h : i < width) (n : Nat) :
    (littleEndian width n)[i]? = some (n / Nat.pow 256 i).toUInt8 := by
  induction width generalizing i n with
  | zero => omega
  | succ width ih =>
    cases i with
    | zero =>
      show some n.toUInt8 = some (n / 1).toUInt8
      rw [Nat.div_one]
    | succ i =>
      show (littleEndian width (n / 256))[i]? = _
      rw [ih (by omega), Nat.div_div_eq_div_mul, Nat.mul_comm 256]
      rfl

/-- What stands in a part of some bytes. -/
theorem getElem?_part {front part : Bytes} {position i : Nat} (hf : front.length = position) (hi : i < part.length)
    (rest : Bytes) : (front ++ part ++ rest)[position + i]? = part[i]? := by
  rw [List.append_assoc, List.getElem?_append_right (by omega), ← hf, Nat.add_sub_cancel_left,
    List.getElem?_append_left hi]

end Bytes

namespace Header

section Read

variable {bytes : Bytes} {h : Header}

/-- What bytes have that are read as a header: room for one, the mark, the version with its lower byte first, and the
code of a codec. -/
structure Begins (bytes : Bytes) : Prop where
  size_le : size ≤ bytes.length
  mark : bytes.take 4 = [0x52, 0x4C, 0x41, 0x47]
  version : (bytes.drop 4).take 2 = [1, 0]
  code : bytes[6]? = some 0 ∨ bytes[6]? = some 1 ∨ bytes[6]? = some 2

/-- A number is written as it was read. -/
theorem littleEndian_number {position width : Nat} (h : position + width ≤ bytes.length) :
    Bytes.littleEndian width (number bytes position width) = (bytes.drop position).take width := by
  have width_eq : ((bytes.drop position).take width).length = width := by
    rw [List.length_take, List.length_drop]
    omega
  have back := Bytes.littleEndian_ofLittleEndian ((bytes.drop position).take width)
  rwa [width_eq] at back

theorem number_eq_version_iff (hs : size ≤ bytes.length) :
    number bytes 4 2 = version ↔ (bytes.drop 4).take 2 = [1, 0] := by
  have room : 4 + 2 ≤ bytes.length := Nat.le_trans (by decide) hs
  constructor
  · intro hv
    rw [← littleEndian_number room, hv]
    rfl
  · intro hv
    rw [number, hv]
    rfl

theorem exists_ofCode_iff {code : UInt8} : (∃ c, Codec.ofCode code = .ok c) ↔ code = 0 ∨ code = 1 ∨ code = 2 := by
  constructor
  · rintro ⟨c, hc⟩
    rw [← Codec.code_of_ofCode hc]
    cases c with
    | stored => exact .inl rfl
    | zstd => exact .inr (.inl rfl)
    | lz4 => exact .inr (.inr rfl)
  · rintro (rfl | rfl | rfl)
    · exact ⟨_, Codec.ofCode_code .stored⟩
    · exact ⟨_, Codec.ofCode_code .zstd⟩
    · exact ⟨_, Codec.ofCode_code .lz4⟩

/-- Which bytes begin with a header. -/
theorem exists_read_iff : (∃ h, read bytes = .ok h) ↔ Begins bytes := by
  have code (hs : size ≤ bytes.length) : bytes[6]? = some (bytes.getD 6 0) := by
    have room : 6 < bytes.length := Nat.lt_of_lt_of_le (by decide) hs
    rw [List.getD_eq_getElem?_getD, List.getElem?_eq_getElem room, Option.getD_some]
  constructor
  · rintro ⟨h, hr⟩
    obtain ⟨hs, hm, hv, hc, -, -⟩ := read_eq_ok_iff.mp hr
    refine ⟨hs, hm, (number_eq_version_iff hs).mp hv, ?_⟩
    simpa only [code hs, Option.some.injEq] using exists_ofCode_iff.mp ⟨_, hc⟩
  · intro begins
    have hc := begins.code
    simp only [code begins.size_le, Option.some.injEq] at hc
    obtain ⟨c, hc⟩ := exists_ofCode_iff.mpr hc
    have hv := (number_eq_version_iff begins.size_le).mpr begins.version
    exact ⟨⟨c, _, _⟩, read_eq_ok_iff.mpr ⟨begins.size_le, begins.mark, hv, hc, rfl, rfl⟩⟩

/-- The parts of a header, in the places where they are read. -/
theorem take_size_eq (hs : size ≤ bytes.length) : ∃ free, bytes.take size = bytes.take 4 ++ (bytes.drop 4).take 2
    ++ [bytes.getD 6 0, free] ++ (bytes.drop 8).take 8 ++ (bytes.drop 16).take 8 := by
  have room : 24 ≤ bytes.length := hs
  have h6 : 6 < bytes.length := by omega
  have h7 : 7 < bytes.length := by omega
  have pair : (bytes.drop 6).take 2 = [bytes.getD 6 0, bytes[7]] := by
    rw [List.drop_eq_getElem_cons h6, List.drop_eq_getElem_cons h7, List.getD_eq_getElem?_getD,
      List.getElem?_eq_getElem h6]
    rfl
  refine ⟨bytes[7], ?_⟩
  calc bytes.take (4 + 2 + 2 + 8 + 8)
      = bytes.take 4 ++ (bytes.drop 4).take 2 ++ (bytes.drop 6).take 2 ++ (bytes.drop 8).take 8
        ++ (bytes.drop 16).take 8 := by simp only [List.take_add]
    _ = _ := by rw [pair]

/-- What is read as a header has the bytes that it was read from, with the free one cleared. -/
theorem bytes_of_read (hr : read bytes = .ok h) : h.bytes = (bytes.take size).set 7 0 := by
  obtain ⟨hs, hm, hv, hc, hu, hk⟩ := read_eq_ok_iff.mp hr
  have room : 24 ≤ bytes.length := hs
  have toNat_eq : ∀ position, (number bytes position 8).toUInt64.toNat = number bytes position 8 :=
    fun position => Nat.mod_eq_of_lt (number_lt bytes position 8)
  obtain ⟨free, parts⟩ := take_size_eq hs
  rw [Header.bytes, parts, hu, hk, toNat_eq, toNat_eq, littleEndian_number (by omega), littleEndian_number (by omega),
    Codec.code_of_ofCode hc, hm, (number_eq_version_iff hs).mp hv]
  rfl

end Read

/-! ## Headers with their version -/

/-- A header with the version that stands in its bytes. -/
structure Record where
  version : UInt16
  codec : Codec
  uncompressed : UInt64
  compressed : UInt64
  deriving DecidableEq

/-- A header as it is made, with the one version there is. -/
def record (h : Header) : Record := ⟨1, h.codec, h.uncompressed, h.compressed⟩

namespace Record

def bytes (r : Record) : Bytes :=
  magic ++ Bytes.littleEndian 2 r.version.toNat ++ [r.codec.code, 0] ++ Bytes.littleEndian 8 r.uncompressed.toNat
    ++ Bytes.littleEndian 8 r.compressed.toNat

/-- The record that bytes begin with. -/
def read (bytes : Bytes) : Except StoreFault Record :=
  if bytes.length < size then .error (.format .shortHeader)
  else if bytes.take 4 ≠ magic then .error (.format .badMagic)
  else
    let version := (number bytes 4 2).toUInt16
    if version ≠ 1 then .error (.format (.unsupportedVersion version.toNat))
    else (Codec.ofCode (bytes.getD 6 0)).map fun codec =>
      ⟨version, codec, (number bytes 8 8).toUInt64, (number bytes 16 8).toUInt64⟩

theorem bytes_record (h : Header) : h.record.bytes = h.bytes := rfl

/-- Headers are read with the version as without it, and refused with the same fault. -/
theorem read_eq_map_read (bytes : Bytes) : read bytes = (Header.read bytes).map record := by
  have toNat_eq : (number bytes 4 2).toUInt16.toNat = number bytes 4 2 := Nat.mod_eq_of_lt (number_lt bytes 4 2)
  have version_iff : (number bytes 4 2).toUInt16 = 1 ↔ number bytes 4 2 = Header.version := by
    rw [← UInt16.toNat_inj, toNat_eq]
    rfl
  rw [read, Header.read]
  by_cases hs : bytes.length < size
  · rw [if_pos hs, if_pos hs]
    rfl
  by_cases hm : bytes.take 4 ≠ magic
  · rw [if_neg hs, if_pos hm, if_neg hs, if_pos hm]
    rfl
  rw [if_neg hs, if_neg hm, if_neg hs, if_neg hm]
  by_cases hv : number bytes 4 2 = Header.version
  · rw [if_neg (not_not_intro (version_iff.mpr hv)), if_neg (not_not_intro hv), version_iff.mpr hv]
    cases Codec.ofCode (bytes.getD 6 0) <;> rfl
  · rw [if_pos (mt version_iff.mp hv), if_pos hv, toNat_eq]
    rfl

theorem read_bytes_append (h : Header) (suffix : Bytes) : read (h.record.bytes ++ suffix) = .ok h.record := by
  rw [read_eq_map_read, bytes_record, read_append]
  rfl

/-- Where the parts of a header stand, and with which byte of a number first. -/
structure Laid (r : Record) : Prop where
  length_eq : r.bytes.length = size
  mark : r.bytes.take 4 = [0x52, 0x4C, 0x41, 0x47]
  version_at : ∀ i < 2, r.bytes[4 + i]? = some (r.version.toNat / Nat.pow 256 i).toUInt8
  code_at : r.bytes[6]? = some r.codec.code
  free_at : r.bytes[7]? = some 0
  uncompressed_at : ∀ i < 8, r.bytes[8 + i]? = some (r.uncompressed.toNat / Nat.pow 256 i).toUInt8
  compressed_at : ∀ i < 8, r.bytes[16 + i]? = some (r.compressed.toNat / Nat.pow 256 i).toUInt8

theorem laid (r : Record) : r.Laid where
  length_eq := by
    simp only [bytes, List.length_append, Bytes.length_littleEndian]
    rfl
  mark := rfl
  version_at i hi := by
    rw [bytes, List.append_assoc, List.append_assoc, Bytes.getElem?_part (show magic.length = 4 from rfl)
      (by rwa [Bytes.length_littleEndian]), Bytes.getElem?_littleEndian hi]
  code_at := rfl
  free_at := rfl
  uncompressed_at i hi := by
    rw [bytes, Bytes.getElem?_part _ (by rwa [Bytes.length_littleEndian]), Bytes.getElem?_littleEndian hi]
    rfl
  compressed_at i hi := by
    rw [bytes, ← List.append_nil (_ ++ _), Bytes.getElem?_part _ (by rwa [Bytes.length_littleEndian]),
      Bytes.getElem?_littleEndian hi]
    simp only [List.length_append, Bytes.length_littleEndian]
    rfl

/-- A header is read back from the front of any bytes, with its version. Bytes are read as a header exactly where they
begin like one, and the header has the bytes it was read from, with the free one cleared. -/
theorem read_iff_begins :
    (∀ bytes, read bytes = (Header.read bytes).map record)
    ∧ (∀ (h : Header) suffix, read (h.record.bytes ++ suffix) = .ok h.record)
    ∧ (∀ bytes, (∃ r, read bytes = .ok r) ↔ Begins bytes)
    ∧ (∀ bytes r, read bytes = .ok r → r.version = 1 ∧ r.bytes = (bytes.take size).set 7 0)
    ∧ ∀ r : Record, r.Laid := by
  refine ⟨read_eq_map_read, read_bytes_append, ?_, ?_, laid⟩
  · intro bytes
    rw [← exists_read_iff]
    simp only [read_eq_map_read, map_eq_ok_iff]
    exact ⟨fun ⟨_, h, hr, _⟩ => ⟨h, hr⟩, fun ⟨h, hr⟩ => ⟨_, h, hr, rfl⟩⟩
  · intro bytes r hr
    rw [read_eq_map_read, map_eq_ok_iff] at hr
    obtain ⟨h, hr, rfl⟩ := hr
    exact ⟨rfl, bytes_of_read hr⟩

/-- Lengths up to the greatest are read back, and the byte that is kept free is cleared. -/
theorem read_iff_begins_longest :
    let r : Record := record ⟨.lz4, 0xFFFFFFFFFFFFFFFF, 0x8000000000000001⟩
    let bytes : Bytes := (r.bytes ++ [0xAB, 0xCD]).set 7 0xEE
    read (r.bytes ++ [0xAB, 0xCD]) = .ok r ∧ Begins bytes ∧ read bytes = .ok r
      ∧ r.bytes = (bytes.take size).set 7 0 ∧ r.Laid := by
  intro r bytes
  obtain ⟨-, back, begins, cleared, laid⟩ := read_iff_begins
  have hr : read bytes = .ok r := by decide +kernel
  exact ⟨back ⟨.lz4, _, _⟩ _, (begins bytes).mp ⟨r, hr⟩, hr, (cleared bytes r hr).2, laid r⟩

end Record

end Header

end Relata
