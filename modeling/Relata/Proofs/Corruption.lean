import Relata.Proofs.Snapshots
/-!
# Changed snapshots

A snapshot of which one byte is changed, of which some bytes are cut off, or to which some are added, is
never read as a table (`change_is_refused`). A change of the header's fixed part or of a length is a fault
of the format, since the two lengths must agree; a code that no codec has is refused as such; and every
other change is left to the digest, of which it is assumed only that it differs.
-/

namespace Relata

namespace Bytes

/-- The bytes with the one at a position xored with a mask. -/
def xorAt (position : Nat) (mask : UInt8) (bytes : Bytes) : Bytes :=
  bytes.modify position (· ^^^ mask)

variable {position : Nat} {mask : UInt8}

@[simp] theorem length_xorAt (bytes : Bytes) : (bytes.xorAt position mask).length = bytes.length :=
  List.length_modify ..

theorem getElem?_xorAt (bytes : Bytes) (i : Nat) :
    (bytes.xorAt position mask)[i]? = if position = i then bytes[i]?.map (· ^^^ mask) else bytes[i]? := by
  rw [xorAt, List.getElem?_modify]
  by_cases h : position = i <;> simp [h]

theorem xorAt_append_left {front : Bytes} (h : position < front.length) (rest : Bytes) :
    (front ++ rest).xorAt position mask = front.xorAt position mask ++ rest := by
  apply List.ext_getElem?
  intro i
  simp only [getElem?_xorAt, List.getElem?_append, length_xorAt]
  grind

theorem xorAt_append_right {front : Bytes} (h : front.length ≤ position) (rest : Bytes) :
    (front ++ rest).xorAt position mask = front ++ rest.xorAt (position - front.length) mask := by
  apply List.ext_getElem?
  intro i
  simp only [getElem?_xorAt, List.getElem?_append]
  grind

/-- A mask that is not zero changes the byte. -/
theorem xorAt_ne {bytes : Bytes} (hp : position < bytes.length) (hm : mask ≠ 0) :
    bytes.xorAt position mask ≠ bytes := by
  intro h
  have he := congrArg (fun l : Bytes => l[position]?) h
  simp only [getElem?_xorAt, if_true, List.getElem?_eq_getElem hp, Option.map_some, Option.some.injEq] at he
  exact hm ((UInt8.xor_right_inj _).mp (he.trans UInt8.xor_zero.symm))

end Bytes

/-! ## Codes of codecs -/

theorem Codec.code_of_ofCode {code : UInt8} {c : Codec} (h : ofCode code = .ok c) : c.code = code := by
  rw [ofCode] at h
  split at h
  · next d hd =>
    cases h
    simpa using List.find?_some hd
  · cases h

/-- A code that no codec has is refused. -/
theorem Codec.ofCode_eq_error {code : UInt8} (h : ∀ c : Codec, c.code ≠ code) :
    ofCode code = .error (.unsupported none) := by
  have none : all.find? (fun c => c.code == code) = none := by
    rw [List.find?_eq_none]
    intro c _ hc
    exact h c (by simpa using hc)
  rw [ofCode, none]

/-! ## Headers with a changed byte -/

namespace Header

/-- Eight bytes spell a number of 64 bits. -/
theorem toUInt64_inj {a b : Nat} (ha : a < Nat.pow 256 8) (hb : b < Nat.pow 256 8)
    (h : a.toUInt64 = b.toUInt64) : a = b := by
  have toNat {n : Nat} (hn : n < Nat.pow 256 8) : n.toUInt64.toNat = n := Nat.mod_eq_of_lt hn
  rw [← toNat ha, ← toNat hb, h]

variable {position : Nat} {mask : UInt8} {bytes : Bytes} {h : Header}

theorem number_lt (bytes : Bytes) (start width : Nat) : number bytes start width < Nat.pow 256 width := by
  have hl : ((bytes.drop start).take width).length ≤ width := List.length_take_le ..
  exact Nat.lt_of_lt_of_le (Bytes.ofLittleEndian_lt _) (Nat.pow_le_pow_right (by decide) hl)

/-- A number stays when a byte outside of it changes. -/
theorem number_xorAt_of_outside {start width : Nat} (hp : position < start ∨ start + width ≤ position) :
    number (bytes.xorAt position mask) start width = number bytes start width := by
  rw [number, number, Bytes.xorAt]
  rcases hp with hp | hp
  · rw [List.drop_modify_of_lt _ _ _ _ hp]
  · rw [List.drop_modify_of_ge _ _ _ _ (by omega), List.take_modify, List.modify_eq_self]
    have := List.length_take_le width (bytes.drop start)
    omega

/-- A number changes with each of its bytes. -/
theorem number_xorAt_ne {start width : Nat} (hl : start + width ≤ bytes.length) (hp : start ≤ position)
    (hw : position < start + width) (hm : mask ≠ 0) :
    number (bytes.xorAt position mask) start width ≠ number bytes start width := by
  intro he
  rw [number, number, Bytes.xorAt, List.drop_modify_of_ge _ _ _ _ hp, List.take_modify] at he
  refine Bytes.xorAt_ne ?_ hm (Bytes.ofLittleEndian_inj (Bytes.length_xorAt _) he)
  rw [List.length_take, List.length_drop]
  omega

section Changed

variable (hr : read bytes = .ok h)
include hr

theorem getD_xorAt : (bytes.xorAt position mask).getD 6 0
    = if position = 6 then bytes.getD 6 0 ^^^ mask else bytes.getD 6 0 := by
  have hs : 6 < bytes.length := Nat.lt_of_lt_of_le (by decide) (read_eq_ok_iff.mp hr).1
  rw [List.getD_eq_getElem?_getD, List.getD_eq_getElem?_getD, Bytes.getElem?_xorAt,
    List.getElem?_eq_getElem hs]
  split <;> rfl

theorem take_xorAt (hp : 4 ≤ position) : (bytes.xorAt position mask).take 4 = magic := by
  have hl : (bytes.take 4).length ≤ 4 := List.length_take_le ..
  rw [Bytes.xorAt, List.take_modify, List.modify_eq_self (by omega)]
  exact (read_eq_ok_iff.mp hr).2.1

/-- A change of the mark or of the version is a fault of the format. -/
theorem read_xorAt_mark (hm : mask ≠ 0) (hp : position < 6) :
    ∃ fault, read (bytes.xorAt position mask) = .error (.format fault) := by
  obtain ⟨hs, hmark, hv, -⟩ := read_eq_ok_iff.mp hr
  have h24 : 24 ≤ bytes.length := hs
  rw [read, Bytes.length_xorAt, if_neg (by omega)]
  by_cases h4 : position < 4
  · have ne : (bytes.xorAt position mask).take 4 ≠ magic := by
      rw [Bytes.xorAt, List.take_modify, ← hmark]
      apply Bytes.xorAt_ne _ hm
      rw [List.length_take]
      omega
    rw [if_pos ne]
    exact ⟨_, rfl⟩
  · have ne : number (bytes.xorAt position mask) 4 2 ≠ version := by
      rw [← hv]
      exact number_xorAt_ne (by omega) (by omega) (by omega) hm
    rw [if_neg (not_not_intro (take_xorAt hr (by omega))), if_pos ne]
    exact ⟨_, rfl⟩

/-- Behind the version, a change of a byte changes what is read there and nothing else. -/
theorem read_xorAt {codec : Codec} (hp : 6 ≤ position)
    (hc : Codec.ofCode ((bytes.xorAt position mask).getD 6 0) = .ok codec) :
    read (bytes.xorAt position mask) = .ok ⟨codec, (number (bytes.xorAt position mask) 8 8).toUInt64,
      (number (bytes.xorAt position mask) 16 8).toUInt64⟩ := by
  obtain ⟨hs, -, hv, -⟩ := read_eq_ok_iff.mp hr
  refine read_eq_ok_iff.mpr ⟨by rwa [Bytes.length_xorAt], take_xorAt hr (by omega), ?_, hc, rfl, rfl⟩
  rw [number_xorAt_of_outside (by omega), hv]

theorem read_xorAt_of_error {fault : StoreFault} (hp : 6 ≤ position)
    (hc : Codec.ofCode ((bytes.xorAt position mask).getD 6 0) = .error fault) :
    read (bytes.xorAt position mask) = .error fault := by
  obtain ⟨hs, -, hv, -⟩ := read_eq_ok_iff.mp hr
  rw [read, Bytes.length_xorAt, if_neg (Nat.not_lt.mpr hs),
    if_neg (not_not_intro (take_xorAt hr (by omega))), number_xorAt_of_outside (by omega),
    if_neg (not_not_intro hv), hc]
  rfl

/-- Outside of the two lengths, such a change leaves the lengths. -/
theorem read_xorAt_of_outside {codec : Codec} (hp : 6 ≤ position) (ho : position < 8 ∨ size ≤ position)
    (hc : Codec.ofCode ((bytes.xorAt position mask).getD 6 0) = .ok codec) :
    read (bytes.xorAt position mask) = .ok { h with codec } := by
  obtain ⟨-, -, -, -, hu, hn⟩ := read_eq_ok_iff.mp hr
  have h24 : position < 8 ∨ 24 ≤ position := ho
  rw [read_xorAt hr hp hc, number_xorAt_of_outside (by omega), number_xorAt_of_outside (by omega), hu, hn]

/-- Of two lengths that are equal, a change moves one. -/
theorem read_xorAt_lengths (hm : mask ≠ 0) (hp : 8 ≤ position) (hz : position < size)
    (he : h.compressed = h.uncompressed) :
    ∃ u n, read (bytes.xorAt position mask) = .ok ⟨h.codec, u, n⟩ ∧ n ≠ u := by
  obtain ⟨hs, -, -, hc, hu, hn⟩ := read_eq_ok_iff.mp hr
  have h24 : 24 ≤ bytes.length ∧ position < 24 := ⟨hs, hz⟩
  have hc' : Codec.ofCode ((bytes.xorAt position mask).getD 6 0) = .ok h.codec := by
    rw [getD_xorAt hr, if_neg (by omega), hc]
  have same : number bytes 16 8 = number bytes 8 8 := by
    rw [hu, hn] at he
    exact toUInt64_inj (number_lt ..) (number_lt ..) he
  refine ⟨_, _, read_xorAt hr (by omega) hc', fun hx => ?_⟩
  have moved := toUInt64_inj (number_lt ..) (number_lt ..) hx
  by_cases h16 : position < 16
  · rw [number_xorAt_of_outside (by omega), same] at moved
    exact number_xorAt_ne (by omega) hp (by omega) hm moved.symm
  · have first : number (bytes.xorAt position mask) 8 8 = number bytes 8 8 :=
      number_xorAt_of_outside (by omega)
    rw [first, ← same] at moved
    exact number_xorAt_ne (by omega) (by omega) (by omega) hm moved

end Changed

theorem check_of_ne (max : UInt64) (hc : h.codec = .stored) (hn : h.compressed ≠ h.uncompressed) :
    ∃ fault, h.check max = .error (.format fault) := by
  rw [check]
  split
  · exact ⟨_, rfl⟩
  · rw [if_pos ⟨hc, hn⟩]
    exact ⟨_, rfl⟩

end Header

namespace Snapshot

variable {t : Table}

/-! ## The order of the checks -/

section Checks

variable {bytes : Bytes} {header : Header} {fault : StoreFault}

theorem decode_of_read_eq_error (hr : Header.read bytes = .error fault) : decode bytes = .error fault := by
  rw [decode, hr]
  rfl

theorem decode_of_check_eq_error (hr : Header.read bytes = .ok header)
    (hc : header.check maxPayload = .error fault) : decode bytes = .error fault := by
  rw [decode, hr]
  show (header.check maxPayload).bind _ = _
  rw [hc]
  rfl

variable (hr : Header.read bytes = .ok header) (hc : header.check maxPayload = .ok ())
include hr hc

theorem decode_of_length_ne (hl : bytes.length ≠ Header.size + header.compressed.toNat + digestSize) :
    ∃ fault, decode bytes = .error (.format fault) := by
  rw [decode, hr]
  show ∃ fault, (header.check maxPayload).bind _ = _
  rw [hc]
  show ∃ fault, (if bytes.length ≠ Header.size + header.compressed.toNat + digestSize then _ else _) = _
  rw [if_pos hl]
  exact ⟨_, rfl⟩

theorem decode_of_digest_ne {front trailer : Bytes} (hb : bytes = front ++ trailer)
    (hf : front.length = Header.size + header.compressed.toNat) (ht : trailer.length = digestSize)
    (hd : front.digest ≠ trailer) : decode bytes = .error .checksumMismatch := by
  have length : bytes.length = Header.size + header.compressed.toNat + digestSize := by
    rw [hb, List.length_append, hf, ht]
  rw [decode, hr]
  show (header.check maxPayload).bind _ = _
  rw [hc]
  show (if bytes.length ≠ Header.size + header.compressed.toNat + digestSize then _ else _) = _
  rw [if_neg (not_not_intro length), hb, List.take_left' hf, List.drop_left' hf, if_pos hd]

end Checks

/-! ## One changed byte -/

/-- How bytes are refused of which the one at a position has changed. -/
structure Refused (bytes : Bytes) (position : Nat) : Prop where
  /-- The mark, the version or one of the lengths. -/
  format : position < 6 ∨ 8 ≤ position ∧ position < Header.size →
    ∃ fault, decode bytes = .error (.format fault)
  /-- The code of the codec, when it is no other codec's. -/
  codec : position = 6 → (∀ c : Codec, c.code ≠ bytes.getD 6 0) → decode bytes = .error (.unsupported none)
  /-- Everything else. -/
  digest : (position = 6 ∧ ∃ c : Codec, c.code = bytes.getD 6 0) ∨ position = 7 ∨ Header.size ≤ position →
    decode bytes = .error .checksumMismatch

section Changed

variable (hs : (payload t).length ≤ maxPayload.toNat) {position : Nat} {mask : UInt8}
include hs

/-- The digest does not fit a body of which one byte has changed, and a changed digest does not fit
the body. -/
theorem decode_xorAt_of_read {header : Header} (hm : mask ≠ 0)
    (hp : position < (body t ++ (body t).digest).length)
    (hr : Header.read ((body t ++ (body t).digest).xorAt position mask) = .ok header)
    (hc : header.check maxPayload = .ok ()) (hn : header.compressed = (headerOf .stored t).compressed)
    (hd : position < (body t).length → ((body t).xorAt position mask).digest ≠ (body t).digest) :
    decode ((body t ++ (body t).digest).xorAt position mask) = .error .checksumMismatch := by
  have length := length_body hs
  rw [← hn] at length
  by_cases h : position < (body t).length
  · exact decode_of_digest_ne hr hc (Bytes.xorAt_append_left h _) (by rw [Bytes.length_xorAt, length])
      (Bytes.length_digest _) (hd h)
  · rw [List.length_append] at hp
    refine decode_of_digest_ne hr hc (Bytes.xorAt_append_right (by omega) _) length ?_ ?_
    · rw [Bytes.length_xorAt, Bytes.length_digest]
    · exact (Bytes.xorAt_ne (by omega) hm).symm

theorem refused_xorAt (hm : mask ≠ 0) (hp : position < (body t ++ (body t).digest).length)
    (hd : position < (body t).length → ((body t).xorAt position mask).digest ≠ (body t).digest) :
    Refused ((body t ++ (body t).digest).xorAt position mask) position := by
  have hr := read_body_append t (body t).digest
  have code : ((body t ++ (body t).digest).xorAt position mask).getD 6 0 = if position = 6
      then (body t ++ (body t).digest).getD 6 0 ^^^ mask else (body t ++ (body t).digest).getD 6 0 :=
    Header.getD_xorAt hr
  generalize hb : (body t ++ (body t).digest).xorAt position mask = bytes at code
  have known : ∀ codec : Codec, 6 ≤ position → (position < 8 ∨ Header.size ≤ position) →
      codec.code = bytes.getD 6 0 → decode bytes = .error .checksumMismatch := by
    intro codec h6 ho hc
    subst hb
    have hx := Header.read_xorAt_of_outside hr h6 ho (hc ▸ codec.ofCode_code)
    exact decode_xorAt_of_read hs hm hp hx (check_headerOf hs codec) rfl hd
  refine ⟨?format, ?codec, ?digest⟩
  case format =>
    rintro (h6 | ⟨h8, hz⟩)
    · obtain ⟨fault, hx⟩ := Header.read_xorAt_mark hr hm h6
      exact ⟨fault, decode_of_read_eq_error (hb ▸ hx)⟩
    · obtain ⟨u, n, hx, hne⟩ := Header.read_xorAt_lengths hr hm h8 hz rfl
      obtain ⟨fault, hc⟩ := Header.check_of_ne (h := ⟨.stored, u, n⟩) maxPayload rfl hne
      exact ⟨fault, decode_of_check_eq_error (hb ▸ hx) hc⟩
  case codec =>
    rintro rfl unknown
    have hc := Codec.ofCode_eq_error unknown
    subst hb
    exact decode_of_read_eq_error (Header.read_xorAt_of_error hr (by omega) hc)
  case digest =>
    rintro (⟨rfl, c, hc⟩ | h7)
    · exact known c (by omega) (by omega) hc
    · have h6 : 6 < position := by
        rcases h7 with rfl | hz
        · decide
        · exact Nat.lt_of_lt_of_le (by decide) hz
      refine known .stored (by omega) (by omega) ?_
      rw [code, if_neg (by omega)]
      exact Codec.code_of_ofCode (Header.read_eq_ok_iff.mp hr).2.2.2.1

end Changed

/-! ## Too few bytes, and too many -/

/-- Another length than the header tells is a fault of the format. -/
theorem decode_of_length (hs : (payload t).length ≤ maxPayload.toNat) {rest : Bytes}
    (hl : ((headerOf .stored t).bytes ++ rest).length ≠ (body t ++ (body t).digest).length) :
    ∃ fault, decode ((headerOf .stored t).bytes ++ rest) = .error (.format fault) := by
  refine decode_of_length_ne (Header.read_append _ _) (check_headerOf hs .stored) fun he => hl ?_
  rw [he, List.length_append, length_body hs, Bytes.length_digest]

theorem decode_take (hs : (payload t).length ≤ maxPayload.toNat) {n : Nat}
    (hn : n < (body t ++ (body t).digest).length) :
    ∃ fault, decode ((body t ++ (body t).digest).take n) = .error (.format fault) := by
  have length : ((body t ++ (body t).digest).take n).length = n := List.length_take_of_le (by omega)
  by_cases h : n < Header.size
  · refine ⟨.shortHeader, decode_of_read_eq_error ?_⟩
    rw [Header.read, length, if_pos h]
  · have front : (body t ++ (body t).digest).take n
        = (headerOf .stored t).bytes ++ (payload t ++ (body t).digest).take (n - Header.size) := by
      rw [← Header.length_bytes (headerOf .stored t), ← List.take_length_add_append, ← List.append_assoc]
      congr 1
      rw [Header.length_bytes]
      omega
    rw [front] at length ⊢
    exact decode_of_length hs (by omega)

theorem decode_append (hs : (payload t).length ≤ maxPayload.toNat) {rest : Bytes} (hr : rest ≠ []) :
    ∃ fault, decode (body t ++ (body t).digest ++ rest) = .error (.format fault) := by
  have hl := List.length_pos_iff.mpr hr
  have front : body t ++ (body t).digest ++ rest
      = (headerOf .stored t).bytes ++ (payload t ++ (body t).digest ++ rest) := by
    simp only [body, List.append_assoc]
  have longer : (body t ++ (body t).digest ++ rest).length ≠ (body t ++ (body t).digest).length := by
    rw [List.length_append]
    omega
  rw [front] at longer ⊢
  exact decode_of_length hs longer

/-- The bytes of a saved table are refused when one of them changes, when some are cut off and when some
are added. Of the digest it is used only that it differs for the changed header and payload. -/
theorem change_is_refused {t : Table} (hs : (payload t).length ≤ maxPayload.toNat) :
    ∃ body : Bytes, encode t .stored = .ok (body ++ body.digest)
      ∧ (∀ position mask, position < (body ++ body.digest).length → mask ≠ 0 →
        (position < body.length → (body.xorAt position mask).digest ≠ body.digest) →
        Refused ((body ++ body.digest).xorAt position mask) position)
      ∧ (∀ n < (body ++ body.digest).length,
        ∃ fault, decode ((body ++ body.digest).take n) = .error (.format fault))
      ∧ ∀ rest ≠ [], ∃ fault, decode (body ++ body.digest ++ rest) = .error (.format fault) :=
  ⟨body t, encode_stored t, fun _ _ hp hm hd => refused_xorAt hs hm hp hd, fun _ hn => decode_take hs hn,
    fun _ hr => decode_append hs hr⟩

/-- A table of one column and no rows, under the empty name. -/
def blank : Table :=
  .empty "" ⟨[⟨"a", .byte⟩], ["a"], by decide, by decide, by decide, by decide, by decide⟩ .hash

/-- A byte of the payload of the blank table and one of its digest are changed, its digest is cut short,
and a byte is added. -/
theorem change_is_refused_blank :
    (payload blank).length ≤ maxPayload.toNat
      ∧ ∃ body : Bytes, encode blank .stored = .ok (body ++ body.digest)
        ∧ (body.xorAt 40 0x10).digest ≠ body.digest
        ∧ decode ((body ++ body.digest).xorAt 40 0x10) = .error .checksumMismatch
        ∧ decode ((body ++ body.digest).xorAt 120 0x01) = .error .checksumMismatch
        ∧ (∃ fault, decode ((body ++ body.digest).take 120) = .error (.format fault))
        ∧ ∃ fault, decode (body ++ body.digest ++ [0]) = .error (.format fault) := by
  have hs : (payload blank).length ≤ maxPayload.toNat := by decide +kernel
  obtain ⟨b, he, changed, cut, longer⟩ := change_is_refused hs
  have hb : b = body blank := by
    have same := Except.ok.inj (he.symm.trans (encode_stored blank))
    exact List.append_inj_left' same (by rw [Bytes.length_digest, Bytes.length_digest])
  subst hb
  have front : (body blank).length = 112 := by decide +kernel
  have whole : (body blank ++ (body blank).digest).length = 144 := by
    rw [List.length_append, front, Bytes.length_digest]
    rfl
  have differs : ((body blank).xorAt 40 0x10).digest ≠ (body blank).digest := by decide +kernel
  refine ⟨hs, body blank, he, differs, ?_, ?_, cut 120 (by omega), longer [0] (by decide)⟩
  · exact (changed 40 0x10 (by omega) (by decide) fun _ => differs).digest (.inr (.inr (by decide)))
  · exact (changed 120 0x01 (by omega) (by decide) fun h => absurd h (by omega)).digest
      (.inr (.inr (by decide)))

end Snapshot

end Relata
