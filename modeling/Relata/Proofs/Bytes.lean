import Relata.Bytes
/-!
# Reading bytes back

`utf8?_utf8`: a text is read back from its UTF-8 form. `ofLittleEndian_littleEndian`: a number below
256 to the `width` is read back from its first `width` digits in base 256. `ofLittleEndian_inj`: digits
of one length spell different numbers unless they are the same.
-/

namespace Relata.Bytes

theorem utf8?_utf8 (s : String) : utf8? (utf8 s) = some s := by
  have h : (⟨(utf8 s).toArray⟩ : ByteArray) = s.toByteArray := by
    rw [utf8, Array.toArray_toList]
  rw [utf8?, h, String.fromUTF8?, dif_pos s.isValidUTF8]
  rfl

theorem length_littleEndian (width n : Nat) : (littleEndian width n).length = width := by
  induction width generalizing n with
  | zero => rfl
  | succ width ih => rw [littleEndian, List.length_cons, ih]

theorem ofLittleEndian_littleEndian (width n : Nat) (h : n < Nat.pow 256 width) :
    ofLittleEndian (littleEndian width n) = n := by
  induction width generalizing n with
  | zero =>
    have small : n < 1 := h
    rw [littleEndian, ofLittleEndian]
    omega
  | succ width ih =>
    have hq : n / 256 < Nat.pow 256 width := by
      have product : n < Nat.pow 256 width * 256 := h
      exact Nat.div_lt_of_lt_mul (by rwa [Nat.mul_comm])
    have hd : n.toUInt8.toNat = n % 256 := rfl
    rw [littleEndian, ofLittleEndian, ih _ hq, hd]
    exact Nat.mod_add_div n 256

theorem ofLittleEndian_lt (bytes : Bytes) : ofLittleEndian bytes < Nat.pow 256 bytes.length := by
  induction bytes with
  | nil => decide
  | cons b rest ih =>
    have hb := b.toNat_lt
    show b.toNat + 256 * ofLittleEndian rest < Nat.pow 256 rest.length * 256
    omega

theorem ofLittleEndian_inj {a b : Bytes} (hl : a.length = b.length)
    (h : ofLittleEndian a = ofLittleEndian b) : a = b := by
  induction a generalizing b with
  | nil => exact (List.length_eq_zero_iff.mp hl.symm).symm
  | cons x a ih =>
    cases b with
    | nil => simp at hl
    | cons y b =>
      have hx := x.toNat_lt
      have hy := y.toNat_lt
      simp only [ofLittleEndian] at h
      have hd : x = y := UInt8.toNat_inj.mp (by omega)
      rw [hd, ih (by simpa using hl) (by omega)]

end Relata.Bytes
