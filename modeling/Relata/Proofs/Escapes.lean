import Mathlib.Tactic.SplitIfs
import Relata.Json.Basic
/-!
# Escapes

What `escape` writes for a text is what `unescape?` reads back (`unescape?_escape`). A byte is written in
one of three ways (`escapeByte_cases`). The proof goes byte by byte: each way leads the reader of a string
body from one place between two characters to the next, with its byte done (`foldlM_escapeByte`).
-/

namespace Relata.Json

/-- An escape letter stands for the byte that is written with it, and it opens no code unit. -/
theorem byteOf?_letterOf? {b l : UInt8} (h : letterOf? b = some l) : byteOf? l = some b ∧ l ≠ 0x75 := by
  unfold letterOf? at h
  split_ifs at h with h₁ h₂ h₃ h₄ h₅ h₆ h₇ <;> cases h <;> subst b <;> decide

/-- The digits of a control character spell its code. -/
theorem hexValue?_hexDigit {n : Nat} (h : n < 16) : hexValue? (hexDigit n) = some n := by
  revert n
  decide

/-- A control character is one byte of UTF-8. -/
theorem utf8_control {b : UInt8} (h : b < 0x20) : Bytes.utf8 (String.ofList [Char.ofNat b.toNat]) = [b] := by
  have all : ∀ n < 32, Bytes.utf8 (String.ofList [Char.ofNat n]) = [n.toUInt8] := by decide
  have hb := all b.toNat h
  rwa [Nat.toUInt8_eq, UInt8.ofNat_toNat] at hb

/-- The code unit of a control character adds its byte. -/
theorem unit_control {b : UInt8} (h : b < 0x20) (done : Bytes) (state : BodyState) :
    Body.unit ⟨state, none, done⟩ b.toNat = some ⟨.plain, none, b :: done⟩ := by
  have hn : b.toNat < 32 := h
  have second : (0xDC00 ≤ b.toNat && b.toNat < 0xE000) = false := by
    simp only [Bool.and_eq_false_iff, decide_eq_false_iff_not]
    omega
  have first : (0xD800 ≤ b.toNat && b.toNat < 0xDC00) = false := by
    simp only [Bool.and_eq_false_iff, decide_eq_false_iff_not]
    omega
  simp only [Body.unit, second, first, Bool.false_eq_true, if_false, utf8_control h]
  rfl

/-- A byte is written as a backslash and a letter, as the digits of a control character, or as itself. -/
theorem escapeByte_cases (b : UInt8) :
    (∃ l, escapeByte b = [0x5C, l] ∧ byteOf? l = some b ∧ l ≠ 0x75)
    ∨ (∃ high low, escapeByte b = [0x5C, 0x75, 0x30, 0x30, high, low] ∧ b < 0x20
      ∧ hexValue? high = some (b.toNat / 16) ∧ hexValue? low = some (b.toNat % 16))
    ∨ (escapeByte b = [b] ∧ ¬b < 0x20 ∧ b ≠ 0x22 ∧ b ≠ 0x5C) := by
  unfold escapeByte
  cases hl : letterOf? b with
  | some l =>
    obtain ⟨hb, hu⟩ := byteOf?_letterOf? hl
    exact .inl ⟨l, rfl, hb, hu⟩
  | none =>
    by_cases hc : b < 0x20
    · have hn : b.toNat < 32 := hc
      refine .inr (.inl ⟨_, _, if_pos hc, hc, ?_, ?_⟩)
      · apply hexValue?_hexDigit
        omega
      · apply hexValue?_hexDigit
        omega
    · refine .inr (.inr ⟨if_neg hc, hc, ?_, ?_⟩)
      -- A quote and a backslash have letters, so neither is left here.
      · rintro rfl
        cases hl
      · rintro rfl
        cases hl

/-- An escaped byte leads from a place between two characters to the next one. -/
theorem foldlM_escapeByte (b : UInt8) (done : Bytes) :
    (escapeByte b).foldlM Body.step ⟨.plain, none, done⟩ = some ⟨.plain, none, b :: done⟩ := by
  obtain ⟨l, he, hb, hu⟩ | ⟨high, low, he, hc, hh, hl⟩ | ⟨he, -, -, hs⟩ := escapeByte_cases b
  · simp [he, List.foldlM_cons, Body.step, hb, hu]
  · have zero : hexValue? 0x30 = some 0 := rfl
    have code : 16 * (b.toNat / 16) + b.toNat % 16 = b.toNat := Nat.div_add_mod _ _
    simp [he, List.foldlM_cons, Body.step, hh, hl, zero, code, unit_control hc]
  · simp [he, List.foldlM_cons, Body.step, hs]

theorem foldlM_escape (s done : Bytes) :
    (escape s).foldlM Body.step ⟨.plain, none, done⟩ = some ⟨.plain, none, s.reverse ++ done⟩ := by
  induction s generalizing done with
  | nil => rfl
  | cons b s ih =>
    have split : escape (b :: s) = escapeByte b ++ escape s := List.flatMap_cons
    rw [split, List.foldlM_append, foldlM_escapeByte]
    show (escape s).foldlM Body.step ⟨.plain, none, b :: done⟩ = _
    rw [ih, List.reverse_cons, List.append_assoc, List.singleton_append]

/-- A text is read back from the body of its string. -/
theorem unescape?_escape (s : Bytes) : unescape? (escape s) = some s := by
  rw [unescape?, foldlM_escape, List.append_nil]
  show some s.reverse.reverse = some s
  rw [List.reverse_reverse]

end Relata.Json
