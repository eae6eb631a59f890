import Mathlib.Tactic.SplitIfs
import Relata.Bytes
/-!
# The order of texts

Lists are compared lexicographically: the first place where two lists differ decides, and a proper prefix is smaller
(`Lexicographic.compare_eq_lt_iff`). Texts are compared by code points, and that is the order of their bytes
(`Bytes.compare_utf8`): UTF-8 writes the digits of a code point in base 64 with the greatest first, and a form of
more digits has a greater first byte.
-/

namespace Relata

/-! ## Lexicographic order -/

namespace Lexicographic

variable {α β : Type} [Ord α] [Ord β]

/-- Two lists agree up to a place where both go on, the first one with the smaller element. -/
def Parts (l m : List α) : Prop :=
  ∃ shared a b x y, l = shared ++ a :: x ∧ m = shared ++ b :: y ∧ compare a b = .lt

theorem Parts.head {a b : α} (h : compare a b = .lt) (l m : List α) : Parts (a :: l) (b :: m) :=
  ⟨[], a, b, l, m, rfl, rfl, h⟩

theorem Parts.cons {l m : List α} (a : α) (h : Parts l m) : Parts (a :: l) (a :: m) := by
  obtain ⟨shared, b, c, x, y, rfl, rfl, hlt⟩ := h
  exact ⟨a :: shared, b, c, x, y, rfl, rfl, hlt⟩

theorem Parts.append {l m : List α} (h : Parts l m) (x y : List α) : Parts (l ++ x) (m ++ y) := by
  obtain ⟨shared, a, b, x', y', rfl, rfl, hlt⟩ := h
  exact ⟨shared, a, b, x' ++ x, y' ++ y, List.append_assoc .., List.append_assoc .., hlt⟩

theorem compare_append_left [Std.ReflOrd α] (shared l m : List α) :
    compare (shared ++ l) (shared ++ m) = compare l m := by
  induction shared with
  | nil => rfl
  | cons a shared ih =>
    rw [List.cons_append, List.cons_append, List.compare_cons_cons, Std.ReflOrd.compare_self, ih]
    rfl

theorem compare_of_parts [Std.ReflOrd α] {l m : List α} (h : Parts l m) : compare l m = .lt := by
  obtain ⟨shared, a, b, x, y, rfl, rfl, hlt⟩ := h
  rw [compare_append_left, List.compare_cons_cons, hlt]
  rfl

/-- One list is smaller than another exactly when it is a proper prefix of it, or has the smaller element at the
first place where the two differ. -/
theorem compare_eq_lt_iff [Std.LawfulEqOrd α] {l m : List α} :
    compare l m = .lt ↔ (l <+: m ∧ l ≠ m) ∨ Parts l m := by
  constructor
  · intro h
    induction l generalizing m with
    | nil =>
      cases m with
      | nil => cases h
      | cons b m => exact .inl ⟨List.nil_prefix, nofun⟩
    | cons a l ih =>
      cases m with
      | nil => cases h
      | cons b m =>
        rw [List.compare_cons_cons, Ordering.then_eq_lt] at h
        obtain h | ⟨hab, h⟩ := h
        · exact .inr (.head h l m)
        · cases Std.LawfulEqOrd.eq_of_compare hab
          obtain ⟨hp, hn⟩ | h := ih h
          · exact .inl ⟨List.cons_prefix_cons.mpr ⟨rfl, hp⟩, fun h => hn (List.cons.inj h).2⟩
          · exact .inr (h.cons a)
  · rintro (⟨⟨x, rfl⟩, hn⟩ | h)
    · cases x with
      | nil => exact absurd (List.append_nil l).symm hn
      | cons b x =>
        calc compare l (l ++ b :: x) = compare (l ++ []) (l ++ b :: x) := by rw [List.append_nil]
          _ = .lt := compare_append_left l [] (b :: x)
    · exact compare_of_parts h

/-- Images are compared as the elements are where the map keeps their order. -/
theorem compare_map {f : α → β} (hf : ∀ a b, compare (f a) (f b) = compare a b) (l m : List α) :
    compare (l.map f) (m.map f) = compare l m := by
  induction l generalizing m with
  | nil => cases m <;> rfl
  | cons a l ih =>
    cases m with
    | nil => rfl
    | cons b m => rw [List.map_cons, List.map_cons, List.compare_cons_cons, List.compare_cons_cons, hf, ih]

/-- So are concatenations of codes, where no code is empty and codes of smaller elements part below. -/
theorem compare_flatMap [Std.TransOrd α] [Std.LawfulEqOrd α] [Std.TransOrd β] {f : α → List β}
    (hn : ∀ a, f a ≠ []) (hf : ∀ a b, compare a b = .lt → Parts (f a) (f b)) (l m : List α) :
    compare (l.flatMap f) (m.flatMap f) = compare l m := by
  induction l generalizing m with
  | nil =>
    cases m with
    | nil => rfl
    | cons b m =>
      obtain ⟨y, ys, hb⟩ := List.exists_cons_of_ne_nil (hn b)
      rw [List.flatMap_cons, hb]
      rfl
  | cons a l ih =>
    cases m with
    | nil =>
      obtain ⟨x, xs, ha⟩ := List.exists_cons_of_ne_nil (hn a)
      rw [List.flatMap_cons, ha]
      rfl
    | cons b m =>
      rw [List.flatMap_cons, List.flatMap_cons, List.compare_cons_cons]
      cases hab : compare a b with
      | lt => exact compare_of_parts ((hf a b hab).append _ _)
      | eq =>
        cases Std.LawfulEqOrd.eq_of_compare hab
        exact (compare_append_left ..).trans (ih m)
      | gt =>
        rw [Std.OrientedOrd.eq_swap, compare_of_parts ((hf b a (Std.OrientedCmp.lt_of_gt hab)).append _ _)]
        rfl

end Lexicographic

/-! ## The bytes of a text -/

namespace Bytes

open Lexicographic

/-- The last digits of a code point in base 64, greatest first, as UTF-8 writes them. -/
def continuation : Nat → Nat → Bytes
  | 0, _ => []
  | width + 1, n => (n / Nat.pow 64 width % 64 + 0x80).toUInt8 :: continuation width n

/-- How many further bytes UTF-8 writes after the first one. -/
def further (n : Nat) : Nat := if n ≤ 0x7f then 0 else if n ≤ 0x7ff then 1 else if n ≤ 0xffff then 2 else 3

/-- What marks a first byte with so many further ones. -/
def mark : Nat → Nat
  | 0 => 0
  | 1 => 0xc0
  | 2 => 0xe0
  | _ => 0xf0

/-- The first byte of a code point. -/
def leading (n : Nat) : Nat := mark (further n) + n / Nat.pow 64 (further n)

theorem toNat_lt (c : Char) : c.toNat < 0x110000 := by
  obtain h | ⟨-, h⟩ := c.valid
  · exact Nat.lt_trans h (by decide)
  · exact h

/-- Characters are compared as their code points are. -/
theorem compare_toNat (c d : Char) : compare c.toNat d.toNat = compare c d := by
  show compareOfLessAndEq c.toNat d.toNat = compareOfLessAndEq c d
  simp only [compareOfLessAndEq, Char.lt_def, UInt32.lt_iff_toNat_lt, Char.toNat_inj]
  rfl

theorem utf8EncodeChar_eq (c : Char) : String.utf8EncodeChar c
    = (leading c.toNat).toUInt8 :: continuation (further c.toNat) c.toNat := by
  have bound := toNat_lt c
  unfold String.utf8EncodeChar leading further
  rw [show c.toNat = c.val.toNat from rfl] at bound ⊢
  generalize c.val.toNat = n at bound
  -- The first byte of a form leaves room for all of a code point that its further bytes do not hold.
  split_ifs with h₁ h₂ h₃
  · simp [h₁, continuation, mark]
  · have room : n / 64 % 0x20 = n / 64 := Nat.mod_eq_of_lt (by omega)
    simp [h₁, h₂, room, continuation, mark, UInt8.add_comm]
  · have room : n / 4096 % 0x10 = n / 4096 := Nat.mod_eq_of_lt (by omega)
    simp [h₁, h₂, h₃, room, continuation, mark, UInt8.add_comm]
  · have room : n / 262144 % 0x08 = n / 262144 := Nat.mod_eq_of_lt (by omega)
    simp [h₁, h₂, h₃, room, continuation, mark, UInt8.add_comm]

theorem compare_toUInt8 {m n : Nat} (h : m < n) (hn : n < 256) : compare m.toUInt8 n.toUInt8 = .lt := by
  refine compareOfLessAndEq_eq_lt.mpr (UInt8.lt_iff_toNat_lt.mpr ?_)
  rwa [Nat.toUInt8_eq, Nat.toUInt8_eq, UInt8.toNat_ofNat_of_lt' (Nat.lt_trans h hn), UInt8.toNat_ofNat_of_lt' hn]

/-- Code points with the same digits up to some place part at their digits after it. -/
theorem continuation_parts {width m n : Nat} (hlt : m < n) (he : m / Nat.pow 64 width = n / Nat.pow 64 width) :
    Parts (continuation width m) (continuation width n) := by
  induction width with
  | zero =>
    rw [Nat.pow_eq, Nat.pow_zero, Nat.div_one, Nat.div_one] at he
    exact absurd he (Nat.ne_of_lt hlt)
  | succ width ih =>
    by_cases next : m / Nat.pow 64 width = n / Nat.pow 64 width
    · rw [continuation, continuation, next]
      exact (ih next).cons _
    · -- The digits before this one are equal, so this digit is smaller.
      have smaller : m / Nat.pow 64 width < n / Nat.pow 64 width :=
        Nat.lt_of_le_of_ne (Nat.div_le_div_right (Nat.le_of_lt hlt)) next
      have higher : m / Nat.pow 64 width / 64 = n / Nat.pow 64 width / 64 := by
        rw [Nat.div_div_eq_div_mul, Nat.div_div_eq_div_mul]
        exact he
      exact .head (compare_toUInt8 (by omega) (by omega)) _ _

/-- A smaller code point has a smaller first byte, or as many further bytes after the same one. -/
theorem leading_lt_or {m n : Nat} (h : m < n) (hn : n < 0x110000) : leading m < leading n
    ∨ leading m = leading n ∧ further m = further n
      ∧ m / Nat.pow 64 (further n) = n / Nat.pow 64 (further n) := by
  unfold leading further
  split_ifs <;> simp [mark] <;> omega

theorem leading_lt {n : Nat} (hn : n < 0x110000) : leading n < 256 := by
  unfold leading further
  split_ifs <;> simp [mark] <;> omega

theorem utf8EncodeChar_parts {c d : Char} (h : compare c d = .lt) :
    Parts (String.utf8EncodeChar c) (String.utf8EncodeChar d) := by
  have hlt : c.toNat < d.toNat := Nat.compare_eq_lt.mp ((compare_toNat c d).trans h)
  rw [utf8EncodeChar_eq, utf8EncodeChar_eq]
  obtain hl | ⟨hl, hf, he⟩ := leading_lt_or hlt (toNat_lt d)
  · exact .head (compare_toUInt8 hl (leading_lt (toNat_lt d))) _ _
  · rw [hl, hf]
    exact (continuation_parts hlt he).cons _

theorem utf8_eq_flatMap (s : String) : utf8 s = s.toList.flatMap String.utf8EncodeChar := by
  rw [utf8, ← String.utf8Encode_toList, List.utf8Encode, List.data_toByteArray]

/-- The bytes of two texts are compared as their code points are. -/
theorem compare_utf8 (s t : String) : compare (utf8 s) (utf8 t) = compare s.toList t.toList := by
  rw [utf8_eq_flatMap, utf8_eq_flatMap]
  exact compare_flatMap (fun _ => String.utf8EncodeChar_ne_nil) (fun _ _ => utf8EncodeChar_parts) _ _

end Bytes

end Relata
