import Mathlib.Algebra.Order.Field.Rat
import Mathlib.Algebra.Order.Field.Power
import Mathlib.Order.Compare
import Mathlib.Tactic.Positivity
import Mathlib.Tactic.Ring
import Mathlib.Tactic.SplitIfs
import Relata.Number.Binary
/-!
# The total order of a floating-point format

The patterns of a format are of eight kinds, and the kinds come first in the total order: the NaNs with a sign, the
infinity with a sign, the numbers below zero, the two zeros, and the other four mirrored. Numbers of one kind are
ordered by value, and NaNs of one kind by payload, downwards where they have a sign. The place of a pattern is its
place in that order (`Binary.compare_place`).
-/

namespace Relata

/-- Natural numbers are compared as the integers they are. -/
theorem compare_natCast (m n : Nat) : compare (m : Int) n = compare m n := by
  rw [← cmp_eq_compare, Int.natCast_strictMono.cmp_map_eq, cmp_eq_compare]

namespace Binary

variable {f : Binary}

/-! ## Values -/

/-- The number that a significand and an exponent stand for. -/
def Finite.value (x : Finite) : ℚ := x.significand * 2 ^ x.exponent

/-- The number that a pattern below infinity stands for. -/
def value (f : Binary) (bits : Nat) : ℚ :=
  if f.isNegative bits then -(f.finite (f.magnitude bits)).value else (f.finite (f.magnitude bits)).value

/-- The finite number of a magnitude as a multiple of the least positive one. -/
def scaled (f : Binary) (magnitude : Nat) : Nat :=
  let hidden := Nat.pow 2 f.fractionBits
  let field := magnitude / hidden
  let fraction := magnitude % hidden
  if field = 0 then fraction else (hidden + fraction) * 2 ^ (field - 1)

theorem value_finite (m : Nat) : (f.finite m).value = f.scaled m * 2 ^ f.leastExponent := by
  unfold finite scaled Finite.value
  dsimp only
  split_ifs
  · rfl
  · rw [zpow_add₀ two_ne_zero, zpow_natCast]
    push_cast
    ring

/-- The next exponent field makes up for any fraction. -/
theorem scaled_lt (m : Nat) :
    f.scaled m < Nat.pow 2 f.fractionBits * 2 ^ (m / Nat.pow 2 f.fractionBits) := by
  have fraction := Nat.mod_lt m (Nat.two_pow_pos f.fractionBits)
  unfold scaled
  simp only [Nat.pow_eq] at fraction ⊢
  generalize 2 ^ f.fractionBits = hidden at *
  split_ifs with h
  · rwa [h, Nat.pow_zero, Nat.mul_one]
  · calc (hidden + m % hidden) * 2 ^ (m / hidden - 1) < (hidden + hidden) * 2 ^ (m / hidden - 1) := by gcongr
      _ = hidden * (2 ^ (m / hidden - 1) * 2) := by ring
      _ = hidden * 2 ^ (m / hidden) := by rw [← Nat.pow_succ, Nat.succ_eq_add_one, Nat.sub_add_cancel (Nat.pos_of_ne_zero h)]

theorem le_scaled {m : Nat} (h : m / Nat.pow 2 f.fractionBits ≠ 0) :
    Nat.pow 2 f.fractionBits * 2 ^ (m / Nat.pow 2 f.fractionBits - 1) ≤ f.scaled m := by
  unfold scaled
  dsimp only
  rw [if_neg h]
  gcongr
  exact Nat.le_add_right ..

theorem strictMono_scaled : StrictMono f.scaled := by
  intro m n h
  obtain he | hf := Nat.eq_or_lt_of_le (Nat.div_le_div_right (c := Nat.pow 2 f.fractionBits) h.le)
  · have fraction : m % Nat.pow 2 f.fractionBits < n % Nat.pow 2 f.fractionBits := by
      have hm := Nat.div_add_mod m (Nat.pow 2 f.fractionBits)
      have hn := Nat.div_add_mod n (Nat.pow 2 f.fractionBits)
      rw [he] at hm
      omega
    unfold scaled
    dsimp only
    rw [he]
    split_ifs
    · exact fraction
    · gcongr
  · calc f.scaled m < Nat.pow 2 f.fractionBits * 2 ^ (m / Nat.pow 2 f.fractionBits) := scaled_lt m
      _ ≤ Nat.pow 2 f.fractionBits * 2 ^ (n / Nat.pow 2 f.fractionBits - 1) := by
        gcongr
        · exact one_le_two
        · exact Nat.le_sub_one_of_lt hf
      _ ≤ f.scaled n := le_scaled (Nat.ne_zero_of_lt hf)

theorem strictMono_value : StrictMono fun m => (f.finite m).value := by
  intro m n h
  show (f.finite m).value < (f.finite n).value
  rw [value_finite, value_finite]
  gcongr
  exact strictMono_scaled h

/-! ## Kinds -/

/-- The kinds of patterns, in the total order. -/
inductive Kind where
  | negativeNaN
  | negativeInfinity
  | negative
  | negativeZero
  | positiveZero
  | positive
  | positiveInfinity
  | positiveNaN
  deriving DecidableEq

/-- How many kinds come before one. -/
def Kind.level : Kind → Nat
  | negativeNaN => 0
  | negativeInfinity => 1
  | negative => 2
  | negativeZero => 3
  | positiveZero => 4
  | positive => 5
  | positiveInfinity => 6
  | positiveNaN => 7

def kind (f : Binary) (bits : Nat) : Kind :=
  let m := f.magnitude bits
  if f.isNegative bits then
    if f.infinity < m then .negativeNaN
    else if m = f.infinity then .negativeInfinity
    else if m = 0 then .negativeZero
    else .negative
  else
    if f.infinity < m then .positiveNaN
    else if m = f.infinity then .positiveInfinity
    else if m = 0 then .positiveZero
    else .positive

/-- The total order of the patterns of a format: by kind, and within a kind by what it is the kind of. -/
def totalOrder (f : Binary) (a b : Nat) : Ordering :=
  (compare (f.kind a).level (f.kind b).level).then
    (match f.kind a with
    | .negative | .positive => compare (f.value a) (f.value b)
    | .negativeNaN => compare (f.magnitude b) (f.magnitude a)
    | .positiveNaN => compare (f.magnitude a) (f.magnitude b)
    | _ => .eq)

theorem Kind.level_injective : Function.Injective Kind.level := by
  intro k l h
  cases k <;> cases l <;> first | rfl | cases h

/-! ## Places -/

theorem place_of_negative {a : Nat} (h : f.isNegative a = true) : f.place a = -(f.magnitude a : Int) - 1 := if_pos h

theorem place_of_not_negative {a : Nat} (h : ¬f.isNegative a = true) : f.place a = f.magnitude a := if_neg h

theorem compare_place_of_not_negative {a b : Nat} (ha : ¬f.isNegative a = true) (hb : ¬f.isNegative b = true) :
    compare (f.place a) (f.place b) = compare (f.magnitude a) (f.magnitude b) := by
  rw [place_of_not_negative ha, place_of_not_negative hb, compare_natCast]

theorem compare_place_of_negative {a b : Nat} (ha : f.isNegative a = true) (hb : f.isNegative b = true) :
    compare (f.place a) (f.place b) = compare (f.magnitude b) (f.magnitude a) := by
  rw [place_of_negative ha, place_of_negative hb]
  have : StrictAnti fun m : Nat => -(m : Int) - 1 := by
    intro m n h
    dsimp only
    omega
  rw [← cmp_eq_compare, ← cmp_eq_compare]
  exact this.cmp_map_eq _ _

theorem compare_value_of_not_negative {a b : Nat} (ha : ¬f.isNegative a = true) (hb : ¬f.isNegative b = true) :
    compare (f.value a) (f.value b) = compare (f.magnitude a) (f.magnitude b) := by
  rw [value, value, if_neg ha, if_neg hb, ← cmp_eq_compare, ← cmp_eq_compare]
  exact strictMono_value.cmp_map_eq _ _

theorem compare_value_of_negative {a b : Nat} (ha : f.isNegative a = true) (hb : f.isNegative b = true) :
    compare (f.value a) (f.value b) = compare (f.magnitude b) (f.magnitude a) := by
  rw [value, value, if_pos ha, if_pos hb, ← cmp_eq_compare, ← cmp_eq_compare]
  exact strictMono_value.neg.cmp_map_eq _ _

/-- What the kind of a pattern says about it. -/
def Kind.Holds (f : Binary) (bits : Nat) : Kind → Prop
  | .negativeNaN => f.isNegative bits = true ∧ f.infinity < f.magnitude bits
  | .negativeInfinity => f.isNegative bits = true ∧ f.magnitude bits = f.infinity
  | .negative => f.isNegative bits = true ∧ 0 < f.magnitude bits ∧ f.magnitude bits < f.infinity
  | .negativeZero => f.isNegative bits = true ∧ f.magnitude bits = 0 ∧ 0 < f.infinity
  | .positiveZero => ¬f.isNegative bits = true ∧ f.magnitude bits = 0 ∧ 0 < f.infinity
  | .positive => ¬f.isNegative bits = true ∧ 0 < f.magnitude bits ∧ f.magnitude bits < f.infinity
  | .positiveInfinity => ¬f.isNegative bits = true ∧ f.magnitude bits = f.infinity
  | .positiveNaN => ¬f.isNegative bits = true ∧ f.infinity < f.magnitude bits

theorem Kind.holds (f : Binary) (bits : Nat) : (f.kind bits).Holds f bits := by
  unfold kind
  dsimp only
  split_ifs with hs <;> refine ⟨hs, ?_⟩ <;> omega

theorem place_lt_of_level_lt {a b : Nat} (h : (f.kind a).level < (f.kind b).level) : f.place a < f.place b := by
  have ha := Kind.holds f a
  have hb := Kind.holds f b
  unfold place
  generalize f.kind a = k at *
  generalize f.kind b = l at *
  cases k <;> cases l <;> simp only [Kind.level, Kind.Holds] at h ha hb <;> simp [ha.1, hb.1] <;> omega

theorem compare_place (f : Binary) (a b : Nat) : compare (f.place a) (f.place b) = f.totalOrder a b := by
  unfold totalOrder
  obtain h | h | h := Nat.lt_trichotomy (f.kind a).level (f.kind b).level
  · rw [Nat.compare_eq_lt.mpr h, Int.compare_eq_lt.mpr (place_lt_of_level_lt h)]
    rfl
  · have ha := Kind.holds f a
    have hb := Kind.holds f b
    rw [← Kind.level_injective h] at hb
    rw [h, Nat.compare_eq_eq.mpr rfl, Ordering.eq_then]
    -- One kind has one sign.
    cases hk : f.kind a <;> rw [hk] at ha hb
    case negativeNaN => exact compare_place_of_negative ha.1 hb.1
    case negativeInfinity => rw [compare_place_of_negative ha.1 hb.1, ha.2, hb.2, Nat.compare_eq_eq.mpr rfl]
    case negative => rw [compare_place_of_negative ha.1 hb.1, compare_value_of_negative ha.1 hb.1]
    case negativeZero => rw [compare_place_of_negative ha.1 hb.1, ha.2.1, hb.2.1, Nat.compare_eq_eq.mpr rfl]
    case positiveZero => rw [compare_place_of_not_negative ha.1 hb.1, ha.2.1, hb.2.1, Nat.compare_eq_eq.mpr rfl]
    case positive => rw [compare_place_of_not_negative ha.1 hb.1, compare_value_of_not_negative ha.1 hb.1]
    case positiveInfinity => rw [compare_place_of_not_negative ha.1 hb.1, ha.2, hb.2, Nat.compare_eq_eq.mpr rfl]
    case positiveNaN => exact compare_place_of_not_negative ha.1 hb.1
  · rw [Nat.compare_eq_gt.mpr h, Int.compare_eq_gt.mpr (place_lt_of_level_lt h)]
    rfl

end Binary

end Relata
