import Mathlib.Tactic.SplitIfs
import Relata.Value.Basic
/-!
# The order of values

The comparison of values is a total order (`Std.TransOrd`), and it finds two values equal only when
they are the same, bit for bit (`Std.LawfulEqOrd`). Rows and keys inherit both from their lists.
-/

namespace Relata

/-- Bit patterns of one width have different places in the total order. -/
theorem Binary.place_injective {f : Binary} {a b : Nat} (ha : a < 2 * Nat.pow 2 f.magnitudeBits)
    (hb : b < 2 * Nat.pow 2 f.magnitudeBits) (h : f.place a = f.place b) : a = b := by
  unfold Binary.place Binary.isNegative Binary.magnitude at h
  generalize Nat.pow 2 f.magnitudeBits = p at ha hb h
  -- The sign bit is the half of all patterns that a pattern lies in.
  have low : ∀ {c}, c < 2 * p → p ≤ c → c % p = c - p := by
    intro c hc hp
    rw [Nat.mod_eq_sub_mod hp]
    exact Nat.mod_eq_of_lt (by omega)
  have high : ∀ {c}, ¬p ≤ c → c % p = c := fun hp => Nat.mod_eq_of_lt (by omega)
  simp only [decide_eq_true_eq] at h
  split_ifs at h with h₁ h₂ h₂
  · rw [low ha h₁, low hb h₂] at h
    omega
  · omega
  · omega
  · rw [high h₁, high h₂] at h
    omega

namespace Value

theorem rank_injective {d e : Domain} (h : d.rank = e.rank) : d = e := by
  cases d <;> cases e <;> first | rfl | cases h

/-- Characters with the same code points are the same. -/
theorem map_toNat_injective {s t : List Char}
    (h : (s.map fun c => (c.toNat : Int)) = t.map fun c => (c.toNat : Int)) : s = t := by
  refine (List.map_inj_right fun c d hcd => ?_).mp h
  exact Char.toNat_inj.mp (Int.ofNat.inj hcd)

/-- A value is known from its sort key. -/
theorem sortKey_injective {a b : Value} (h : a.sortKey = b.sortKey) : a = b := by
  obtain ⟨hr, hp⟩ := List.cons.inj h
  have hd := rank_injective (Int.ofNat.inj hr)
  cases a <;> cases b <;> cases hd
  case integer m n => rw [Int32.toInt_inj.mp (List.cons.inj hp).1]
  case long m n => rw [Int64.toInt_inj.mp (List.cons.inj hp).1]
  case short m n => rw [Int16.toInt_inj.mp (List.cons.inj hp).1]
  case byte m n => rw [Int8.toInt_inj.mp (List.cons.inj hp).1]
  case double m n =>
    rw [UInt64.toNat_inj.mp (Binary.place_injective m.toNat_lt n.toNat_lt (List.cons.inj hp).1)]
  case float m n =>
    rw [UInt32.toNat_inj.mp (Binary.place_injective m.toNat_lt n.toNat_lt (List.cons.inj hp).1)]
  case character c d => rw [Char.toNat_inj.mp (Int.ofNat.inj (List.cons.inj hp).1)]
  case string s t => rw [String.toList_inj.mp (map_toNat_injective hp)]

instance : Std.TransOrd Value :=
  inferInstanceAs (Std.TransCmp (compareOn Value.sortKey))

instance : Std.LawfulEqOrd Value where
  eq_of_compare h := sortKey_injective (Std.LawfulEqOrd.eq_of_compare h)

end Value

end Relata
