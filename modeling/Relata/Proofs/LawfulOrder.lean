import Relata.Proofs.Bytes
import Relata.Proofs.FloatOrder
import Relata.Proofs.TextOrder
import Relata.Proofs.ValueOrder
import Relata.Value.Literal
/-!
# The laws of the order

The comparison of values is a total order, and equality, comparison and what a hasher is fed agree
(`Value.lawfully_ordered`). Values of different domains are ordered as their domains are declared. Within a domain
the order is that of the integers, the code points, the bytes of a text, or the total order of the format.
-/

namespace Relata

/-! ## Total orders -/

/-- A comparison is a total order in which only identical elements are equal. -/
structure TotalOrder {α : Type} (cmp : α → α → Ordering) : Prop where
  refl (a : α) : cmp a a = .eq
  eq_iff (a b : α) : cmp a b = .eq ↔ a = b
  swap (a b : α) : cmp b a = (cmp a b).swap
  lt_trans (a b c : α) : cmp a b = .lt → cmp b c = .lt → cmp a c = .lt
  isLE_trans (a b c : α) : (cmp a b).isLE = true → (cmp b c).isLE = true → (cmp a c).isLE = true
  isLE_antisymm (a b : α) : (cmp a b).isLE = true → (cmp b a).isLE = true → a = b
  isLE_total (a b : α) : (cmp a b).isLE = true ∨ (cmp b a).isLE = true

theorem totalOrder_compare (α : Type) [Ord α] [Std.TransOrd α] [Std.LawfulEqOrd α] :
    TotalOrder (compare : α → α → Ordering) where
  refl _ := Std.ReflOrd.compare_self
  eq_iff _ _ := Std.LawfulEqOrd.compare_eq_iff_eq
  swap _ _ := Std.OrientedOrd.eq_swap
  lt_trans _ _ _ := Std.TransCmp.lt_trans
  isLE_trans _ _ _ := Std.TransOrd.isLE_trans
  isLE_antisymm _ _ hab hba := Std.LawfulEqOrd.eq_of_compare (Std.OrientedCmp.isLE_antisymm hab hba)
  isLE_total a b := by
    rw [Std.OrientedOrd.eq_swap (a := b)]
    cases compare a b <;> simp

namespace Value

/-! ## The order within a domain -/

/-- The order of two values, by cases on their domains. -/
def order : Value → Value → Ordering
  | integer m, integer n => compare m.toInt n.toInt
  | long m, long n => compare m.toInt n.toInt
  | short m, short n => compare m.toInt n.toInt
  | byte m, byte n => compare m.toInt n.toInt
  | double a, double b => Binary.double.totalOrder a.toNat b.toNat
  | float a, float b => Binary.single.totalOrder a.toNat b.toNat
  | character c, character d => compare c.toNat d.toNat
  | string s, string t => compare (Bytes.utf8 s) (Bytes.utf8 t)
  | a, b => compare a.domain.rank b.domain.rank

theorem compare_eq_then (a b : Value) :
    compare a b = (compare a.domain.rank b.domain.rank).then (compare a.payloadKey b.payloadKey) := by
  show compare a.sortKey b.sortKey = _
  rw [sortKey, sortKey, List.compare_cons_cons, compare_natCast]

/-- Values of different domains are ordered by domain alone. -/
theorem compare_of_domain_ne {a b : Value} (h : a.domain ≠ b.domain) :
    compare a b = compare a.domain.rank b.domain.rank := by
  rw [compare_eq_then]
  obtain hlt | he | hgt := Nat.lt_trichotomy a.domain.rank b.domain.rank
  · rw [Nat.compare_eq_lt.mpr hlt]
    rfl
  · exact absurd (rank_injective he) h
  · rw [Nat.compare_eq_gt.mpr hgt]
    rfl

/-- A payload that is one number is ordered as that number is. -/
theorem compare_singleton (m n : Int) : compare [m] [n] = compare m n := by
  rw [List.compare_cons_cons]
  exact Ordering.then_eq ..

theorem compare_payloadKey {a b : Value} (h : a.domain = b.domain) :
    compare a.payloadKey b.payloadKey = a.order b := by
  cases a <;> cases b <;> cases h
  case integer => exact compare_singleton ..
  case long => exact compare_singleton ..
  case short => exact compare_singleton ..
  case byte => exact compare_singleton ..
  case double => exact (compare_singleton ..).trans (Binary.compare_place ..)
  case float => exact (compare_singleton ..).trans (Binary.compare_place ..)
  case character => exact (compare_singleton ..).trans (compare_natCast ..)
  case string s t =>
    have codes : ∀ c d : Char, compare (c.toNat : Int) d.toNat = compare c d := by
      intro c d
      rw [compare_natCast, Bytes.compare_toNat]
    calc compare (string s).payloadKey (string t).payloadKey = compare s.toList t.toList :=
          Lexicographic.compare_map codes ..
      _ = compare (Bytes.utf8 s) (Bytes.utf8 t) := (Bytes.compare_utf8 s t).symm

theorem compare_eq_order (a b : Value) : compare a b = a.order b := by
  by_cases h : a.domain = b.domain
  · rw [compare_eq_then, h, Nat.compare_eq_eq.mpr rfl, Ordering.eq_then, compare_payloadKey h]
  · rw [compare_of_domain_ne h]
    cases a <;> cases b <;> first | rfl | exact absurd rfl h

/-! ## Hashing -/

/-- What the payload of a value feeds a hasher: numbers in their width, and a text with an end mark that no text
contains. -/
def payloadFed : Value → Bytes
  | integer n => Bytes.littleEndian 4 n.toUInt32.toNat
  | long n => Bytes.littleEndian 8 n.toUInt64.toNat
  | short n => Bytes.littleEndian 2 n.toUInt16.toNat
  | byte n => Bytes.littleEndian 1 n.toUInt8.toNat
  | double bits => Bytes.littleEndian 8 bits.toNat
  | float bits => Bytes.littleEndian 4 bits.toNat
  | character c => Bytes.littleEndian 4 c.toNat
  | string s => Bytes.utf8 s ++ [0xff]

/-- What a value feeds a hasher: the rank of its domain, then its payload. -/
def fed (v : Value) : Bytes := Bytes.littleEndian 8 v.domain.rank ++ v.payloadFed

theorem littleEndian_inj {m n : Nat} (width : Nat) (hm : m < Nat.pow 256 width) (hn : n < Nat.pow 256 width)
    (h : Bytes.littleEndian width m = Bytes.littleEndian width n) : m = n := by
  rw [← Bytes.ofLittleEndian_littleEndian width m hm, h, Bytes.ofLittleEndian_littleEndian width n hn]

theorem fed_injective {a b : Value} (h : a.fed = b.fed) : a = b := by
  obtain ⟨hr, hp⟩ := List.append_inj h (by rw [Bytes.length_littleEndian, Bytes.length_littleEndian])
  have hd : a.domain = b.domain := by
    have small : ∀ d : Domain, d.rank < Nat.pow 256 8 := by
      intro d
      cases d <;> decide
    exact rank_injective (littleEndian_inj 8 (small _) (small _) hr)
  have code : ∀ c : Char, c.toNat < Nat.pow 256 4 := fun c => Nat.lt_trans (Bytes.toNat_lt c) (by decide)
  cases a <;> cases b <;> cases hd
  case integer m n =>
    have he := UInt32.toNat_inj.mp (littleEndian_inj 4 m.toUInt32.toNat_lt n.toUInt32.toNat_lt hp)
    exact congrArg (integer ∘ Int32.ofUInt32) he
  case long m n =>
    have he := UInt64.toNat_inj.mp (littleEndian_inj 8 m.toUInt64.toNat_lt n.toUInt64.toNat_lt hp)
    exact congrArg (long ∘ Int64.ofUInt64) he
  case short m n =>
    have he := UInt16.toNat_inj.mp (littleEndian_inj 2 m.toUInt16.toNat_lt n.toUInt16.toNat_lt hp)
    exact congrArg (short ∘ Int16.ofUInt16) he
  case byte m n =>
    have he := UInt8.toNat_inj.mp (littleEndian_inj 1 m.toUInt8.toNat_lt n.toUInt8.toNat_lt hp)
    exact congrArg (byte ∘ Int8.ofUInt8) he
  case double m n =>
    have he := UInt64.toNat_inj.mp (littleEndian_inj 8 m.toNat_lt n.toNat_lt hp)
    exact congrArg double he
  case float m n =>
    have he := UInt32.toNat_inj.mp (littleEndian_inj 4 m.toNat_lt n.toNat_lt hp)
    exact congrArg float he
  case character c d =>
    have he := Char.toNat_inj.mp (littleEndian_inj 4 (code c) (code d) hp)
    exact congrArg character he
  case string s t =>
    have he := congrArg Bytes.utf8? (List.append_cancel_right hp)
    rw [Bytes.utf8?_utf8, Bytes.utf8?_utf8] at he
    exact congrArg string (Option.some.inj he)

/-! ## The laws together -/

theorem tryCompare_eq (a b : Value) : a.tryCompare b
    = if a.domain = b.domain then .ok (compare a b) else .error (.incomparable a.domain b.domain) := by
  unfold tryCompare checkDomains
  split_ifs <;> rfl

/-- Values are totally ordered, and equality, comparison and what a hasher is fed agree. Values of different domains
are ordered as the domains are declared, and values of one domain by what `order` says of it. Rows and keys are totally
ordered too, by the first value where two of them differ, with a proper prefix first. The comparison that asks for one
domain is the same comparison there, and a fault anywhere else. -/
theorem lawfully_ordered :
    TotalOrder (compare : Value → Value → Ordering)
      ∧ (∀ a b : Value, (a == b) = (compare a b == .eq) ∧ (a.fed = b.fed ↔ compare a b = .eq))
      ∧ Domain.all.map Domain.rank = List.range Domain.all.length
      ∧ (∀ a b : Value, a.domain ≠ b.domain → compare a b = compare a.domain.rank b.domain.rank)
      ∧ (∀ a b : Value, compare a b = a.order b)
      ∧ TotalOrder (compare : Tuple → Tuple → Ordering)
      ∧ (∀ t u : Tuple, compare t u = .lt ↔ (t <+: u ∧ t ≠ u) ∨ Lexicographic.Parts t u)
      ∧ (∀ a b : Value, a.tryCompare b
        = if a.domain = b.domain then .ok (compare a b) else .error (.incomparable a.domain b.domain)) := by
  have agree : ∀ a b : Value, (a == b) = (compare a b == .eq) ∧ (a.fed = b.fed ↔ compare a b = .eq) := by
    intro a b
    constructor
    · rw [Bool.eq_iff_iff, beq_iff_eq, beq_iff_eq, Std.LawfulEqOrd.compare_eq_iff_eq]
    · rw [Std.LawfulEqOrd.compare_eq_iff_eq]
      exact ⟨fed_injective, congrArg fed⟩
  refine ⟨totalOrder_compare Value, agree, by decide, ?_, compare_eq_order, totalOrder_compare Tuple, ?_, tryCompare_eq⟩
  · intro a b h
    exact compare_of_domain_ne h
  · intro t u
    exact Lexicographic.compare_eq_lt_iff

/-- One number of each kind, in order. -/
example : [0xfff8000000000000, 0xfff0000000000000, 0xbff0000000000000, 0x8000000000000000, 0, 0x3ff0000000000000,
    0x7ff0000000000000, 0x7ff8000000000000].Pairwise (fun a b => compare (double a) (double b) = .lt) := by decide

end Value

end Relata
