import Relata.Number.Numeral
/-!
# Numerals read back

The shortest numeral of an integer denotes that integer (`readInt?_ofInt`), and it starts with a zero
only if it is the numeral of zero (`toDigits_eq_cons`).
-/

namespace Relata.Numeral

theorem isDigit_of_mem_digits {n : Nat} {c : Char} (h : c ∈ Nat.toDigits 10 n) : c.isDigit = true :=
  Nat.isDigit_of_mem_toDigits (by decide) (by decide) h

theorem readNat?_toDigits (n : Nat) : readNat? (Nat.toDigits 10 n) = some n := by
  have ne : (Nat.toDigits 10 n).isEmpty = false := by simp [Nat.toDigits_ne_nil]
  have all : (Nat.toDigits 10 n).all Char.isDigit = true :=
    List.all_eq_true.mpr fun _ h => isDigit_of_mem_digits h
  rw [readNat?, ne, all]
  exact congrArg some Nat.ofDigitChars_ten_toDigits

/-- The digits of a number: a first digit, which is zero only for the number zero, and the rest. -/
theorem toDigits_eq_cons (n : Nat) : ∃ c rest, Nat.toDigits 10 n = c :: rest ∧ c.isDigit = true ∧
    (∀ d ∈ rest, d.isDigit = true) ∧ (c = '0' → n = 0 ∧ rest = []) := by
  induction n using Nat.strongRecOn with
  | ind n ih =>
    by_cases h : n < 10
    · refine ⟨n.digitChar, [], Nat.toDigits_of_lt_base h, ?_, by simp, ?_⟩
      · rw [Nat.isDigit_digitChar, decide_eq_true h]
      · intro hc
        exact ⟨Nat.digitChar_eq_zero.mp hc, rfl⟩
    · obtain ⟨c, rest, hq, hc, hr, hz⟩ := ih (n / 10) (by omega)
      -- The last digit is split off, so the first one is that of the quotient.
      refine ⟨c, rest ++ [(n % 10).digitChar], ?_, hc, ?_, ?_⟩
      · rw [Nat.toDigits_of_base_le (by decide) (by omega), hq, List.cons_append]
      · intro d hd
        rcases List.mem_append.mp hd with hd | hd
        · exact hr d hd
        · rw [List.mem_singleton.mp hd, Nat.isDigit_digitChar, decide_eq_true (by omega)]
      · intro h0
        have := (hz h0).1
        omega

theorem isDigit_ne {c d : Char} (h : c.isDigit = true) (hd : d.isDigit = false) : c ≠ d := by
  rintro rfl
  rw [h] at hd
  cases hd

/-- An integer is read back from its shortest numeral. -/
theorem readInt?_ofInt (n : Int) : readInt? (ofInt n) = some n := by
  unfold ofInt
  split
  · next h =>
    rw [readInt?, if_pos rfl, readNat?_toDigits]
    show some (-(n.natAbs : Int)) = some n
    rw [Option.some.injEq]
    omega
  · next h =>
    obtain ⟨c, rest, hds, hc, -, -⟩ := toDigits_eq_cons n.natAbs
    rw [hds, readInt?, if_neg (isDigit_ne hc rfl), if_neg (isDigit_ne hc rfl), ← hds, readNat?_toDigits]
    show some (n.natAbs : Int) = some n
    rw [Option.some.injEq]
    omega

/-- No shortest numeral is that of a negative zero. -/
theorem ofInt_ne_negative_zero (n : Int) : ofInt n ≠ ['-', '0'] := by
  unfold ofInt
  obtain ⟨c, rest, hds, hc, -, hz⟩ := toDigits_eq_cons n.natAbs
  rw [hds]
  split
  · next h =>
    intro he
    obtain ⟨rfl, -⟩ := List.cons.inj (List.cons.inj he).2
    have := (hz rfl).1
    omega
  · intro he
    exact isDigit_ne hc rfl (List.cons.inj he).1

/-! ## Numbers as texts -/

theorem toList_toString (n : Nat) : (toString n).toList = Nat.toDigits 10 n := by
  rw [Nat.toString_eq_repr, Nat.toList_repr]

theorem toString_injective {m n : Nat} (h : toString m = toString n) : m = n := by
  have same : Nat.toDigits 10 m = Nat.toDigits 10 n := by rw [← toList_toString, ← toList_toString, h]
  have read := readNat?_toDigits m
  rw [same, readNat?_toDigits] at read
  exact (Option.some.inj read).symm

/-- Digits in front of a number's own make no smaller number. -/
theorem le_of_toDigits_eq_append {i j : Nat} {front : List Char}
    (h : Nat.toDigits 10 i = front ++ Nat.toDigits 10 j) : j ≤ i := by
  have value : Nat.ofDigitChars 10 (front ++ Nat.toDigits 10 j) 0
      = Nat.pow 10 (Nat.toDigits 10 j).length * Nat.ofDigitChars 10 front 0 + j := by
    rw [Nat.ofDigitChars_append, Nat.ofDigitChars_eq_ofDigitChars_zero, Nat.ofDigitChars_ten_toDigits]
    rfl
  calc
    j ≤ Nat.pow 10 (Nat.toDigits 10 j).length * Nat.ofDigitChars 10 front 0 + j := Nat.le_add_left ..
    _ = Nat.ofDigitChars 10 (Nat.toDigits 10 i) 0 := by rw [h, value]
    _ = i := Nat.ofDigitChars_ten_toDigits

end Relata.Numeral
