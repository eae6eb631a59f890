import Mathlib.Tactic.Ring
import Relata.Proofs.Literals
/-!
# Integer literals

A numeral is a sign or none and one or more ASCII digits, and it spells the sum of its digits by their places
(`Numeral.Spells`). An integer is read from exactly those texts that are a numeral with white space around it and spell
an integer of the width of the domain (`Value.integers_read_within_width`). Reading can check the width at every digit:
a number that has left its range does not come back to it with further digits (`Value.readStepwise?_eq`).
-/

namespace Relata

namespace Numeral

/-! ## What numerals spell -/

/-- One or more ASCII digits. -/
structure Digits (s : List Char) : Prop where
  ne_nil : s ≠ []
  ascii : ∀ c ∈ s, '0' ≤ c ∧ c ≤ '9'

/-- The number that digits stand for: each counts for its place. -/
def placeValue : List Char → Nat
  | [] => 0
  | c :: rest => (c.toNat - '0'.toNat) * Nat.pow 10 rest.length + placeValue rest

/-- A numeral of an integer: digits, with a sign before them or none. -/
inductive Spells : List Char → Int → Prop where
  | unsigned {digits : List Char} (h : Digits digits) : Spells digits (placeValue digits)
  | plus {digits : List Char} (h : Digits digits) : Spells ('+' :: digits) (placeValue digits)
  | minus {digits : List Char} (h : Digits digits) : Spells ('-' :: digits) (-(placeValue digits : Int))

/-- A numeral of an integer with nothing but white space around it. -/
def Denotes (text : List Char) (n : Int) : Prop :=
  ∃ before numeral after, text = before ++ numeral ++ after ∧ Text.AllBlank before ∧ Text.AllBlank after
    ∧ Spells numeral n

theorem isDigit_iff (c : Char) : c.isDigit = true ↔ '0' ≤ c ∧ c ≤ '9' := by
  rw [Char.isDigit, Bool.and_eq_true, decide_eq_true_iff, decide_eq_true_iff]
  exact Iff.rfl

theorem Digits.isDigit {s : List Char} (h : Digits s) : ∀ c ∈ s, c.isDigit = true :=
  fun c hc => (isDigit_iff c).mpr (h.ascii c hc)

/-- A sign is no digit. -/
theorem Digits.ne_sign {c : Char} {s : List Char} (h : Digits (c :: s)) : c ≠ '-' ∧ c ≠ '+' := by
  have first := h.isDigit c List.mem_cons_self
  exact ⟨isDigit_ne first rfl, isDigit_ne first rfl⟩

theorem ofDigitChars_eq (digits : List Char) (n : Nat) :
    Nat.ofDigitChars 10 digits n = Nat.pow 10 digits.length * n + placeValue digits := by
  induction digits generalizing n with
  | nil => simp [placeValue]
  | cons c rest ih =>
    have shift : Nat.pow 10 (c :: rest).length = Nat.pow 10 rest.length * 10 := rfl
    rw [Nat.ofDigitChars_cons, ih, placeValue, shift]
    ring

theorem ofDigitChars_zero (digits : List Char) : Nat.ofDigitChars 10 digits 0 = placeValue digits := by
  rw [ofDigitChars_eq, Nat.mul_zero, Nat.zero_add]

theorem map_readNat?_eq_some_iff {f : Nat → Int} {digits : List Char} {n : Int} :
    (readNat? digits).map f = some n ↔ Digits digits ∧ f (placeValue digits) = n := by
  have all : (!digits.isEmpty && digits.all Char.isDigit) = true ↔ Digits digits := by
    rw [Bool.and_eq_true, List.all_eq_true, Bool.not_eq_true', List.isEmpty_eq_false_iff]
    exact ⟨fun h => ⟨h.1, fun c hc => (isDigit_iff c).mp (h.2 c hc)⟩, fun h => ⟨h.ne_nil, h.isDigit⟩⟩
  rw [readNat?, ofDigitChars_zero]
  by_cases h : Digits digits
  · simp [all.mpr h, h]
  · simp [mt all.mp h, h]

theorem readInt?_cons (c : Char) (digits : List Char) : readInt? (c :: digits)
    = if c = '-' then (readNat? digits).map fun m : Nat => -(m : Int)
      else if c = '+' then (readNat? digits).map fun m : Nat => (m : Int)
      else (readNat? (c :: digits)).map fun m : Nat => (m : Int) := by
  have cast : ∀ (f : Int → Int) (read : Option Nat),
      Option.map f (do let m ← read; pure (m : Int)) = read.map fun m : Nat => f m := by
    intro f read
    cases read with
    | none => rfl
    | some m => rfl
  simp only [readInt?, cast]

theorem spells_cons_iff {c : Char} {digits : List Char} {n : Int} : Spells (c :: digits) n
    ↔ if c = '-' then Digits digits ∧ -(placeValue digits : Int) = n
      else if c = '+' then Digits digits ∧ (placeValue digits : Int) = n
      else Digits (c :: digits) ∧ (placeValue (c :: digits) : Int) = n := by
  constructor
  · intro h
    cases h with
    | minus hd => rw [if_pos rfl]; exact ⟨hd, rfl⟩
    | plus hd => rw [if_neg (by decide), if_pos rfl]; exact ⟨hd, rfl⟩
    | unsigned hd => rw [if_neg hd.ne_sign.1, if_neg hd.ne_sign.2]; exact ⟨hd, rfl⟩
  · intro h
    split_ifs at h with minus plus
    · obtain ⟨hd, rfl⟩ := h
      exact minus ▸ .minus hd
    · obtain ⟨hd, rfl⟩ := h
      exact plus ▸ .plus hd
    · obtain ⟨hd, rfl⟩ := h
      exact .unsigned hd

/-- Exactly the numerals are read, as what they spell. -/
theorem readInt?_eq_some_iff {s : List Char} {n : Int} : readInt? s = some n ↔ Spells s n := by
  cases s with
  | nil =>
    constructor
    · intro h
      cases h
    · intro h
      cases h with
      | unsigned hd => exact absurd rfl hd.ne_nil
  | cons c digits =>
    rw [readInt?_cons, spells_cons_iff]
    split_ifs
    · exact map_readNat?_eq_some_iff
    · exact map_readNat?_eq_some_iff
    · exact map_readNat?_eq_some_iff

theorem Spells.trimmed {s : List Char} {n : Int} (h : Spells s n) : Text.Trimmed s := by
  have digits : ∀ {digits : List Char}, Digits digits → ∀ c ∈ digits, Text.isBlank c = false :=
    fun hd c hc => isBlank_of_isDigit (hd.isDigit c hc)
  have signed : ∀ {sign : Char} {rest : List Char}, Text.isBlank sign = false → Digits rest →
      ∀ c ∈ sign :: rest, Text.isBlank c = false := by
    intro sign rest hs hd c hc
    cases hc with
    | head => exact hs
    | tail _ hc => exact digits hd c hc
  cases h with
  | unsigned hd => exact .of_forall (digits hd)
  | plus hd => exact .of_forall (signed (by decide) hd)
  | minus hd => exact .of_forall (signed (by decide) hd)

/-- The white space around a numeral is what is trimmed off. -/
theorem denotes_iff {text : List Char} {n : Int} : Denotes text n ↔ Spells (Text.trim text) n := by
  constructor
  · intro h
    obtain ⟨before, numeral, after, rfl, hb, ha, hs⟩ := h
    rw [Text.trim_eq_iff.mpr ⟨hs.trimmed, before, after, hb, ha, rfl⟩]
    exact hs
  · intro h
    obtain ⟨-, before, after, hb, ha, he⟩ := Text.trim_eq_iff.mp (rfl : Text.trim text = _)
    exact ⟨before, _, after, he, hb, ha, h⟩

/-! ## Leading zeros -/

/-- A numeral with zeros put before its digits. -/
def withZeros (zeros : Nat) : List Char → List Char
  | [] => List.replicate zeros '0'
  | c :: digits =>
    if c = '-' then c :: (List.replicate zeros '0' ++ digits) else List.replicate zeros '0' ++ c :: digits

theorem placeValue_replicate (zeros : Nat) (digits : List Char) :
    placeValue (List.replicate zeros '0' ++ digits) = placeValue digits := by
  induction zeros with
  | zero => rfl
  | succ zeros ih =>
    rw [List.replicate_succ, List.cons_append, placeValue, ih, Nat.sub_self, Nat.zero_mul, Nat.zero_add]

theorem Digits.replicate_append {digits : List Char} (h : Digits digits) (zeros : Nat) :
    Digits (List.replicate zeros '0' ++ digits) where
  ne_nil he := h.ne_nil (List.append_eq_nil_iff.mp he).2
  ascii c hc := by
    rcases List.mem_append.mp hc with zero | digit
    · rw [List.eq_of_mem_replicate zero]
      decide
    · exact h.ascii c digit

theorem digits_toDigits (n : Nat) : Digits (Nat.toDigits 10 n) where
  ne_nil := Nat.toDigits_ne_nil
  ascii c hc := (isDigit_iff c).mp (isDigit_of_mem_digits hc)

theorem placeValue_toDigits (n : Nat) : placeValue (Nat.toDigits 10 n) = n := by
  rw [← ofDigitChars_zero, Nat.ofDigitChars_ten_toDigits]

/-- The numeral of an integer spells it, also with zeros before the digits. -/
theorem spells_withZeros_ofInt (zeros : Nat) (n : Int) : Spells (withZeros zeros (ofInt n)) n := by
  have digits := (digits_toDigits n.natAbs).replicate_append zeros
  have value : placeValue (List.replicate zeros '0' ++ Nat.toDigits 10 n.natAbs) = n.natAbs := by
    rw [placeValue_replicate, placeValue_toDigits]
  rcases Int.lt_or_le n 0 with negative | positive
  · have spelled := Spells.minus digits
    rw [value, Int.ofNat_natAbs_of_nonpos (Int.le_of_lt negative), Int.neg_neg] at spelled
    rwa [ofInt, if_pos negative, withZeros, if_pos rfl]
  · have spelled := Spells.unsigned digits
    rw [value, Int.natAbs_of_nonneg positive] at spelled
    obtain ⟨c, rest, he, hc, -, -⟩ := toDigits_eq_cons n.natAbs
    rw [ofInt, if_neg (Int.not_lt.mpr positive), he, withZeros, if_neg (isDigit_ne hc rfl), ← he]
    exact spelled

end Numeral

namespace Value

/-! ## The width -/

/-- The integers of a width in two's complement. -/
def InRange (width : Nat) (n : Int) : Prop :=
  -(Nat.pow 2 (width - 1) : Int) ≤ n ∧ n < (Nat.pow 2 (width - 1) : Int)

/-- A number with a sign. -/
def signed (negative : Bool) (n : Nat) : Int := if negative then -(n : Int) else n

variable {width : Nat} {negative : Bool} {m n : Nat}

theorem fit?_of_inRange {k : Int} (h : InRange width k) : fit? width k = some k := if_pos h

theorem fit?_of_not_inRange {k : Int} (h : ¬InRange width k) : fit? width k = none := if_neg h

/-- What is nearer to zero than a number in the range is in it. -/
theorem InRange.of_le (h : InRange width (signed negative n)) (hm : m ≤ n) : InRange width (signed negative m) := by
  have half : 0 < Nat.pow 2 (width - 1) := Nat.pow_pos (by decide)
  obtain ⟨low, high⟩ := h
  cases negative <;> simp only [signed, InRange, if_true, Bool.false_eq_true, if_false] at low high ⊢ <;> omega

theorem inRange_zero : InRange width (signed negative 0) := by
  have half : 0 < Nat.pow 2 (width - 1) := Nat.pow_pos (by decide)
  cases negative <;> simp only [signed, InRange, if_true, Bool.false_eq_true, if_false] <;> omega

/-- The number with one more digit, if it stays in the width on the way. A negative number grows downwards. -/
def takeDigit? (width : Nat) (negative : Bool) (k : Int) (c : Char) : Option Int :=
  if c.isDigit then
    (fit? width (10 * k)).bind fun tens => fit? width (tens + signed negative (c.toNat - '0'.toNat))
  else none

/-- The number that one or more digits stand for, with the width checked at each of them. -/
def takeDigits? (width : Nat) (negative : Bool) (digits : List Char) : Option Int :=
  if digits.isEmpty then none else digits.foldlM (takeDigit? width negative) 0

/-- The integer of a numeral, with the width checked at each digit. -/
def readStepwise? (width : Nat) : List Char → Option Int
  | [] => none
  | c :: digits =>
    if c = '-' then takeDigits? width true digits
    else if c = '+' then takeDigits? width false digits
    else takeDigits? width false (c :: digits)

theorem takeDigit?_signed {c : Char} (hc : c.isDigit = true) :
    takeDigit? width negative (signed negative m) c
      = fit? width (signed negative (10 * m + (c.toNat - '0'.toNat))) := by
  have tens : 10 * signed negative m = signed negative (10 * m) := by
    cases negative <;> simp [signed]
  have sum : ∀ d : Nat, signed negative (10 * m) + signed negative d = signed negative (10 * m + d) := by
    intro d
    cases negative <;> simp [signed]
    omega
  rw [takeDigit?, if_pos hc, tens]
  by_cases hr : InRange width (signed negative (10 * m))
  · rw [fit?_of_inRange hr, Option.bind_some, sum]
  · have beyond : ¬InRange width (signed negative (10 * m + (c.toNat - '0'.toNat))) :=
      fun h => hr (h.of_le (Nat.le_add_right ..))
    rw [fit?_of_not_inRange hr, Option.bind_none, fit?_of_not_inRange beyond]

theorem le_ofDigitChars (digits : List Char) (n : Nat) : n ≤ Nat.ofDigitChars 10 digits n := by
  have one : 1 ≤ Nat.pow 10 digits.length := Nat.pow_pos (by decide)
  calc n = 1 * n := (Nat.one_mul n).symm
    _ ≤ Nat.pow 10 digits.length * n := Nat.mul_le_mul_right n one
    _ ≤ Nat.ofDigitChars 10 digits n := by
      rw [Numeral.ofDigitChars_eq]
      exact Nat.le_add_right ..

/-- Checking the width at each digit comes to checking it at the end: once out of the range, a number does not come back
to it with further digits. -/
theorem foldlM_takeDigit? (digits : List Char) (hm : InRange width (signed negative m)) :
    digits.foldlM (takeDigit? width negative) (signed negative m)
      = if digits.all Char.isDigit then fit? width (signed negative (Nat.ofDigitChars 10 digits m)) else none := by
  induction digits generalizing m with
  | nil => simp [fit?_of_inRange hm]
  | cons c rest ih =>
    rw [List.foldlM_cons, List.all_cons]
    by_cases hc : c.isDigit = true
    · rw [takeDigit?_signed hc, hc, Bool.true_and, Nat.ofDigitChars_cons]
      by_cases hr : InRange width (signed negative (10 * m + (c.toNat - '0'.toNat)))
      · rw [fit?_of_inRange hr]
        exact ih hr
      · have beyond : ¬InRange width (signed negative
            (Nat.ofDigitChars 10 rest (10 * m + (c.toNat - '0'.toNat)))) :=
          fun h => hr (h.of_le (le_ofDigitChars ..))
        rw [fit?_of_not_inRange hr, fit?_of_not_inRange beyond, ite_self]
        rfl
    · rw [takeDigit?, if_neg hc, Bool.eq_false_iff.mpr hc]
      rfl

theorem takeDigits?_eq (digits : List Char) : takeDigits? width negative digits
    = ((Numeral.readNat? digits).map (signed negative)).bind (fit? width) := by
  have fold := foldlM_takeDigit? digits (inRange_zero : InRange width (signed negative 0))
  have zero : signed negative 0 = 0 := by cases negative <;> rfl
  rw [zero] at fold
  rw [takeDigits?, fold, Numeral.readNat?]
  cases digits.isEmpty with
  | true => rfl
  | false =>
    cases digits.all Char.isDigit with
    | true => rfl
    | false => rfl

/-- A numeral may be read with the width checked at each digit. -/
theorem readStepwise?_eq (s : List Char) : readStepwise? width s = readInteger? width s := by
  cases s with
  | nil => rfl
  | cons c digits =>
    rw [readStepwise?, readInteger?, Numeral.readInt?_cons]
    split_ifs
    · exact takeDigits?_eq digits
    · exact takeDigits?_eq digits
    · exact takeDigits?_eq (c :: digits)

/-! ## The domains of integers -/

end Value

/-- The width of the integers of a domain, if it has integers. -/
def Domain.width? : Domain → Option Nat
  | .integer => some 32
  | .long => some 64
  | .short => some 16
  | .byte => some 8
  | _ => none

namespace Value

/-- The integer that a value of such a domain is. -/
def toInt? : Value → Option Int
  | integer n => some n.toInt
  | long n => some n.toInt
  | short n => some n.toInt
  | byte n => some n.toInt
  | _ => none

variable {domain : Domain} {v : Value} {n : Int}

/-- The value of a domain of integers that stands for an integer of its width. -/
def ofInt (domain : Domain) (n : Int) : Value :=
  match domain with
  | .long => long (Int64.ofInt n)
  | .short => short (Int16.ofInt n)
  | .byte => byte (Int8.ofInt n)
  | _ => integer (Int32.ofInt n)

theorem toInt?_ofInt (h : domain.width? = some width) (hn : InRange width n) :
    (ofInt domain n).domain = domain ∧ (ofInt domain n).toInt? = some n := by
  obtain ⟨low, high⟩ := hn
  cases domain with
  | integer => cases h; exact ⟨rfl, congrArg some (Int32.toInt_ofInt_of_le low high)⟩
  | long => cases h; exact ⟨rfl, congrArg some (Int64.toInt_ofInt_of_le low high)⟩
  | short => cases h; exact ⟨rfl, congrArg some (Int16.toInt_ofInt_of_le low high)⟩
  | byte => cases h; exact ⟨rfl, congrArg some (Int8.toInt_ofInt_of_le low high)⟩
  | double => cases h
  | float => cases h
  | character => cases h
  | string => cases h

theorem eq_ofInt (h : v.domain.width? = some width) (hv : v.toInt? = some n) :
    InRange width n ∧ ofInt v.domain n = v := by
  cases v with
  | integer m => cases h; cases hv; exact ⟨⟨m.le_toInt, m.toInt_lt⟩, congrArg integer m.ofInt_toInt⟩
  | long m => cases h; cases hv; exact ⟨⟨m.le_toInt, m.toInt_lt⟩, congrArg long m.ofInt_toInt⟩
  | short m => cases h; cases hv; exact ⟨⟨m.le_toInt, m.toInt_lt⟩, congrArg short m.ofInt_toInt⟩
  | byte m => cases h; cases hv; exact ⟨⟨m.le_toInt, m.toInt_lt⟩, congrArg byte m.ofInt_toInt⟩
  | double bits => cases h
  | float bits => cases h
  | character c => cases h
  | string s => cases h

theorem readTrimmed?_eq_map (h : domain.width? = some width) (literal : List Char) :
    readTrimmed? domain literal = (readInteger? width literal).map (ofInt domain) := by
  cases domain <;> cases h <;> rfl

theorem readInteger?_eq_some_iff {literal : List Char} :
    readInteger? width literal = some n ↔ Numeral.Spells literal n ∧ InRange width n := by
  rw [readInteger?, Option.bind_eq_some_iff]
  constructor
  · intro h
    obtain ⟨k, hk, hn⟩ := h
    by_cases hr : InRange width k
    · rw [fit?_of_inRange hr] at hn
      cases hn
      exact ⟨Numeral.readInt?_eq_some_iff.mp hk, hr⟩
    · rw [fit?_of_not_inRange hr] at hn
      cases hn
  · intro h
    exact ⟨n, Numeral.readInt?_eq_some_iff.mpr h.1, fit?_of_inRange h.2⟩

/-- What is read is the value of the domain that the integer is. -/
theorem read?_eq_some_iff (h : domain.width? = some width) {text : String} : read? domain text = some v
    ↔ v.domain = domain ∧ ∃ n, v.toInt? = some n ∧ readInteger? width (Text.trim text.toList) = some n := by
  rw [read?, readTrimmed?_eq_map h, Option.map_eq_some_iff]
  constructor
  · intro hr
    obtain ⟨n, hn, rfl⟩ := hr
    obtain ⟨hd, hv⟩ := toInt?_ofInt h (readInteger?_eq_some_iff.mp hn).2
    exact ⟨hd, n, hv, hn⟩
  · intro hr
    obtain ⟨rfl, n, hv, hn⟩ := hr
    exact ⟨n, hn, (eq_ofInt h hv).2⟩

theorem parse_eq_ok_iff {text : String} : parse domain text = .ok v ↔ read? domain text = some v := by
  rw [parse]
  cases read? domain text with
  | none => simp
  | some u => simp

theorem toList_render (h : v.domain.width? = some width) :
    ∃ n, v.toInt? = some n ∧ v.render.toList = Numeral.ofInt n := by
  cases v with
  | integer m => exact ⟨m.toInt, rfl, String.toList_ofList⟩
  | long m => exact ⟨m.toInt, rfl, String.toList_ofList⟩
  | short m => exact ⟨m.toInt, rfl, String.toList_ofList⟩
  | byte m => exact ⟨m.toInt, rfl, String.toList_ofList⟩
  | double bits => cases h
  | float bits => cases h
  | character c => cases h
  | string s => cases h

/-- A domain has the integers of its width, and one of them is read from exactly the texts that are a numeral of it with
white space around it. Any other text is refused with what is left of it when it is trimmed. So a value is read back from
its text, with any white space around it and any zeros before its digits. The width may be checked at each digit. -/
theorem integers_read_within_width (h : domain.width? = some width) :
    (∀ n, InRange width n ↔ ∃ v : Value, v.domain = domain ∧ v.toInt? = some n)
      ∧ (∀ text v, parse domain text = .ok v
        ↔ v.domain = domain ∧ ∃ n, v.toInt? = some n ∧ InRange width n ∧ Numeral.Denotes text.toList n)
      ∧ (∀ text, (∀ n, Numeral.Denotes text.toList n → ¬InRange width n) →
        parse domain text = .error (.unreadable (.literal (String.ofList (Text.trim text.toList)) domain)))
      ∧ (∀ v : Value, v.domain = domain → ∀ zeros before after, Text.AllBlank before → Text.AllBlank after →
        parse domain (String.ofList (before ++ Numeral.withZeros zeros v.render.toList ++ after)) = .ok v)
      ∧ (∀ text v, parse domain text = .ok v
        ↔ v.domain = domain ∧ ∃ n, v.toInt? = some n ∧ readStepwise? width (Text.trim text.toList) = some n) := by
  have read : ∀ text v, parse domain text = .ok v
      ↔ v.domain = domain ∧ ∃ n, v.toInt? = some n ∧ InRange width n ∧ Numeral.Denotes text.toList n := by
    intro text v
    rw [parse_eq_ok_iff, read?_eq_some_iff h]
    simp only [readInteger?_eq_some_iff, Numeral.denotes_iff, and_comm]
  refine ⟨?_, read, ?_, ?_, ?_⟩
  · intro n
    constructor
    · intro hn
      exact ⟨ofInt domain n, toInt?_ofInt h hn⟩
    · intro hv
      obtain ⟨v, rfl, hv⟩ := hv
      exact (eq_ofInt h hv).1
  · intro text beyond
    cases hr : read? domain text with
    | none => rw [parse, hr]
    | some v =>
      obtain ⟨-, n, -, hn, spelled⟩ := (read text v).mp (parse_eq_ok_iff.mpr hr)
      exact absurd hn (beyond n spelled)
  · intro v hd zeros before after hb ha
    subst hd
    obtain ⟨n, hv, shown⟩ := toList_render h
    refine (read _ v).mpr ⟨rfl, n, hv, (eq_ofInt h hv).1, before, _, after, String.toList_ofList, hb, ha, ?_⟩
    rw [shown]
    exact Numeral.spells_withZeros_ofInt zeros n
  · intro text v
    rw [parse_eq_ok_iff, read?_eq_some_iff h]
    simp only [readStepwise?_eq]

/-- The least byte is read from its text with zeros and white space, and one more than the greatest is refused. -/
theorem integers_read_within_width_bytes :
    Domain.byte.width? = some 8 ∧ parse .byte " -00128\t" = .ok (.byte (-128))
      ∧ parse .byte "+128" = .error (.unreadable (.literal "+128" .byte)) := by
  have width : Domain.byte.width? = some 8 := rfl
  obtain ⟨-, -, refused, back, -⟩ := integers_read_within_width width
  refine ⟨width, ?_, ?_⟩
  · exact back (.byte (-128)) rfl 2 [' '] ['\t'] (by simp [Text.AllBlank]; decide) (by simp [Text.AllBlank]; decide)
  · apply refused "+128"
    intro n spelled within
    have value : Numeral.readInt? "+128".toList = some n :=
      Numeral.readInt?_eq_some_iff.mpr (Numeral.denotes_iff.mp spelled)
    obtain rfl : 128 = n := Option.some.inj value
    exact absurd within.2 (by decide)

end Value

end Relata
