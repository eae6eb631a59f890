import Relata.Json.Shape
import Relata.Proofs.Bytes
import Relata.Proofs.Numerals
import Relata.Proofs.Partial
import Relata.Proofs.Reading
/-!
# Shapes read back

For each shape that values are written in, its reader gives back what was written: texts
(`string?_ofString`), integers (`int?_ofNumeral`), records with distinct field names (`fields?_record`)
and variants (`variant?_record`). Beside each stands that the shape is well-spelled.
-/

namespace Relata.Json

/-! ## Texts -/

theorem string?_ofString (s : String) : (ofString s).string? = some s := by
  rw [ofString, string?, unescape?_escape, Option.bind_some, Bytes.utf8?_utf8]

theorem wellSpelled_ofString (s : String) : (ofString s).WellSpelled := .string _

theorem name?_ofString (s : String) : (ofString s).name? = some s := string?_ofString s

theorem wellSpelled_array_map {α : Type} {put : α → Json} (l : List α)
    (h : ∀ a ∈ l, (put a).WellSpelled) : (array (l.map put)).WellSpelled := by
  refine .array fun v hv => ?_
  obtain ⟨a, ha, rfl⟩ := List.mem_map.mp hv
  exact h a ha

theorem strings?_ofStrings (l : List String) : (ofStrings l).strings? = some l :=
  mapM_map l fun s _ => string?_ofString s

theorem wellSpelled_ofStrings (l : List String) : (ofStrings l).WellSpelled :=
  wellSpelled_array_map l fun s _ => wellSpelled_ofString s

/-! ## Numbers -/

theorem toNat_lt_of_isDigit {c : Char} (h : c.isDigit = true) : c.toNat < 58 ∧ 48 ≤ c.toNat := by
  simp only [Char.isDigit, ge_iff_le, Bool.and_eq_true, decide_eq_true_eq] at h
  have high : c.toNat ≤ 57 := h.2
  exact ⟨by omega, h.1⟩

/-- Characters below 256 are read back from their bytes. -/
theorem map_ascii {s : List Char} (h : ∀ c ∈ s, c.toNat < 256) :
    (ascii s).map (fun b => Char.ofNat b.toNat) = s := by
  rw [ascii, List.map_map]
  refine (List.map_congr_left fun c hc => ?_).trans (List.map_id s)
  have small : c.toNat.toUInt8.toNat = c.toNat := Nat.mod_eq_of_lt (h c hc)
  show Char.ofNat c.toNat.toUInt8.toNat = c
  rw [small, Char.ofNat_toNat]

theorem toNat_lt_of_mem_ofInt {n : Int} {c : Char} (h : c ∈ Numeral.ofInt n) : c.toNat < 256 := by
  have digit : ∀ d ∈ Nat.toDigits 10 n.natAbs, d.toNat < 256 := by
    intro d hd
    have := (toNat_lt_of_isDigit (Numeral.isDigit_of_mem_digits hd)).1
    omega
  unfold Numeral.ofInt at h
  split at h
  · rcases List.mem_cons.mp h with rfl | h
    · decide
    · exact digit c h
  · exact digit c h

/-- An integer is read back from its number. -/
theorem int?_ofNumeral (n : Int) : (ofNumeral (Numeral.ofInt n)).int? = some n := by
  have back := map_ascii (s := Numeral.ofInt n) fun _ => toNat_lt_of_mem_ofInt
  have small : ∀ c ∈ ['-', '0'], c.toNat < 256 := by
    intro c hc
    simp only [List.mem_cons, List.not_mem_nil, or_false] at hc
    rcases hc with rfl | rfl
    · decide
    · decide
  have notZero : ascii (Numeral.ofInt n) ≠ ascii ['-', '0'] := by
    intro he
    have zero := map_ascii small
    rw [← he, back] at zero
    exact Numeral.ofInt_ne_negative_zero n zero
  rw [ofNumeral, int?, if_neg notZero, back, Numeral.readInt?_ofInt]

theorem isDigit_toUInt8 {c : Char} (h : c.isDigit = true) : isDigit c.toNat.toUInt8 = true := by
  obtain ⟨high, low⟩ := toNat_lt_of_isDigit h
  have all : ∀ n < 58, 48 ≤ n → isDigit n.toUInt8 = true := by decide
  exact all c.toNat high low

/-- The digits before the point go on. -/
theorem foldlM_whole {s : List Char} (h : ∀ c ∈ s, c.isDigit = true) :
    (ascii s).foldlM NumberState.next? .whole = some .whole := by
  induction s with
  | nil => rfl
  | cons c s ih =>
    have hc := isDigit_toUInt8 (h c List.mem_cons_self)
    have step : NumberState.next? .whole c.toNat.toUInt8 = some .whole := by
      simp only [NumberState.next?, hc, if_true]
    rw [ascii, List.map_cons, List.foldlM_cons, step]
    exact ih fun d hd => h d (List.mem_cons_of_mem c hd)

/-- The digits of a number are a numeral, alone and behind a minus sign. -/
theorem digits_numeral (n : Nat) : ∃ b rest first last, ascii (Nat.toDigits 10 n) = b :: rest ∧
    NumberState.first? b = some first ∧ NumberState.next? .minus b = some first ∧
    rest.foldlM NumberState.next? first = some last ∧ last.complete = true := by
  obtain ⟨c, rest, hds, hc, hr, hz⟩ := Numeral.toDigits_eq_cons n
  have hb := isDigit_toUInt8 hc
  by_cases h0 : c = '0'
  · obtain ⟨-, rfl⟩ := hz h0
    subst h0
    exact ⟨0x30, [], .zero, .zero, by rw [hds]; rfl, rfl, rfl, rfl, rfl⟩
  · have minus : c.toNat.toUInt8 ≠ 0x2D := by
      intro he
      rw [he] at hb
      exact absurd hb (by decide)
    have zero : c.toNat.toUInt8 ≠ 0x30 := by
      intro he
      have small : c.toNat.toUInt8.toNat = c.toNat := by
        have := (toNat_lt_of_isDigit hc).1
        exact Nat.mod_eq_of_lt (by omega)
      rw [he] at small
      refine h0 ?_
      rw [← Char.ofNat_toNat c, ← small]
      rfl
    refine ⟨c.toNat.toUInt8, ascii rest, .whole, .whole, by rw [hds]; rfl, ?_, ?_, foldlM_whole hr, rfl⟩
    · rw [NumberState.first?, if_neg minus, if_neg zero, if_pos hb]
    · simp only [NumberState.next?, zero, if_false, hb, if_true]

theorem wellSpelled_ofNumeral (n : Int) : (ofNumeral (Numeral.ofInt n)).WellSpelled := by
  refine .number ?_
  obtain ⟨b, rest, first, last, hds, hf, hm, hr, hc⟩ := digits_numeral n.natAbs
  unfold Numeral.ofInt
  split
  · have cons : ascii ('-' :: Nat.toDigits 10 n.natAbs) = 0x2D :: b :: rest := by
      rw [← hds]
      rfl
    rw [cons]
    refine ⟨.minus, last, rfl, ?_, hc⟩
    rw [List.foldlM_cons, hm]
    exact hr
  · rw [hds]
    exact ⟨first, last, hf, hr, hc⟩

/-! ## Records and variants -/

theorem members?_record (members : List (String × Json)) : (record members).members? = some members := by
  refine mapM_map members fun m _ => ?_
  rw [unescape?_escape, Option.bind_some, Bytes.utf8?_utf8]
  rfl

theorem wellSpelled_record {members : List (String × Json)} (h : ∀ m ∈ members, m.2.WellSpelled) :
    (record members).WellSpelled := by
  refine .object (fun m hm => ?_) fun m hm => ?_
  · obtain ⟨a, -, rfl⟩ := List.mem_map.mp hm
    exact ⟨_, rfl⟩
  · obtain ⟨a, ha, rfl⟩ := List.mem_map.mp hm
    exact h a ha

/-- Among members with distinct names, the one of a name is the only one. -/
theorem unique?_eq_some {members : List (String × Json)} (distinct : (members.map Prod.fst).Nodup)
    {m : String × Json} (hm : m ∈ members) : unique? members m.1 = some m.2 := by
  induction members with
  | nil => cases hm
  | cons a rest ih =>
    rw [List.map_cons, List.nodup_cons] at distinct
    have key : rest.filter (fun b => b.1 == a.1) = [] := by
      rw [List.filter_eq_nil_iff]
      intro b hb he
      exact distinct.1 (List.mem_map.mpr ⟨b, hb, eq_of_beq he⟩)
    rcases List.mem_cons.mp hm with rfl | hm
    · have self : (m.1 == m.1) = true := beq_self_eq_true m.1
      rw [unique?, List.filter_cons, if_pos self, key]
    · have other : (a.1 == m.1) = false := by
        rw [beq_eq_false_iff_ne]
        intro he
        exact distinct.1 (he ▸ List.mem_map.mpr ⟨m, hm, rfl⟩)
      have tail := ih distinct.2 hm
      rw [unique?] at tail ⊢
      rwa [List.filter_cons, other, if_neg Bool.false_ne_true]

/-- The fields of a record with distinct names are read back in their order. -/
theorem fields?_record {members : List (String × Json)} (distinct : (members.map Prod.fst).Nodup) :
    fields? (members.map Prod.fst) (record members) = some (members.map Prod.snd) := by
  show ((record members).members?).bind _ = _
  rw [members?_record, Option.bind_some]
  have all : ∀ l : List (String × Json), (∀ m ∈ l, m ∈ members) →
      (l.map Prod.fst).mapM (unique? members) = some (l.map Prod.snd) := by
    intro l
    induction l with
    | nil => intro _; rfl
    | cons m l ih =>
      intro h
      rw [List.map_cons, List.mapM_cons, unique?_eq_some distinct (h m List.mem_cons_self),
        ih fun a ha => h a (List.mem_cons_of_mem m ha)]
      rfl
  exact all members fun _ h => h

theorem variant?_record (name : String) (payload : Json) :
    (record [(name, payload)]).variant? = some (name, payload) := by
  rw [variant?, members?_record]

end Relata.Json
