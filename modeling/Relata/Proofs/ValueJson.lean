import Relata.Proofs.Shapes
import Relata.Schema.Json
/-!
# Values read back from JSON

Every value is read back from its JSON form (`Value.ofJson?_toJson`): integers of each width at both ends
of their range, floating-point numbers by their bits, so that no NaN loses its payload and no zero its
sign, and texts with any characters.
-/

namespace Relata

open Json

theorem Domain.ofName?_name (d : Domain) : Domain.ofName? d.name = some d := by
  cases d <;> rfl

theorem Domain.ofJson?_toJson (d : Domain) : Domain.ofJson? d.toJson = some d := by
  rw [Domain.ofJson?, Domain.toJson, name?_ofString, Option.bind_some, Domain.ofName?_name]

theorem Domain.wellSpelled_toJson (d : Domain) : d.toJson.WellSpelled := wellSpelled_ofString _

theorem Schema.domainsOfJson?_map (l : List Domain) :
    Schema.domainsOfJson? (.array (l.map Domain.toJson)) = some l :=
  mapM_map l fun d _ => d.ofJson?_toJson

namespace Value

/-- An integer within a width fits it. -/
theorem fit?_eq_some {bits : Nat} {n : Int} (low : -(Nat.pow 2 (bits - 1) : Int) ≤ n)
    (high : n < (Nat.pow 2 (bits - 1) : Int)) : fit? bits n = some n := by
  rw [fit?, if_pos ⟨low, high⟩]

/-- A pattern below the bound of its width is read back from its number. -/
theorem patternOf?_ofNumeral {width n : Nat} (h : n < Nat.pow 2 width) :
    patternOf? width (ofNumeral (Numeral.ofInt n)) = some n := by
  rw [patternOf?, int?_ofNumeral, Option.bind_some, if_pos ⟨Int.natCast_nonneg n, by exact_mod_cast h⟩,
    Int.toNat_natCast]

/-- A payload is read back in the domain of its value. -/
theorem ofPayload?_payloadJson (v : Value) : ofPayload? v.domain v.payloadJson = some v := by
  cases v with
  | integer n =>
    have fits : fit? 32 n.toInt = some n.toInt := fit?_eq_some n.le_toInt n.toInt_lt
    rw [domain, payloadJson, ofPayload?, int?_ofNumeral, Option.bind_some, fits, Option.map_some,
      Int32.ofInt_toInt]
  | long n =>
    have fits : fit? 64 n.toInt = some n.toInt := fit?_eq_some n.le_toInt n.toInt_lt
    rw [domain, payloadJson, ofPayload?, int?_ofNumeral, Option.bind_some, fits, Option.map_some,
      Int64.ofInt_toInt]
  | short n =>
    have fits : fit? 16 n.toInt = some n.toInt := fit?_eq_some n.le_toInt n.toInt_lt
    rw [domain, payloadJson, ofPayload?, int?_ofNumeral, Option.bind_some, fits, Option.map_some,
      Int16.ofInt_toInt]
  | byte n =>
    have fits : fit? 8 n.toInt = some n.toInt := fit?_eq_some n.le_toInt n.toInt_lt
    rw [domain, payloadJson, ofPayload?, int?_ofNumeral, Option.bind_some, fits, Option.map_some,
      Int8.ofInt_toInt]
  | double bits =>
    have pattern : patternOf? 64 (ofNumeral (Numeral.ofInt bits.toNat)) = some bits.toNat :=
      patternOf?_ofNumeral bits.toNat_lt
    rw [domain, payloadJson, ofPayload?, pattern, Option.map_some, Nat.toUInt64_eq, UInt64.ofNat_toNat]
  | float bits =>
    have pattern : patternOf? 32 (ofNumeral (Numeral.ofInt bits.toNat)) = some bits.toNat :=
      patternOf?_ofNumeral bits.toNat_lt
    rw [domain, payloadJson, ofPayload?, pattern, Option.map_some, Nat.toUInt32_eq, UInt32.ofNat_toNat]
  | character c =>
    rw [domain, payloadJson, ofPayload?, string?_ofString, Option.map_some, String.toList_ofList]
  | string s => rw [domain, payloadJson, ofPayload?, string?_ofString, Option.map_some]

theorem wellSpelled_payloadJson (v : Value) : v.payloadJson.WellSpelled := by
  cases v with
  | integer n => exact wellSpelled_ofNumeral _
  | long n => exact wellSpelled_ofNumeral _
  | short n => exact wellSpelled_ofNumeral _
  | byte n => exact wellSpelled_ofNumeral _
  | double bits => exact wellSpelled_ofNumeral _
  | float bits => exact wellSpelled_ofNumeral _
  | character c => exact wellSpelled_ofString _
  | string s => exact wellSpelled_ofString _

/-- A value is read back from its JSON form. -/
theorem ofJson?_toJson (v : Value) : ofJson? v.toJson = some v := by
  rw [ofJson?, toJson, variant?_record, Option.bind_some]
  show (Domain.ofName? v.domain.name).bind _ = _
  rw [Domain.ofName?_name, Option.bind_some, ofPayload?_payloadJson]

theorem wellSpelled_toJson (v : Value) : v.toJson.WellSpelled := by
  refine wellSpelled_record fun m hm => ?_
  rw [List.mem_singleton.mp hm]
  exact v.wellSpelled_payloadJson

end Value

/-- A row is read back from its JSON form. -/
theorem Tuple.ofJson?_toJson (t : Tuple) : Tuple.ofJson? (Tuple.toJson t) = some t :=
  mapM_map t fun v _ => v.ofJson?_toJson

theorem Tuple.wellSpelled_toJson (t : Tuple) : (Tuple.toJson t).WellSpelled :=
  wellSpelled_array_map t fun v _ => v.wellSpelled_toJson

end Relata
