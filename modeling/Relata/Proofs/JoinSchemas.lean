import Mathlib.Data.List.Nodup
import Mathlib.Data.List.Perm.Subperm
import Relata.Proofs.JoinRows
import Relata.Proofs.Numerals
/-!
# Schemas of joins

An attribute that follows those of a join is given a name that none of them has: of the numbered names one more is tried
than there are names taken (`freshName_notMem`). So the names of a join are distinct, and any two schemas have a join
(`exists_schema`).
-/

namespace Relata.Join

variable {taken : List String}

/-- Of distinct names one more than are taken, one is free. -/
theorem exists_free {number : Nat → String} (hn : Function.Injective number) (taken : List String) :
    ∃ n ≤ taken.length, number n ∉ taken := by
  by_contra none
  have all : (List.range (taken.length + 1)).map number ⊆ taken := by
    intro name hm
    obtain ⟨n, hr, rfl⟩ := List.mem_map.mp hm
    by_contra free
    exact none ⟨n, Nat.lt_succ_iff.mp (List.mem_range.mp hr), free⟩
  have distinct : ((List.range (taken.length + 1)).map number).Nodup := List.nodup_range.map hn
  have := (List.subperm_of_subset distinct all).length_le
  rw [List.length_map, List.length_range] at this
  omega

/-- The number that is found makes a name free, also when the search among the first numbers finds none. -/
theorem notMem_of_find? {number : Nat → String} (hn : Function.Injective number) (taken : List String) :
    number (((List.range taken.length).find? fun n => number n ∉ taken).getD taken.length) ∉ taken := by
  cases hf : (List.range taken.length).find? fun n => number n ∉ taken with
  | some n => exact of_decide_eq_true (List.find?_some (p := fun n => decide (number n ∉ taken)) hf)
  | none =>
    obtain ⟨n, hl, free⟩ := exists_free hn taken
    have last : n = taken.length := by
      by_contra before
      have := List.find?_eq_none.mp hf n (List.mem_range.mpr (by omega))
      exact this (decide_eq_true free)
    rw [Option.getD_none, ← last]
    exact free

theorem freshName_notMem (taken : List String) (suffix name : String) : freshName taken suffix name ∉ taken := by
  rw [freshName]
  split
  · next free => exact free
  · split
    · next free => exact free
    · have numbered : Function.Injective fun n : Nat => name ++ suffix ++ "_" ++ toString (n + 1) := by
        intro m n he
        have := Numeral.toString_injective ((String.append_right_inj _).mp he)
        omega
      exact notMem_of_find? numbered taken

/-- Distinct names stay distinct when attributes follow them. -/
theorem nodup_renamed (h : taken.Nodup) (suffix : String) (attributes : List Attribute) :
    (taken ++ (renamed suffix taken attributes).map Attribute.name).Nodup := by
  induction attributes generalizing taken with
  | nil => simpa [renamed] using h
  | cons a rest ih =>
    have longer : (taken ++ [freshName taken suffix a.name]).Nodup := by
      rw [List.nodup_append]
      refine ⟨h, List.nodup_singleton _, ?_⟩
      intro name hm other ho he
      rw [he, List.mem_singleton.mp ho] at hm
      exact freshName_notMem taken suffix a.name hm
    have rest := ih longer
    rwa [List.append_assoc] at rest

theorem valid_renamed (left : Schema) (suffix : String) (attributes : List Attribute) :
    Schema.Valid (left.attributes ++ renamed suffix left.names attributes) left.key where
  attributes_ne_nil := by simp [left.valid.attributes_ne_nil]
  key_ne_nil := left.valid.key_ne_nil
  names_nodup := by
    rw [List.map_append]
    exact nodup_renamed left.valid.names_nodup suffix attributes
  key_nodup := left.valid.key_nodup
  key_subset name hk := by
    rw [List.map_append]
    exact List.mem_append_left _ (left.valid.key_subset name hk)

/-- Any two schemas have a join. -/
theorem exists_schema (left right : Schema) (suffix : String) : ∃ s, schema left right suffix = .ok s :=
  ⟨⟨_, _, valid_renamed left suffix right.attributes⟩, (Schema.build_eq_ok_iff _ _ _).mpr ⟨rfl, rfl⟩⟩

/-! ## Names of right-hand attributes -/

theorem take_renamed (suffix : String) (taken : List String) (attributes : List Attribute) (n : Nat) :
    (renamed suffix taken attributes).take n = renamed suffix taken (attributes.take n) := by
  induction attributes generalizing taken n with
  | nil => simp [renamed]
  | cons a rest ih =>
    cases n with
    | zero => simp [renamed]
    | succ n => simp [renamed, ih]

/-- Attributes are renamed in turn, each where the names that were given before are taken too. -/
theorem getElem?_renamed (suffix : String) (taken : List String) {attributes : List Attribute} {i : Nat} {a : Attribute}
    (ha : attributes[i]? = some a) :
    (renamed suffix taken attributes)[i]? = some ⟨freshName
      (taken ++ (renamed suffix taken (attributes.take i)).map Attribute.name) suffix a.name, a.domain⟩ := by
  induction attributes generalizing taken i with
  | nil => cases ha
  | cons b rest ih =>
    cases i with
    | zero =>
      cases ha
      simp [renamed]
    | succ i =>
      have later := ih (taken ++ [freshName taken suffix b.name]) ha
      simpa [renamed] using later

/-- The names that a join gives to the right-hand attributes before the one with a name. -/
def namesBefore (left right : Schema) (suffix name : String) : List String :=
  (renamed suffix left.names (right.attributes.takeWhile fun a => a.name ≠ name)).map Attribute.name

/-- An attribute whose name is free when its turn comes keeps it. -/
theorem getElem?_schema {left right s : Schema} {suffix name : String} {i : Nat} {d : Domain}
    (h : schema left right suffix = .ok s) (ha : right.attributes[i]? = some ⟨name, d⟩) (hl : name ∉ left.names)
    (hb : name ∉ namesBefore left right suffix name) : s.attributes[left.arity + i]? = some ⟨name, d⟩ := by
  obtain ⟨hi, he⟩ := List.getElem?_eq_some_iff.mp ha
  have parts : right.attributes = right.attributes.take i ++ ⟨name, d⟩ :: right.attributes.drop (i + 1) := by
    rw [← he, List.getElem_cons_drop, List.take_append_drop]
  -- The name stands at no other place, so the attributes before it are those up to this place.
  have first : right.attributes.takeWhile (fun a => a.name ≠ name) = right.attributes.take i := by
    have other : ∀ a ∈ right.attributes.take i, decide (a.name ≠ name) = true := by
      intro a hm
      have distinct := right.valid.names_nodup
      rw [parts, List.map_append, List.map_cons, List.nodup_append] at distinct
      exact decide_eq_true (distinct.2.2 a.name (List.mem_map_of_mem hm) name List.mem_cons_self)
    conv_lhs => rw [parts]
    rw [List.takeWhile_append_of_pos other, List.takeWhile_cons_of_neg (by simp), List.append_nil]
  rw [namesBefore, first] at hb
  have free : name ∉ left.names ++ (renamed suffix left.names (right.attributes.take i)).map Attribute.name :=
    fun hm => (List.mem_append.mp hm).elim hl hb
  rw [Schema.attributes_of_build h, Schema.arity, List.getElem?_append_right (Nat.le_add_right ..),
    Nat.add_sub_cancel_left, getElem?_renamed suffix left.names ha, freshName, if_pos free]

end Relata.Join
