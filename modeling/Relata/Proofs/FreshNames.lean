import Mathlib.Data.Nat.Init
import Relata.Proofs.CommonColumns
/-!
# Names of joins

An attribute that follows those of a join keeps its name where that is free, and else takes the first free one of its name
with the suffix and the numbered names (`Renames`). The free name is found by a search whose counter has 32 bits
(`Search.Ends`). A search that has come to a number has met as many distinct names that are taken, so in a join of fewer
columns than the counter has values no search runs out of numbers (`ends_freshName`).
-/

namespace Relata.Join

/-- The name that an attribute is given where some names are taken. -/
inductive Renames (taken : List String) (suffix name : String) : String → Prop
  | kept (free : name ∉ taken) : Renames taken suffix name name
  | suffixed (colliding : name ∈ taken) (free : name ++ suffix ∉ taken) : Renames taken suffix name (name ++ suffix)
  | numbered (colliding : name ∈ taken) (again : name ++ suffix ∈ taken) {n : Nat} (positive : 1 ≤ n)
    (free : name ++ suffix ++ "_" ++ toString n ∉ taken)
    (least : ∀ m, 1 ≤ m → m < n → name ++ suffix ++ "_" ++ toString m ∈ taken) :
    Renames taken suffix name (name ++ suffix ++ "_" ++ toString n)

/-- Where a search for a free name is: the name that is tried, and the number of the next one. -/
structure Search where
  candidate : String
  next : UInt32

namespace Search

/-- A search begins with the name that carries no number. -/
def first (base : String) : Search := ⟨base, 1⟩

/-- The next number is tried. -/
def retry (base : String) (s : Search) : Search := ⟨base ++ "_" ++ toString s.next.toNat, s.next + 1⟩

/-- A search ends at a name that is free, and up to there its counter has room for each number. -/
inductive Ends (taken : List String) (base : String) : Search → String → Prop
  | free {s : Search} (h : s.candidate ∉ taken) : Ends taken base s s.candidate
  | retry {s : Search} {name : String} (h : s.candidate ∈ taken) (room : s.next.toNat + 1 < UInt32.size)
    (rest : Ends taken base (s.retry base) name) : Ends taken base s name

end Search

/-! ## Trials -/

/-- The names that a search tries, in order. -/
def trial (base : String) : Nat → String
  | 0 => base
  | n + 1 => base ++ "_" ++ toString (n + 1)

theorem trial_injective (base : String) : Function.Injective (trial base) := by
  have longer (n : Nat) : base ≠ base ++ "_" ++ toString (n + 1) := by
    intro he
    have := congrArg String.length he
    simp only [String.length_append] at this
    have underscore : "_".length = 1 := rfl
    omega
  intro m n he
  cases m with
  | zero =>
    cases n with
    | zero => rfl
    | succ n => exact absurd he (longer n)
  | succ m =>
    cases n with
    | zero => exact absurd he.symm (longer m)
    | succ n => exact Numeral.toString_injective ((String.append_right_inj _).mp he)

variable {taken : List String} {base suffix name : String}

/-- No more trials fail than there are names taken. -/
theorem le_length_of_trials {n : Nat} (h : ∀ m < n, trial base m ∈ taken) : n ≤ taken.length := by
  obtain ⟨m, hm, free⟩ := exists_free (trial_injective base) taken
  by_contra hn
  exact free (h m (by omega))

/-- The numbers before the one that is found make no name free. -/
theorem mem_of_lt_find? (number : Nat → String) {m : Nat}
    (hm : m < ((List.range taken.length).find? fun n => number n ∉ taken).getD taken.length) : number m ∈ taken := by
  cases hf : (List.range taken.length).find? fun n => number n ∉ taken with
  | some n =>
    rw [hf] at hm
    have := (List.find?_range_eq_some.mp hf).2.2 m hm
    simpa using this
  | none =>
    rw [hf] at hm
    have := List.find?_range_eq_none.mp hf m hm
    simpa using this

/-- Where a name is taken, the one given instead is the first trial that is free. -/
theorem exists_trial (colliding : name ∈ taken) (suffix : String) :
    ∃ n, freshName taken suffix name = trial (name ++ suffix) n ∧ ∀ m < n, trial (name ++ suffix) m ∈ taken := by
  rw [freshName, if_neg (not_not.mpr colliding)]
  split
  · exact ⟨0, rfl, fun m hm => absurd hm (Nat.not_lt_zero m)⟩
  · next again =>
    refine ⟨((List.range taken.length).find? fun n => trial (name ++ suffix) (n + 1) ∉ taken).getD taken.length + 1, rfl,
      ?_⟩
    intro m hm
    cases m with
    | zero => exact not_not.mp again
    | succ m => exact mem_of_lt_find? (fun n => trial (name ++ suffix) (n + 1)) (Nat.lt_of_succ_lt_succ hm)

theorem renames_freshName (taken : List String) (suffix name : String) :
    Renames taken suffix name (freshName taken suffix name) := by
  by_cases colliding : name ∈ taken
  · have free := freshName_notMem taken suffix name
    obtain ⟨n, found, least⟩ := exists_trial colliding suffix
    rw [found] at free ⊢
    cases n with
    | zero => exact .suffixed colliding free
    | succ n =>
      refine .numbered colliding (least 0 (Nat.succ_pos n)) (Nat.succ_pos n) free ?_
      intro m positive before
      obtain ⟨k, rfl⟩ := Nat.exists_eq_add_of_le' positive
      exact least (k + 1) before
  · rw [freshName, if_pos colliding]
    exact .kept colliding

/-! ## Searches -/

namespace Search

/-- A search after so many retries. -/
def after (base : String) (n : Nat) : Search := ⟨trial base n, UInt32.ofNat (n + 1)⟩

theorem toNat_next_after {n : Nat} (h : n + 1 < UInt32.size) : (after base n).next.toNat = n + 1 :=
  UInt32.toNat_ofNat_of_lt h

theorem retry_after {n : Nat} (h : n + 1 < UInt32.size) : (after base n).retry base = after base (n + 1) := by
  rw [retry, toNat_next_after h, after, after, UInt32.ofNat_add (n + 1) 1]
  rfl

/-- A search that has failed so far goes on to the first trial that is free. -/
theorem ends_after {n : Nat} (free : trial base n ∉ taken) (least : ∀ m < n, trial base m ∈ taken)
    (h : n + 1 < UInt32.size) {m : Nat} (hm : m ≤ n) : Ends taken base (after base m) (trial base n) := by
  induction hm using Nat.decreasingInduction with
  | self => exact .free free
  | of_succ m before ih =>
    have room : m + 1 + 1 < UInt32.size := by omega
    refine .retry (least m before) ?_ ?_
    · rwa [toNat_next_after (by omega)]
    · rwa [retry_after (by omega)]

end Search

/-- A search for the name of an attribute ends, and does so at the name that the attribute is given. -/
theorem ends_freshName (colliding : name ∈ taken) (h : taken.length + 1 < UInt32.size) :
    Search.Ends taken (name ++ suffix) (.first (name ++ suffix)) (freshName taken suffix name) := by
  have free := freshName_notMem taken suffix name
  obtain ⟨n, found, least⟩ := exists_trial colliding suffix
  have := le_length_of_trials least
  rw [found] at free ⊢
  exact Search.ends_after free least (by omega) (Nat.zero_le n)

/-! ## Schemas -/

variable {left right s : Schema}

/-- The name of a right-hand attribute, from the names that stand before it. -/
theorem getElem?_names_schema (h : schema left right suffix = .ok s) {i : Nat} {a : Attribute}
    (ha : right.attributes[i]? = some a) : s.names[left.arity + i]?
      = some (freshName (s.names.take (left.arity + i)) suffix a.name) := by
  have arity : left.names.length = left.arity := List.length_map _
  have names : s.names = left.names ++ (renamed suffix left.names right.attributes).map Attribute.name := by
    rw [Schema.names, Schema.attributes_of_build h, List.map_append]
    rfl
  rw [names, ← arity, List.take_length_add_append, List.getElem?_append_right (Nat.le_add_right ..),
    Nat.add_sub_cancel_left, List.getElem?_map, getElem?_renamed suffix left.names ha, ← List.map_take, take_renamed]
  rfl

/-- Two schemas of fewer columns in all than a counter of 32 bits has values have a join, whose names are distinct. The
left schema stays as it is, and the right-hand attributes follow in order, each renamed where its name is taken. No search
for a name uses the counter up. -/
theorem schema_eq_ok_of_arity_lt (left right : Schema) (suffix : String)
    (h : left.arity + right.arity < UInt32.size) :
    ∃ s, schema left right suffix = .ok s ∧ s.names.Nodup ∧ s.attributes.take left.arity = left.attributes
      ∧ s.domains = left.domains ++ right.domains ∧ s.key = left.key ∧ s.keyColumns = left.keyColumns
      ∧ ∀ i a, right.attributes[i]? = some a → ∃ name, s.names[left.arity + i]? = some name
        ∧ Renames (s.names.take (left.arity + i)) suffix a.name name
        ∧ (a.name ∈ s.names.take (left.arity + i) →
          Search.Ends (s.names.take (left.arity + i)) (a.name ++ suffix) (.first (a.name ++ suffix)) name) := by
  obtain ⟨s, hs⟩ := exists_schema left right suffix
  obtain ⟨attributes, key⟩ := (Schema.build_eq_ok_iff ..).mp hs
  refine ⟨s, hs, s.valid.names_nodup, ?_, ?_, key, Schema.keyColumns_append attributes key, ?_⟩
  · rw [attributes, Schema.arity, List.take_left]
  · rw [Schema.domains, attributes, List.map_append, map_domain_renamed]
    rfl
  · intro i a ha
    refine ⟨_, getElem?_names_schema hs ha, renames_freshName .., fun colliding => ends_freshName colliding ?_⟩
    have there : i < right.arity := (List.getElem?_eq_some_iff.mp ha).1
    have before := List.length_take_le (left.arity + i) s.names
    omega

/-- The gauges of a site, which has an old name. -/
def gauges : Schema :=
  ⟨[⟨"site", .string⟩, ⟨"site_1", .string⟩], ["site_1", "site"], ⟨by decide, by decide, by decide, by decide, by decide⟩⟩

/-- Which site comes after another one. -/
def neighbours : Schema :=
  ⟨[⟨"site", .string⟩, ⟨"site_2", .string⟩], ["site_2"], ⟨by decide, by decide, by decide, by decide, by decide⟩⟩

/-- With the empty suffix a name that is taken is tried again. The first neighbour takes the name of the second one. -/
theorem schema_eq_ok_of_arity_lt_gauges :
    gauges.arity + neighbours.arity < UInt32.size
      ∧ ∃ s, schema gauges neighbours "" = .ok s ∧ s.names = ["site", "site_1", "site_2", "site_2_1"]
        ∧ s.keyColumns = [1, 0] ∧ Renames ["site", "site_1"] "" "site" "site_2"
        ∧ Search.Ends ["site", "site_1"] "site" (.first "site") "site_2" := by
  have h : gauges.arity + neighbours.arity < UInt32.size := by decide
  obtain ⟨s, hs, -, -, -, -, columns, given⟩ := schema_eq_ok_of_arity_lt gauges neighbours "" h
  have names : (schema gauges neighbours "").toOption.map Schema.names
      = some ["site", "site_1", "site_2", "site_2_1"] := by decide +kernel
  rw [hs] at names
  have names : s.names = ["site", "site_1", "site_2", "site_2_1"] := Option.some.inj names
  obtain ⟨name, there, renamed, search⟩ := given 0 ⟨"site", .string⟩ rfl
  rw [names] at there renamed search
  obtain rfl : "site_2" = name := Option.some.inj there
  exact ⟨h, s, hs, names, columns.trans (by decide), renamed, search (by decide)⟩

end Relata.Join
