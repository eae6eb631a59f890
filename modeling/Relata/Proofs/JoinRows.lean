import Relata.Algebra.Join
import Relata.Proofs.Rows
/-!
# Rows of joins

On rows that fit their schemas no join reads a column that is not there, so every join is the plain
nested loop over related pairs (`byScan?_eq_some`, `theta?_eq_some`, `natural?_eq_some`). The schemas of
joins give the rows put together the domains of their parts.
-/

namespace Relata.Join

/-! ## Nested loops -/

/-- Whether two rows show the same values at columns in pairs. -/
def agree (pairs : List (Nat × Nat)) (l r : Tuple) : Bool := pairs.all fun p => l[p.1]? == r[p.2]?

/-- Whether the values of two rows at a column of each are in an order that is wanted. -/
def compared (holds : Ordering → Bool) (left right : Nat) (l r : Tuple) : Bool :=
  holds (compare (l[left]?.getD default) (r[right]?.getD default))

/-- Every related pair of a left and a right row put together: for each left row in order, the right
rows in order. -/
def nested (related : Tuple → Tuple → Bool) (together : Tuple → Tuple → Tuple) (left right : List Tuple) :
    List Tuple :=
  left.flatMap fun l => (right.filter (related l)).map (together l)

theorem nested_cons (related : Tuple → Tuple → Bool) (together : Tuple → Tuple → Tuple) (l : Tuple)
    (left right : List Tuple) : nested related together (l :: left) right
      = (right.filter (related l)).map (together l) ++ nested related together left right :=
  List.flatMap_cons

theorem mem_nested {related : Tuple → Tuple → Bool} {together : Tuple → Tuple → Tuple}
    {left right : List Tuple} {row : Tuple} (h : row ∈ nested related together left right) :
    ∃ l ∈ left, ∃ r ∈ right, together l r = row := by
  obtain ⟨l, hl, h⟩ := List.mem_flatMap.mp h
  obtain ⟨r, hr, he⟩ := List.mem_map.mp h
  exact ⟨l, hl, r, (List.mem_filter.mp hr).1, he⟩

/-- Where every pair of rows has an answer and a row put together, the nested loop is the plain one. -/
theorem nested?_eq_some {related? : Tuple → Tuple → Option Bool} {together? : Tuple → Tuple → Option Tuple}
    {related : Tuple → Tuple → Bool} {together : Tuple → Tuple → Tuple} {left right : List Tuple}
    (hr : ∀ l ∈ left, ∀ r ∈ right, related? l r = some (related l r))
    (ht : ∀ l ∈ left, ∀ r ∈ right, together? l r = some (together l r)) :
    nested? related? together? left right = some (nested related together left right) := by
  have parts : left.mapM (fun l => do
      let found ← right.filterM (related? l)
      found.mapM (together? l)) = some (left.map fun l => (right.filter (related l)).map (together l)) := by
    refine mapM_eq_some_map fun l hl => ?_
    rw [filterM_eq_some_filter (hr l hl), Option.bind_eq_bind, Option.bind_some]
    exact mapM_eq_some_map fun r hf => ht l hl r (List.mem_filter.mp hf).1
  rw [nested?, parts, nested, List.flatMap_def]
  rfl

theorem agree?_eq_some {pairs : List (Nat × Nat)} {l r : Tuple} (hl : ∀ p ∈ pairs, p.1 < l.length)
    (hr : ∀ p ∈ pairs, p.2 < r.length) : agree? pairs l r = some (agree pairs l r) := by
  induction pairs with
  | nil => rfl
  | cons p rest ih =>
    have tail := ih (fun q hq => hl q (List.mem_cons_of_mem p hq))
      fun q hq => hr q (List.mem_cons_of_mem p hq)
    obtain ⟨v, hv⟩ : ∃ v, l[p.1]? = some v := ⟨_, List.getElem?_eq_getElem (hl p List.mem_cons_self)⟩
    obtain ⟨w, hw⟩ : ∃ w, r[p.2]? = some w := ⟨_, List.getElem?_eq_getElem (hr p List.mem_cons_self)⟩
    rw [agree?, agree, List.all_cons, ← agree]
    simp only [hv, hw, tail]
    by_cases he : v = w
    · rw [if_pos he, he, beq_self_eq_true, Bool.true_and]
    · rw [if_neg he, beq_eq_false_iff_ne.mpr fun h => he (Option.some.inj h), Bool.false_and]

/-! ## Rows that fit -/

section Fits

variable {left right : Schema} {lefts rights : List Tuple} (hl : ∀ row ∈ lefts, left.Fits row)
  (hr : ∀ row ∈ rights, right.Fits row)
include hl hr

theorem agree?_of_fits {pairs : List (Nat × Nat)} (hp : ∀ p ∈ pairs, p.1 < left.arity ∧ p.2 < right.arity) :
    ∀ l ∈ lefts, ∀ r ∈ rights, agree? pairs l r = some (agree pairs l r) := by
  intro l hm r hn
  exact agree?_eq_some (fun p h => (hl l hm).length_eq ▸ (hp p h).1)
    fun p h => (hr r hn).length_eq ▸ (hp p h).2

theorem byScan?_eq_some {l r : List Nat} (hp : ∀ p ∈ l.zip r, p.1 < left.arity ∧ p.2 < right.arity) :
    byScan? l r lefts rights = some (nested (agree (l.zip r)) List.append lefts rights) :=
  nested?_eq_some (agree?_of_fits hl hr hp) fun _ _ _ _ => rfl

theorem theta?_eq_some (holds : Ordering → Bool) {l r : Nat} (hlt : l < left.arity) (hrt : r < right.arity) :
    theta? holds l r lefts rights = some (nested (compared holds l r) List.append lefts rights) := by
  refine nested?_eq_some (fun a ha b hb => ?_) fun _ _ _ _ => rfl
  obtain ⟨v, hv⟩ := (hl a ha).getElem? hlt
  obtain ⟨w, hw⟩ := (hr b hb).getElem? hrt
  rw [compared, hv, hw]
  rfl

theorem natural?_eq_some {common : List (Nat × Nat)} {kept : List Nat}
    (hp : ∀ p ∈ common, p.1 < left.arity ∧ p.2 < right.arity) (hk : ∀ c ∈ kept, c < right.arity) :
    natural? common kept lefts rights
      = some (nested (agree common) (fun l r => l ++ r.project kept) lefts rights) := by
  refine nested?_eq_some (agree?_of_fits hl hr hp) fun l _ r hn => ?_
  rw [(hr r hn).project?_eq_some hk]
  rfl

end Fits

/-! ## Columns of an equi-join -/

section Columns

variable {left right : Schema} {l r : List String} {lc rc : List Nat}

/-- An equi-join has as many names on both sides, at least one, and finds the columns of each side there. -/
theorem columns_eq_ok_iff : columns left right l r = .ok (lc, rc) ↔ l ≠ [] ∧ l.length = r.length
    ∧ left.columns l = .ok lc ∧ right.columns r = .ok rc ∧ checkPairs left right (lc.zip rc) = .ok () := by
  rw [columns]
  by_cases hn : l = [] ∨ l.length ≠ r.length
  · rw [if_pos hn]
    constructor
    · intro h
      cases h
    · rintro ⟨ne, lengths, -⟩
      exact (hn.elim ne fun h => h lengths).elim
  · rw [if_neg hn]
    rw [not_or, Decidable.not_not] at hn
    simp only [bind_eq_ok_iff]
    constructor
    · rintro ⟨lc', hl, rc', hr, ⟨⟩, checked, h⟩
      cases h
      exact ⟨hn.1, hn.2, hl, hr, checked⟩
    · rintro ⟨-, -, hl, hr, checked⟩
      exact ⟨lc, hl, rc, hr, (), checked, rfl⟩

/-- The columns of an equi-join are paired one to one and lie within their schemas. -/
theorem columns_eq_ok (h : columns left right l r = .ok (lc, rc)) :
    lc.length = rc.length ∧ (∀ c ∈ lc, c < left.arity) ∧ ∀ c ∈ rc, c < right.arity := by
  obtain ⟨-, hn, hl, hr, -⟩ := columns_eq_ok_iff.mp h
  refine ⟨?_, Schema.columns_lt hl, Schema.columns_lt hr⟩
  rw [Schema.length_columns hl, Schema.length_columns hr, hn]

end Columns

theorem lt_of_mem_zip {left right : Schema} {l r : List Nat} (hl : ∀ c ∈ l, c < left.arity)
    (hr : ∀ c ∈ r, c < right.arity) : ∀ p ∈ l.zip r, p.1 < left.arity ∧ p.2 < right.arity := by
  intro p hp
  obtain ⟨h₁, h₂⟩ := List.of_mem_zip hp
  exact ⟨hl _ h₁, hr _ h₂⟩

/-! ## Schemas of joins -/

theorem map_domain_renamed (suffix : String) (taken : List String) (attributes : List Attribute) :
    (renamed suffix taken attributes).map Attribute.domain = attributes.map Attribute.domain := by
  induction attributes generalizing taken with
  | nil => rfl
  | cons a rest ih => rw [renamed, List.map_cons, List.map_cons, ih]

/-- Rows side by side fit the schema of a join. -/
theorem fits_append {left right s : Schema} {suffix : String} (h : schema left right suffix = .ok s)
    {l r : Tuple} (hl : left.Fits l) (hr : right.Fits r) : s.Fits (l ++ r) := by
  rw [Schema.Fits, Schema.domains, Schema.attributes_of_build h, List.map_append, List.map_append,
    map_domain_renamed, hl, hr]
  rfl

theorem commonColumns_lt {right : Schema} {position : Nat} {attributes : List Attribute}
    {common : List (Nat × Nat)} (h : commonColumns right position attributes = .ok common) :
    ∀ p ∈ common, p.1 < position + attributes.length ∧ p.2 < right.arity := by
  induction attributes generalizing position common with
  | nil =>
    cases h
    exact fun _ hp => nomatch hp
  | cons a rest ih =>
    -- Later columns are within the bound for the longer list.
    have later : ∀ {more}, commonColumns right (position + 1) rest = .ok more →
        ∀ p ∈ more, p.1 < position + (a :: rest).length ∧ p.2 < right.arity := by
      intro more hm p hp
      have := ih hm p hp
      rw [List.length_cons]
      omega
    rw [commonColumns] at h
    split at h
    · exact later h
    · next r hr =>
      split at h
      · exact later h
      · obtain ⟨⟨⟩, -, h⟩ := exists_of_bind_eq_ok h
        obtain ⟨more, hm, h⟩ := exists_of_bind_eq_ok h
        cases h
        intro p hp
        rcases List.mem_cons.mp hp with rfl | hp
        · exact ⟨Nat.lt_add_of_pos_right (Nat.succ_pos _), Schema.column?_lt hr⟩
        · exact later hm p hp

/-- A layout compares columns within both schemas, keeps columns of the right one, and lists the kept
attributes after the left ones. -/
theorem layout_eq_ok {left right : Schema} {lay : Layout} (h : layout left right = .ok lay) :
    (∀ p ∈ lay.common, p.1 < left.arity ∧ p.2 < right.arity) ∧ (∀ c ∈ lay.kept, c < right.arity)
      ∧ lay.schema.attributes
        = left.attributes ++ lay.kept.filterMap fun c => right.attributes[c]? := by
  obtain ⟨common, hc, h⟩ := exists_of_bind_eq_ok h
  obtain ⟨s, hs, h⟩ := exists_of_bind_eq_ok h
  cases h
  refine ⟨fun p hp => ?_, fun c hk => ?_, Schema.attributes_of_build hs⟩
  · have := commonColumns_lt hc p hp
    rwa [Nat.zero_add] at this
  · exact List.mem_range.mp (List.mem_filter.mp hk).1

/-- A row with the kept part of another fits the schema of a natural join. -/
theorem fits_append_project {left right : Schema} {lay : Layout} (h : layout left right = .ok lay)
    {l r : Tuple} (hl : left.Fits l) (hr : right.Fits r) :
    lay.schema.Fits (l ++ r.project lay.kept) := by
  obtain ⟨-, -, ha⟩ := layout_eq_ok h
  rw [Schema.Fits, Schema.domains, ha, List.map_append, List.map_append, hr.map_domain_project, hl]
  rfl

end Relata.Join
