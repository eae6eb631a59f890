import Relata.Algebra.Operator
/-!
# Rows of set operators

A union is its left rows, followed by each right row that has not come yet. It begins with the left rows as they are
and takes no row twice from the right (`count_unionTuples`), so it is associative (`unionTuples_assoc`), and rows can be
left out before it as well as after it (`filter_unionTuples`). A difference and an intersection share the left rows out
between them (`Splits`).
-/

namespace Relata

namespace Operator

/-! ## Unions -/

section Unions

variable {left right : List Tuple} {row : Tuple}

theorem unionTuples_nil (left : List Tuple) : unionTuples left [] = left := rfl

theorem unionTuples_singleton (left : List Tuple) (row : Tuple) :
    unionTuples left [row] = if row ∈ left then left else left ++ [row] := rfl

theorem unionTuples_append (left right more : List Tuple) :
    unionTuples left (right ++ more) = unionTuples (unionTuples left right) more := List.foldl_append

/-- A union takes the right rows one at a time. -/
theorem unionTuples_cons (left : List Tuple) (row : Tuple) (right : List Tuple) :
    unionTuples left (row :: right) = unionTuples (unionTuples left [row]) right := rfl

theorem unionTuples_cons_of_mem (h : row ∈ left) (right : List Tuple) :
    unionTuples left (row :: right) = unionTuples left right := by
  rw [unionTuples_cons, unionTuples_singleton, if_pos h]

theorem unionTuples_cons_of_notMem (h : row ∉ left) (right : List Tuple) :
    unionTuples left (row :: right) = unionTuples (left ++ [row]) right := by
  rw [unionTuples_cons, unionTuples_singleton, if_neg h]

theorem unionTuples_of_subset (h : ∀ row ∈ right, row ∈ left) : unionTuples left right = left := by
  induction right with
  | nil => rfl
  | cons row right ih =>
    rw [unionTuples_cons_of_mem (h row List.mem_cons_self)]
    exact ih fun other ho => h other (List.mem_cons_of_mem row ho)

theorem mem_unionTuples_iff : row ∈ unionTuples left right ↔ row ∈ left ∨ row ∈ right := by
  induction right generalizing left with
  | nil => simp [unionTuples_nil]
  | cons first right ih =>
    by_cases h : first ∈ left
    · rw [unionTuples_cons_of_mem h, ih, List.mem_cons]
      constructor
      · intro hr
        exact hr.imp_right .inr
      · intro hr
        rcases hr with hl | rfl | hr
        · exact .inl hl
        · exact .inl h
        · exact .inr hr
    · rw [unionTuples_cons_of_notMem h, ih, List.mem_append, List.mem_singleton, List.mem_cons, or_assoc]

/-- Nothing comes twice from the right, and what is on the left comes as often as it is there. -/
theorem count_unionTuples (row : Tuple) (left right : List Tuple) : (unionTuples left right).count row
    = if row ∈ left then left.count row else if row ∈ right then 1 else 0 := by
  induction right generalizing left with
  | nil =>
    rw [unionTuples_nil]
    by_cases h : row ∈ left <;> simp [h, List.count_eq_zero_of_not_mem]
  | cons first right ih =>
    by_cases h : first ∈ left
    · rw [unionTuples_cons_of_mem h, ih]
      by_cases hr : row = first
      · simp [hr, h]
      · simp [hr]
    · rw [unionTuples_cons_of_notMem h, ih]
      by_cases hr : row = first
      · simp [hr, h, List.count_eq_zero_of_not_mem]
      · have ne : first ≠ row := Ne.symm hr
        simp [hr, ne]

/-- A union takes its rows from those of both sides, in order. -/
theorem unionTuples_sublist (left right : List Tuple) : (unionTuples left right).Sublist (left ++ right) := by
  induction right generalizing left with
  | nil => simp [unionTuples_nil]
  | cons row right ih =>
    by_cases h : row ∈ left
    · rw [unionTuples_cons_of_mem h]
      have fewer : (left ++ right).Sublist (left ++ row :: right) := (List.sublist_cons_self row right).append_left left
      exact (ih left).trans fewer
    · rw [unionTuples_cons_of_notMem h]
      have same := ih (left ++ [row])
      rwa [List.append_assoc, List.singleton_append] at same

/-- Rows may be left out of the sides of a union instead of the union. -/
theorem filter_unionTuples (keep : Tuple → Bool) (left right : List Tuple) :
    (unionTuples left right).filter keep = unionTuples (left.filter keep) (right.filter keep) := by
  induction right generalizing left with
  | nil => rfl
  | cons row right ih =>
    -- A row that is kept has come among the kept left rows exactly if it has come among all of them.
    cases hk : keep row with
    | true =>
      rw [List.filter_cons_of_pos hk]
      by_cases h : row ∈ left
      · rw [unionTuples_cons_of_mem h, unionTuples_cons_of_mem (List.mem_filter.mpr ⟨h, hk⟩), ih]
      · have absent : row ∉ left.filter keep := fun hm => h (List.mem_filter.mp hm).1
        rw [unionTuples_cons_of_notMem h, unionTuples_cons_of_notMem absent, ih, List.filter_append,
          List.filter_cons_of_pos hk, List.filter_nil]
    | false =>
      have drop : ¬keep row = true := Bool.eq_false_iff.mp hk
      rw [List.filter_cons_of_neg drop]
      by_cases h : row ∈ left
      · rw [unionTuples_cons_of_mem h, ih]
      · rw [unionTuples_cons_of_notMem h, ih, List.filter_append, List.filter_cons_of_neg drop, List.filter_nil,
          List.append_nil]

/-- One more right row may be added to the right side or to the union. -/
theorem unionTuples_unionTuples_singleton (first second : List Tuple) (row : Tuple) :
    unionTuples first (unionTuples second [row]) = unionTuples (unionTuples first second) [row] := by
  rw [unionTuples_singleton second]
  by_cases h : row ∈ second
  · have there : row ∈ unionTuples first second := mem_unionTuples_iff.mpr (.inr h)
    rw [if_pos h, unionTuples_singleton, if_pos there]
  · rw [if_neg h, unionTuples_append]

theorem unionTuples_assoc (first second third : List Tuple) :
    unionTuples (unionTuples first second) third = unionTuples first (unionTuples second third) := by
  induction third generalizing second with
  | nil => rfl
  | cons row third ih =>
    calc unionTuples (unionTuples first second) (row :: third)
      _ = unionTuples (unionTuples (unionTuples first second) [row]) third := unionTuples_cons ..
      _ = unionTuples (unionTuples first (unionTuples second [row])) third := by
          rw [unionTuples_unionTuples_singleton]
      _ = unionTuples first (unionTuples (unionTuples second [row]) third) := ih _
      _ = unionTuples first (unionTuples second (row :: third)) := rfl

end Unions

/-! ## Differences and intersections -/

section Differences

variable (left right more : List Tuple) (keep : Tuple → Bool)

theorem minus_minus : (left.filter fun row => row ∉ left.filter fun row => row ∉ right)
    = left.filter fun row => row ∈ right := by
  apply List.filter_congr
  intro row hr
  simp [hr]

theorem minus_unionTuples : (left.filter fun row => row ∉ unionTuples right more)
    = (left.filter fun row => row ∉ right).filter fun row => row ∉ more := by
  rw [List.filter_filter]
  apply List.filter_congr
  intro row _
  rw [← Bool.decide_and, decide_eq_decide, mem_unionTuples_iff, not_or, and_comm]

/-- A row that is not kept on the left is not looked for on the right. -/
theorem filter_minus_filter : ((left.filter keep).filter fun row => row ∉ right.filter keep)
    = (left.filter keep).filter fun row => row ∉ right := by
  apply List.filter_congr
  intro row hr
  have hk := (List.mem_filter.mp hr).2
  simp [hk]

theorem mem_unionTuples_minus_intersect {row : Tuple} :
    row ∈ unionTuples (left.filter fun row => row ∉ right) (left.filter fun row => row ∈ right) ↔ row ∈ left := by
  rw [mem_unionTuples_iff, List.mem_filter, List.mem_filter]
  by_cases h : row ∈ right <;> simp [h]

end Differences

end Operator

/-! ## Rows shared out -/

/-- Each place of a list goes to exactly one of two lists, which keep its order. -/
inductive Splits {α : Type} : List α → List α → List α → Prop where
  | nil : Splits [] [] []
  | left {a : α} {l first second : List α} (h : Splits l first second) : Splits (a :: l) (a :: first) second
  | right {a : α} {l first second : List α} (h : Splits l first second) : Splits (a :: l) first (a :: second)

theorem splits_filter {α : Type} {keep drop : α → Bool} {l : List α} (h : ∀ a ∈ l, drop a = !keep a) :
    Splits l (l.filter keep) (l.filter drop) := by
  induction l with
  | nil => exact .nil
  | cons a l ih =>
    have rest := ih fun b hb => h b (List.mem_cons_of_mem a hb)
    have first := h a List.mem_cons_self
    cases hk : keep a with
    | true =>
      rw [List.filter_cons_of_pos hk, List.filter_cons_of_neg (by simp [first, hk])]
      exact .left rest
    | false =>
      rw [List.filter_cons_of_neg (by simp [hk]), List.filter_cons_of_pos (by simp [first, hk])]
      exact .right rest

theorem Splits.length_eq {α : Type} {l first second : List α} (h : Splits l first second) :
    first.length + second.length = l.length := by
  induction h with
  | nil => rfl
  | left h ih =>
    rw [List.length_cons, List.length_cons]
    omega
  | right h ih =>
    rw [List.length_cons, List.length_cons]
    omega

end Relata
