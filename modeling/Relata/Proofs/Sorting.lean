import Mathlib.Data.List.Pairwise
import Relata.Sorted
/-!
# Sorting

Sorting keeps the elements and puts them in ascending order. So a list that ascends strictly is what sorting
makes of its elements, in whatever order they come.
-/

namespace Relata.Sorted

variable {α : Type} [Ord α]

theorem insert_perm (a : α) (l : List α) : (insert a l).Perm (a :: l) := by
  induction l with
  | nil => exact .refl _
  | cons b rest ih =>
    rw [insert]
    split
    · exact (ih.cons b).trans (.swap a b rest)
    · exact .refl _

theorem sort_perm (l : List α) : (sort l).Perm l := by
  induction l with
  | nil => exact .refl _
  | cons a l ih => exact (insert_perm a (sort l)).trans (ih.cons a)

/-- No element comes after one that is above it. -/
def Ascends (l : List α) : Prop := l.Pairwise fun a b => (compare a b).isLE = true

section Order

variable [Std.TransOrd α]

theorem ascends_insert (a : α) {l : List α} (h : Ascends l) : Ascends (insert a l) := by
  induction l with
  | nil => exact List.pairwise_singleton _ _
  | cons b rest ih =>
    obtain ⟨first, later⟩ := List.pairwise_cons.mp h
    rw [insert]
    split
    · next hg =>
      refine List.pairwise_cons.mpr ⟨fun c hc => ?_, ih later⟩
      rcases List.mem_cons.mp ((insert_perm a rest).subset hc) with rfl | hc
      · rw [Std.OrientedCmp.lt_of_gt hg]
        rfl
      · exact first c hc
    · next hg =>
      have le : (compare a b).isLE = true := by
        cases hc : compare a b with
        | gt => exact absurd hc hg
        | lt => rfl
        | eq => rfl
      refine List.pairwise_cons.mpr ⟨fun c hc => ?_, h⟩
      rcases List.mem_cons.mp hc with rfl | hc
      · exact le
      · exact Std.TransOrd.isLE_trans le (first c hc)

theorem ascends_sort (l : List α) : Ascends (sort l) := by
  induction l with
  | nil => exact .nil
  | cons a l ih => exact ascends_insert a ih

/-- The order of the elements leaves no choice of an ascending list. -/
theorem Ascends.eq_of_perm [Std.LawfulEqOrd α] {l l' : List α} (hl : Ascends l) (hl' : Ascends l') (hp : l.Perm l') :
    l = l' := by
  have antisymm : ∀ a b, a ∈ l → b ∈ l' → (compare a b).isLE = true → (compare b a).isLE = true → a = b :=
    fun _ _ _ _ hab hba => Std.LawfulEqOrd.eq_of_compare (Std.OrientedCmp.isLE_antisymm hab hba)
  exact List.Perm.eq_of_pairwise antisymm hl hl' hp

theorem sort_eq_of_perm [Std.LawfulEqOrd α] {l ascending : List α} (hp : l.Perm ascending)
    (ha : ascending.Pairwise fun a b => compare a b = .lt) : sort l = ascending := by
  have ascends : Ascends ascending := ha.imp fun h => by rw [h]; rfl
  exact (ascends_sort l).eq_of_perm ascends ((sort_perm l).trans hp)

theorem sort_eq_sort_of_perm [Std.LawfulEqOrd α] {l l' : List α} (hp : l.Perm l') : sort l = sort l' :=
  (ascends_sort l).eq_of_perm (ascends_sort l') ((sort_perm l).trans (hp.trans (sort_perm l').symm))

end Order

end Relata.Sorted
