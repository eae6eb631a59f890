/-!
# Sorting

Insertion sort by an order. Equal elements keep the order they had.
-/

namespace Relata.Sorted

variable {α : Type} [Ord α]

/-- The list with an element before the first one that is not below it. -/
def insert (a : α) : List α → List α
  | [] => [a]
  | b :: rest => if compare a b = .gt then b :: insert a rest else a :: b :: rest

/-- The list in ascending order. -/
def sort (l : List α) : List α := l.foldr insert []

/-- The elements of a list, each once, in ascending order. -/
def distinct [DecidableEq α] (l : List α) : List α := sort l.eraseDups

end Relata.Sorted
