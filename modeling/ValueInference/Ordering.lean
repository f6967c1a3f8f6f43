/-
Stable sorting of lists by insertion.
-/

namespace ValueInference

/-- Puts an item before the first one of a list that it may precede. -/
def insertBefore {α : Type} (le : α → α → Bool) (a : α) : List α → List α
  | [] => [a]
  | b :: bs => if le a b then a :: b :: bs else b :: insertBefore le a bs

/-- Sorts a list; items that tie keep their order. -/
def stableSort {α : Type} (le : α → α → Bool) : List α → List α
  | [] => []
  | a :: as => insertBefore le a (stableSort le as)

end ValueInference
