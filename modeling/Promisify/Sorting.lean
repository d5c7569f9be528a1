set_option autoImplicit false

/-! # Sorting

Edits, plans and paths are put in order by one sort, each by its own comparison.
-/

namespace Promisify

variable {α : Type}

/-- Inserts an item in front of the first one that it may stand before. -/
def insertSorted (before : α → α → Bool) (a : α) : List α → List α
  | [] => [a]
  | b :: bs => if before a b then a :: b :: bs else b :: insertSorted before a bs

/-- The items in order; those that may stand before each other keep the order they had. -/
def sortedBy (before : α → α → Bool) : List α → List α
  | [] => []
  | a :: as => insertSorted before a (sortedBy before as)

end Promisify
