/-! # Choice and order

Every choice of the solver keeps the first of several equally good candidates, and sorting keeps
equal elements in their order.
-/
namespace ExactSimplex

variable {α : Type}

/-- The first element that is beaten by none: a later one is taken only if it is strictly better. -/
def firstBest (better : α → α → Bool) : List α → Option α
  | [] => none
  | a :: rest => some (rest.foldl (fun best c => if better c best then c else best) a)

/-- Put an element before the first one that it does not exceed. -/
def insertSorted (le : α → α → Bool) (a : α) : List α → List α
  | [] => [a]
  | b :: rest => if le a b then a :: b :: rest else b :: insertSorted le a rest

/-- Sort a list, equal elements staying in their order. -/
def stableSort (le : α → α → Bool) : List α → List α
  | [] => []
  | a :: rest => insertSorted le a (stableSort le rest)

end ExactSimplex
