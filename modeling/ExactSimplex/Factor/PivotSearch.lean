import ExactSimplex.Choice
import ExactSimplex.Factor.Active

/-! # Choosing a pivot

The cost of a pivot is the product of the other values in its row and in its column, a bound on
the values that it can create. A column with a single value costs nothing; of those the one in the
longest row is taken. Otherwise columns and rows are visited by increasing number of values, until
no later line can be cheaper than the best pivot found or the search limit is reached.
-/
namespace ExactSimplex

inductive Line (m : Nat) where
  | column (q : Fin m)
  | row (p : Fin m)
  deriving DecidableEq

namespace Active

variable {m : Nat}

/-- The pivot in a column with a single value that lies in the longest row. -/
def singleton? (A : Active m) : Option (Pivot m) :=
  firstBest (fun a b => decide (A.rowCount b.row < A.rowCount a.row))
    ((A.columnGroups.withCount 1).filterMap fun q => (A.rowsIn q).head?.map fun p => ⟨p, q⟩)

/-- The lines to visit with their number of values: columns from two values on, then rows, for every
number in turn. -/
def lines (A : Active m) : List (Nat × Line m) :=
  (List.range' 1 A.rowGroups.length).flatMap fun k =>
    (if 1 < k then (A.columnGroups.withCount k).map fun q => (k, .column q) else []) ++
      (A.rowGroups.withCount k).map fun p => (k, .row p)

/-- The positions of a line with `k` values, with their costs. -/
def offers (A : Active m) (k : Nat) : Line m → List (Nat × Pivot m)
  | .column q => (A.rowsIn q).map fun p => ((A.rowCount p - 1) * (k - 1), ⟨p, q⟩)
  | .row p => (A.columnsIn p).map fun q => ((A.columnCount q - 1) * (k - 1), ⟨p, q⟩)

/-- No line after this one offers a lower cost. -/
def floorCost (k : Nat) : Line m → Nat
  | .column _ => (k - 1) * (k - 1)
  | .row _ => k * (k - 1)

def cheapest (offers : List (Nat × Pivot m)) : Option (Nat × Pivot m) :=
  firstBest (fun a b => decide (a.1 < b.1)) offers

/-- Visit lines until the best offer cannot be undercut or enough lines have been considered. -/
def search (A : Active m) (limit : Nat) :
    List (Nat × Line m) → Nat → Option (Nat × Pivot m) → Option (Nat × Pivot m)
  | [], _, best => best
  | (k, line) :: rest, considered, best =>
    match cheapest (best.toList ++ (cheapest (A.offers k line)).toList) with
    | none => A.search limit rest (considered + 1) none
    | some found =>
      if found.1 ≤ floorCost k line || limit ≤ considered + 1 then some found
      else A.search limit rest (considered + 1) (some found)

/-- The next pivot; there is none when no value is left. -/
def choosePivot (A : Active m) (limit : Nat) : Option (Pivot m) :=
  match A.singleton? with
  | some found => some found
  | none => (A.search limit A.lines 0 none).map fun found => found.2

end Active

end ExactSimplex
