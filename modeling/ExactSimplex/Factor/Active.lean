import ExactSimplex.Vec
import ExactSimplex.Number.Text
import ExactSimplex.Factor.CountGroups

/-! # The active part of a matrix under elimination

Rows hold their stored values by column, columns hold which active rows have a value in them, and
both are grouped by their number of values. A pivot takes its row and column out of the groups and
clears its column in the other rows. The pivot row keeps its values, as a row of the triangular
factor.
-/
namespace ExactSimplex

structure Pivot (m : Nat) where
  row : Fin m
  column : Fin m
  deriving DecidableEq, Repr

/-- The part of a matrix that has not been pivoted on, next to the finished rows. -/
structure Active (m : Nat) where
  rows : Vector (Vector (Option Rat) m) m
  columns : Vector (Vector Bool m) m
  rowGroups : CountGroups m m
  columnGroups : CountGroups m m

namespace Active

variable {m : Nat}

def lastValue? (s : SparseVec m) (i : Fin m) : Option Rat :=
  s.foldl (fun found e => if e.1 = i then some e.2 else found) none

def valueCount (row : Vector (Option Rat) m) : Fin (m + 1) :=
  ⟨row.countP Option.isSome, Nat.lt_succ_of_le Vector.countP_le_size⟩

def memberCount (column : Vector Bool m) : Fin (m + 1) :=
  ⟨column.countP id, Nat.lt_succ_of_le Vector.countP_le_size⟩

/-- All rows and columns are active at first. -/
def ofColumns (columns : Vector (SparseVec m) m) : Active m :=
  let rows := Vector.ofFn fun i => Vector.ofFn fun j => lastValue? (columns.get j) i
  let members := Vector.ofFn fun j => Vector.ofFn fun i => ((rows.get i).get j).isSome
  ⟨rows, members, .ofCounts (rows.map valueCount), .ofCounts (members.map memberCount)⟩

def rowCount (A : Active m) (p : Fin m) : Nat := valueCount (A.rows.get p)

def columnCount (A : Active m) (q : Fin m) : Nat := memberCount (A.columns.get q)

/-- The active rows with a value in a column, by increasing index. -/
def rowsIn (A : Active m) (q : Fin m) : List (Fin m) :=
  (List.finRange m).filter fun i => (A.columns.get q).get i

def columnsIn (A : Active m) (p : Fin m) : List (Fin m) :=
  (List.finRange m).filter fun j => ((A.rows.get p).get j).isSome

def othersIn (A : Active m) (p q : Fin m) : SparseVec m :=
  (List.finRange m).filterMap fun j =>
    if j = q then none else ((A.rows.get p).get j).map fun v => (j, v)

/-- Add a multiple of one value of the pivot row to row `i`, and keep the sets of the columns up to date. A
sum of zero is not stored. -/
def addValue (i : Fin m) (ratio : Rat) :
    Vector (Option Rat) m × Vector (Vector Bool m) m → Fin m × Rat →
      Vector (Option Rat) m × Vector (Vector Bool m) m
  | (row, columns), (j, pivotRowValue) =>
    let difference := ratio * pivotRowValue
    match row.get j with
    | some existing =>
      let sum := existing + difference
      if sum = 0 then (put row j none, put columns j (put (columns.get j) i false))
      else (put row j (some sum), columns)
    | none => (put row j (some difference), put columns j (put (columns.get j) i true))

/-- The multiple of the pivot row that clears a stored value. There is none for a stored zero, or if
the pivot value is zero. -/
def multiplier? (v pivotValue : Rat) : Option Rat :=
  if v = 0 then none else divide? (-v) pivotValue

/-- Clear the pivot column in row `i`, noting the multiplier. -/
def clear (q : Fin m) (pivotValue : Rat) (others : SparseVec m) :
    Active m × SparseVec m → Fin m → Option (Active m × SparseVec m)
  | (A, multipliers), i =>
    match (A.rows.get i).get q with
    | none => some (A, multipliers)
    | some v =>
      (multiplier? v pivotValue).map fun ratio =>
        let (row, columns) := others.foldl (addValue i ratio) (put (A.rows.get i) q none, A.columns)
        ({ A with
            rows := put A.rows i row
            columns := columns
            rowGroups := A.rowGroups.update i (valueCount row) },
          multipliers ++ [(i, ratio)])

/-- Pivot on a position: the new active part and the multipliers of the cleared rows. Without a
result when the pivot value is missing or a row cannot be cleared. -/
def pivot (A : Active m) (position : Pivot m) : Option (Active m × SparseVec m) := do
  let p := position.row
  let q := position.column
  let pivotValue ← (A.rows.get p).get q
  let others := A.othersIn p q
  let removed : Active m :=
    { A with
      columns := (A.columnsIn p).foldl
        (fun columns j => put columns j (put (columns.get j) p false)) A.columns
      rowGroups := A.rowGroups.remove p
      columnGroups := A.columnGroups.remove q }
  let targets := removed.rowsIn q
  let start := { removed with columns := put removed.columns q (Vector.replicate m false) }
  let (B, multipliers) ← targets.foldlM (clear q pivotValue others) (start, [])
  let columnGroups := others.foldl
    (fun groups e => groups.update e.1 (memberCount (B.columns.get e.1))) B.columnGroups
  return ({ B with columnGroups := columnGroups }, multipliers)

end Active

end ExactSimplex
