import ExactSimplex.Error
import ExactSimplex.Factor.Factorization
import ExactSimplex.Factor.PivotSearch

/-! # Elimination of a sparse matrix

Every step pivots once more. Each row is paired with the column that it was pivoted on, and the
columns of the matrix are reordered accordingly, so that the pivots come to stand on the diagonal.
-/
namespace ExactSimplex

/-- An elimination under way: the pivot rows so far, which column each row was pivoted on and which
row each column, and the eliminations. -/
structure Elimination (m : Nat) where
  active : Active m
  order : List (Fin m)
  columnOf : Vector (Fin m) m
  rowOf : Vector (Fin m) m
  etas : List (Eta m)

namespace Elimination

variable {m : Nat}

def start (columns : Vector (SparseVec m) m) : Elimination m :=
  ⟨Active.ofColumns columns, [], Vector.ofFn id, Vector.ofFn id, []⟩

def step (e : Elimination m) (position : Pivot m) : Option (Elimination m) :=
  (e.active.pivot position).map fun (active, multipliers) =>
    { active := active
      order := e.order ++ [position.row]
      columnOf := put e.columnOf position.row position.column
      rowOf := put e.rowOf position.column position.row
      etas := Eta.append e.etas ⟨position.row, multipliers⟩ }

def run (limit : Nat) : Nat → Elimination m → Except Failure (Elimination m)
  | 0, e => .ok e
  | remaining + 1, e =>
    match e.active.choosePivot limit with
    | none => .error (.refused (.singularBasis (remaining + 1)))
    | some position =>
      match e.step position with
      | none => .error .divisionByZero
      | some next => run limit remaining next

/-- A finished row, its columns renamed to the rows that they were pivoted on. -/
def upperRow (e : Elimination m) (p : Fin m) : TriangularLine m :=
  let q := e.columnOf.get p
  ⟨p, ((e.active.rows.get p).get q).getD 0,
    (e.active.othersIn p q).map fun entry => (e.rowOf.get entry.1, entry.2)⟩

/-- The column of a matrix that is given by triangular rows. -/
def upperColumn (rows : Vector (TriangularLine m) m) (j : Fin m) : TriangularLine m :=
  ⟨j, (rows.get j).diagonal, (List.finRange m).flatMap fun i =>
    ((rows.get i).others.filter fun e => e.1 = j).map fun e => (i, e.2)⟩

def factors (e : Elimination m) : Factorization m :=
  let rows := Vector.ofFn e.upperRow
  { rows := rows
    columns := Vector.ofFn (upperColumn rows)
    order := e.order
    position := Factorization.numberFrom 0 e.order (Vector.replicate m 0)
    factorEtas := e.etas
    updateEtas := [] }

end Elimination

namespace Factorization

variable {m : Nat}

/-- Factorize the matrix with these columns. The second part of the result is the order of the
columns: column `order[i]` becomes column `i` of the factorized matrix. -/
def ofColumns (columns : Vector (SparseVec m) m) (limit : Nat) :
    Except Failure (Factorization m × Vector (Fin m) m) := do
  let e ← Elimination.run limit m (Elimination.start columns)
  return (e.factors, e.columnOf)

end Factorization

end ExactSimplex
