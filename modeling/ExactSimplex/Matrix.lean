import ExactSimplex.Error
import ExactSimplex.Vec
import ExactSimplex.Number.Text

/-! # The matrix store

A sparse matrix keeps its nonzero entries by rows and once more by columns. The rows lead: the
columns are rebuilt from them whenever a row comes or goes. Entries stay in the order in which
they were given, also when a row lists a column more than once. The arrays in which both copies
stand are those of a compressed matrix.
-/
namespace ExactSimplex

/-- Sparse rows with a copy by columns. -/
structure SparseMatrix (m n : Nat) where
  rows : Vector (SparseVec n) m
  columns : Vector (SparseVec m) n
  deriving DecidableEq

namespace SparseMatrix

variable {m n : Nat}

/-- The entries of one column, by increasing row and in row order within a row. -/
def columnOf (rows : Vector (SparseVec n) m) (j : Fin n) : SparseVec m :=
  (List.finRange m).flatMap fun i =>
    ((rows.get i).filter fun e => e.1 = j).map fun e => (i, e.2)

def ofRows (rows : Vector (SparseVec n) m) : SparseMatrix m n :=
  ⟨rows, Vector.ofFn (columnOf rows)⟩

/-- Append a row given by all its coefficients; zeros are dropped. -/
def pushRow (A : SparseMatrix m n) (row : Vec n) : SparseMatrix (m + 1) n :=
  ofRows (A.rows.push (Vec.support row))

/-- Take a row out, the later ones move up. -/
def removeRow (A : SparseMatrix m n) (i : Fin m) : SparseMatrix (m - 1) n :=
  ofRows (A.rows.eraseIdx i i.isLt)

/-- The number of stored entries. -/
def entryCount (A : SparseMatrix m n) : Nat :=
  A.rows.foldl (fun total row => total + row.length) 0

/-- The coefficients of a row; of repeated columns the last entry counts. -/
def denseRow (A : SparseMatrix m n) (i : Fin m) : Vec n :=
  SparseVec.writeTo (A.rows.get i) (Vec.zero n)

def denseRows (A : SparseMatrix m n) : List (Vec n) := (List.finRange m).map A.denseRow

/-- The dense rows as lines of right-aligned cells. -/
def text (A : SparseMatrix m n) : String :=
  String.join (A.denseRows.map fun row =>
    String.join (row.toList.map fun v => padLeft 6 (numberText v)) ++ "\n")

/-- The product `yᵀ A`: multiples of the rows added up. -/
def rowCombination (A : SparseMatrix m n) (y : Vec m) : Vec n :=
  (List.finRange m).foldl (fun d i =>
    if y.get i = 0 then d else SparseVec.addTo (A.rows.get i) (y.get i) d) (Vec.zero n)

end SparseMatrix

/-- A sparse matrix together with its size. -/
structure MatrixStore where
  rowCount : Nat
  columnCount : Nat
  matrix : SparseMatrix rowCount columnCount
  deriving DecidableEq

namespace MatrixStore

/-- The matrix with these rows. -/
def ofRowList {n : Nat} (rows : List (SparseVec n)) : MatrixStore :=
  ⟨rows.length, n, SparseMatrix.ofRows (tableOf rows rfl)⟩

def empty (n : Nat) : MatrixStore := ofRowList (n := n) []

/-- The starts never decrease. -/
def isSorted : List Nat → Bool
  | a :: b :: rest => decide (a ≤ b) && isSorted (b :: rest)
  | _ => true

/-- The pieces of a list between consecutive starts. -/
def slices {α : Type} (xs : List α) (starts : List Nat) : List (List α) :=
  (starts.zip starts.tail).map fun r => (xs.drop r.1).take (r.2 - r.1)

/-- Build a matrix from compressed rows: the values row after row, the column of each value, and
where each row starts, closed by the number of values. Zero values are dropped. -/
def ofCompressed (values : List Rat) (columns starts : List Nat) (n : Nat) :
    Except Error MatrixStore := do
  if columns.length ≠ values.length then
    throw (.wrongLength .columnIndices columns.length values.length)
  if starts.head? ≠ some 0 then throw .startsNotAtZero
  if starts.getLast? ≠ some values.length then throw (.startsNotAtEnd values.length)
  if !isSorted starts then throw .startsUnsorted
  let indices ← columns.mapM (expectIndex .column n)
  let rows := slices (indices.zip values) starts
  return ofRowList (rows.map fun row => row.filter fun e => e.2 ≠ 0)

/-- Append a row that has a coefficient for every column. -/
def pushRow (S : MatrixStore) (row : List Rat) : Except Error MatrixStore := do
  let coefficients ← expectLength .constraintRow S.columnCount row
  return ⟨S.rowCount + 1, S.columnCount, S.matrix.pushRow coefficients⟩

/-- Take out a row by its index. -/
def removeRow (S : MatrixStore) (index : Nat) : Except Error MatrixStore := do
  let i ← expectIndex .constraint S.rowCount index
  return ⟨S.rowCount - 1, S.columnCount, S.matrix.removeRow i⟩

/-- Append dense rows one after the other to an empty matrix. -/
def ofDenseRows (rows : List (List Rat)) (n : Nat) : Except Error MatrixStore :=
  rows.foldlM pushRow (empty n)

end MatrixStore

end ExactSimplex
