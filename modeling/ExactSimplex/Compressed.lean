import ExactSimplex.Checked
import ExactSimplex.Matrix

/-! # Compressed matrices

The entries of a matrix stand in two stores: row after row, and once more column after column. Each
store has a list of values, a list of their indices, and a list of the places where the lines start,
closed by the number of entries. The rows lead: the columns are collected from them anew whenever a row
comes or goes.
-/
namespace ExactSimplex

structure CompressedMatrix where
  columnCount : Nat
  rowValues : List Rat
  rowIndices : List Nat
  rowStarts : List Nat
  columnValues : List Rat
  columnIndices : List Nat
  columnStarts : List Nat
  deriving DecidableEq

namespace CompressedMatrix

def rowCount (A : CompressedMatrix) : Nat := A.rowStarts.length - 1

def entryCount (A : CompressedMatrix) : Nat := A.rowValues.length

/-- A line of a store: the indices of its entries with their values. -/
def line (values : List Rat) (indices starts : List Nat) (i : Nat) :
    Except Failure (List (Nat × Rat)) := do
  let start ← read starts i
  let stop ← read starts (i + 1)
  return (← slice indices start stop).zip (← slice values start stop)

def row (A : CompressedMatrix) (i : Nat) : Except Failure (List (Nat × Rat)) :=
  line A.rowValues A.rowIndices A.rowStarts i

def column (A : CompressedMatrix) (j : Nat) : Except Failure (List (Nat × Rat)) :=
  line A.columnValues A.columnIndices A.columnStarts j

/-- The coefficients of a row; of repeated columns the last entry counts. -/
def denseRow (A : CompressedMatrix) (i : Nat) : Except Failure (List Rat) := do
  (← A.row i).foldlM (fun dense e => write dense e.1 e.2) (List.replicate A.columnCount 0)

/-- Append an entry to the rows, unless it is zero. -/
def appendEntry (A : CompressedMatrix) (e : Rat × Nat) : CompressedMatrix :=
  if e.1 = 0 then A
  else { A with rowValues := A.rowValues ++ [e.1], rowIndices := A.rowIndices ++ [e.2] }

/-- Append a row: its entries, and the place where the next one starts. -/
def appendRow (A : CompressedMatrix) (entries : List (Rat × Nat)) : CompressedMatrix :=
  let A := entries.foldl appendEntry A
  { A with rowStarts := A.rowStarts ++ [A.rowValues.length] }

/-- Note the place of an entry of a row in the bucket of its column. -/
def collectEntry (A : CompressedMatrix) (i : Nat) (buckets : List (List (Nat × Nat))) (k : Nat) :
    Except Failure (List (List (Nat × Nat))) := do
  let j ← read A.rowIndices k
  change buckets j fun bucket => bucket ++ [(i, k)]

def collectRow (A : CompressedMatrix) (buckets : List (List (Nat × Nat))) (i : Nat) :
    Except Failure (List (List (Nat × Nat))) := do
  let start ← read A.rowStarts i
  let stop ← read A.rowStarts (i + 1)
  (List.range' start (stop - start)).foldlM (A.collectEntry i) buckets

/-- One bucket per column, with the row and the place of each of its entries. -/
def collect (A : CompressedMatrix) : Except Failure (List (List (Nat × Nat))) :=
  (List.range A.rowCount).foldlM A.collectRow (List.replicate A.columnCount [])

def appendColumnEntry (A : CompressedMatrix) (e : Nat × Nat) : Except Failure CompressedMatrix := do
  let value ← read A.rowValues e.2
  return { A with
    columnValues := A.columnValues ++ [value]
    columnIndices := A.columnIndices ++ [e.1] }

/-- Append a column: the place where it starts, and its entries. -/
def appendColumn (A : CompressedMatrix) (bucket : List (Nat × Nat)) :
    Except Failure CompressedMatrix :=
  bucket.foldlM appendColumnEntry
    { A with columnStarts := A.columnStarts ++ [A.columnValues.length] }

/-- Make the columns anew from the rows. -/
def rebuildColumns (A : CompressedMatrix) : Except Failure CompressedMatrix := do
  let buckets ← A.collect
  let A ← buckets.foldlM appendColumn
    { A with columnValues := [], columnIndices := [], columnStarts := [] }
  return { A with columnStarts := A.columnStarts ++ [A.columnValues.length] }

/-- Take the rows off the front of the entries, between two starts as many as they are apart. -/
def takeRows (A : CompressedMatrix) (entries : List (Rat × Nat)) (starts : List Nat) :
    Except Failure CompressedMatrix := do
  let taken ← (starts.zip starts.tail).foldlM (fun (A, entries) (start, stop) => do
    let count ← subtract stop start
    return (A.appendRow (entries.take count), entries.drop count)) (A, entries)
  return taken.1

/-- Build a matrix from the values row after row, the column of each value, and where each row starts,
closed by the number of values. Zero values are dropped. -/
def create (values : List Rat) (columns starts : List Nat) (n : Nat) :
    Except Failure CompressedMatrix := do
  requireLength .columnIndices values.length columns
  require (starts.head? = some 0) .startsNotAtZero
  require (starts.getLast? = some values.length) (.startsNotAtEnd values.length)
  require (MatrixStore.isSorted starts = true) .startsUnsorted
  columns.forM (requireIndex .column n)
  let A ← takeRows ⟨n, [], [], [0], [], [], []⟩ (values.zip columns) starts
  A.rebuildColumns

/-- Append a row that has a coefficient for every column. -/
def pushRow (coefficients : List Rat) : Action CompressedMatrix Unit := do
  let A ← get
  requireLength .constraintRow A.columnCount coefficients
  set (← (A.appendRow coefficients.zipIdx).rebuildColumns)

/-- The rows without one of them; the later ones start earlier. -/
def withoutRow (A : CompressedMatrix) (i : Nat) : Except Failure CompressedMatrix := do
  let start ← read A.rowStarts i
  let stop ← read A.rowStarts (i + 1)
  let count ← subtract stop start
  let values ← drain A.rowValues start stop
  let indices ← drain A.rowIndices start stop
  let starts ← removeAt A.rowStarts (i + 1)
  let later ← (starts.drop (i + 1)).mapM fun start => subtract start count
  return { A with
    rowValues := values
    rowIndices := indices
    rowStarts := starts.take (i + 1) ++ later }

/-- Take out a row by its index, the later ones move up. -/
def removeRow (i : Nat) : Action CompressedMatrix Unit := do
  let A ← get
  requireIndex .constraint A.rowCount i
  let A ← A.withoutRow i
  set (← A.rebuildColumns)

end CompressedMatrix

end ExactSimplex
