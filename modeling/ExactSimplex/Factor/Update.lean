import ExactSimplex.Error
import ExactSimplex.Factor.Factorization

/-! # Replacing a column

The new column, as far as it has been eliminated, replaces a column of `U`. Its row and column
then move to the end of the order, and the values of that row below the diagonal are eliminated
with the rows after it, which adds one eta. The entries of the old column and of the displaced row are taken
out of the lines of the other store one by one.
-/
namespace ExactSimplex

variable {m : Nat}

/-- Take out the element at an index; the last one takes its place. -/
def swapRemove {α : Type} (l : List α) (k : Nat) : List α :=
  match l.getLast? with
  | none => l
  | some last => (l.set k last).dropLast

/-- Take out the first entry with an index, if there is one. -/
def SparseVec.removeEntry (s : SparseVec m) (i : Fin m) : SparseVec m :=
  match s.findIdx? fun e => e.1 = i with
  | none => s
  | some k => swapRemove s k

namespace TriangularLine

/-- The diagonal entry stays in front. -/
def remove (line : TriangularLine m) (i : Fin m) : TriangularLine m :=
  { line with others := SparseVec.removeEntry line.others i }

def push (line : TriangularLine m) (e : Fin m × Rat) : TriangularLine m :=
  { line with others := line.others ++ [e] }

end TriangularLine

namespace Factorization

/-- Take the entries with an index out of the lines at the given places. -/
def removeFrom (lines : Vector (TriangularLine m) m) (places : SparseVec m) (p : Fin m) :
    Vector (TriangularLine m) m :=
  places.foldl (fun lines e => put lines e.1 ((lines.get e.1).remove p)) lines

/-- Append values with an index to the lines at their places. -/
def insertInto (lines : Vector (TriangularLine m) m) (values : SparseVec m) (p : Fin m) :
    Vector (TriangularLine m) m :=
  values.foldl (fun lines e => put lines e.1 ((lines.get e.1).push (p, e.2))) lines

/-- Clear entry `i` of the displaced row with row `i` of `U`, noting the multiplier. -/
def clearAt (rows : Vector (TriangularLine m) m) :
    Vec m × SparseVec m → Fin m → Option (Vec m × SparseVec m)
  | (w, multipliers), i =>
    if w.get i = 0 then some (w, multipliers)
    else (divide? (-(w.get i)) (rows.get i).diagonal).map fun ratio =>
      (SparseVec.addTo (rows.get i).others ratio (put w i 0), multipliers ++ [(i, ratio)])

def after (F : Factorization m) (p : Fin m) : List (Fin m) := F.order.drop (F.position.get p + 1)

/-- The rows of `U` with column `p` replaced by the spike, row `p` not counted. -/
def rowsWithSpike (F : Factorization m) (p : Fin m) (spike : SparseVec m) :
    Vector (TriangularLine m) m :=
  insertInto (removeFrom F.rows (F.columns.get p).others p) (SparseVec.without spike p) p

/-- Replace column `p` of `U` by a spike. Refused when the result would be singular. -/
def insertSpike (F : Factorization m) (p : Fin m) (spike : SparseVec m) :
    Except Failure (Factorization m) :=
  let rows := F.rowsWithSpike p spike
  let columns := removeFrom F.columns (rows.get p).others p
  let displaced := SparseVec.writeTo
    ((spike.filter fun e => e.1 = p) ++ (rows.get p).others) (Vec.zero m)
  match (F.after p).foldlM (clearAt rows) (displaced, []) with
  | none => .error .divisionByZero
  | some (w, multipliers) =>
    let diagonal := w.get p
    if diagonal = 0 then .error (.refused (.singularBasis 1))
    else
      let start := F.position.get p
      let order := F.order.eraseIdx start ++ [p]
      .ok
        { rows := put rows p ⟨p, diagonal, []⟩
          columns := put columns p ⟨p, diagonal, SparseVec.without spike p⟩
          order := order
          position := numberFrom start order F.position
          factorEtas := F.factorEtas
          updateEtas := Eta.append F.updateEtas ⟨p, multipliers⟩ }

/-- Replace column `p` of the factorized matrix. -/
def replaceColumn (F : Factorization m) (p : Fin m) (column : Vec m) :
    Except Failure (Factorization m) :=
  F.insertSpike p (Vec.support (F.applyEtas column))

end Factorization

end ExactSimplex
