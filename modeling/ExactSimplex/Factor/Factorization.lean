import ExactSimplex.Number.Text
import ExactSimplex.Factor.Eta

/-! # Factorization of a square matrix

A factorization of `B` consists of eliminations that turn `B` into a matrix `U` which is upper
triangular in the stored order: an entry `(i, j)` off the diagonal has `i` before `j`. First the
etas of the elimination are scattered, then the etas of the updates are gathered. `U` is stored by
rows and by columns, every line with its diagonal entry in front.
-/
namespace ExactSimplex

/-- A row or column of a triangular factor: the entry in front, which is the diagonal one, and the
others. -/
structure TriangularLine (m : Nat) where
  index : Fin m
  diagonal : Rat
  others : SparseVec m
  deriving DecidableEq

def TriangularLine.entries {m : Nat} (line : TriangularLine m) : SparseVec m :=
  (line.index, line.diagonal) :: line.others

structure Factorization (m : Nat) where
  rows : Vector (TriangularLine m) m
  columns : Vector (TriangularLine m) m
  order : List (Fin m)
  /-- Where each index stands in the order. -/
  position : Vector Nat m
  factorEtas : List (Eta m)
  updateEtas : List (Eta m)
  deriving DecidableEq

namespace Factorization

variable {m : Nat}

/-- Note where the indices of an order stand, from some place in it on. -/
def numberFrom (start : Nat) (order : List (Fin m)) (position : Vector Nat m) : Vector Nat m :=
  ((order.drop start).zipIdx start).foldl (fun position e => put position e.1 e.2) position

/-- Divide entry `j` by its diagonal value and take its multiples off the entries of its line. An
entry that is zero needs no division. -/
def substituteAt (lines : Vector (TriangularLine m) m) (w : Vec m) (j : Fin m) : Option (Vec m) :=
  if w.get j = 0 then some w
  else (divide? (w.get j) (lines.get j).diagonal).map fun v =>
    SparseVec.addTo (lines.get j).others (-v) (put w j v)

def substitute (lines : Vector (TriangularLine m) m) (order : List (Fin m)) (w : Vec m) :
    Option (Vec m) :=
  order.foldlM (substituteAt lines) w

def applyEtas (F : Factorization m) (w : Vec m) : Vec m :=
  F.updateEtas.foldl (fun w e => e.gather w) (F.factorEtas.foldl (fun w e => e.scatter w) w)

/-- The `x` with `B x = b`, unless a diagonal value in its way is zero. -/
def solve (F : Factorization m) (b : Vec m) : Option (Vec m) :=
  substitute F.columns F.order.reverse (F.applyEtas b)

/-- The `y` with `Bᵀ y = c`, unless a diagonal value in its way is zero. -/
def solveTransposed (F : Factorization m) (c : Vec m) : Option (Vec m) :=
  (substitute F.rows F.order c).map fun w =>
    F.factorEtas.reverse.foldl (fun w e => e.gather w)
      (F.updateEtas.reverse.foldl (fun w e => e.scatter w) w)

def updateCount (F : Factorization m) : Nat := F.updateEtas.length

def upperCount (F : Factorization m) : Nat :=
  F.rows.foldl (fun total row => total + row.entries.length) 0

/-- The stored value of `U` at a position, zero if there is none. -/
def upperValue (F : Factorization m) (i j : Fin m) : Rat :=
  (((F.rows.get i).entries.find? fun e => e.1 = j).map fun e => e.2).getD 0

private def etaLine (title : String) (etas : List (Eta m)) : String :=
  title ++ " eta files: " ++ toString etas.length ++ " (" ++ toString (Eta.valueCount etas) ++
    " values)\n"

/-- The factor `U` as a table in the stored order, followed by the sizes of the two lists of etas. -/
def text (F : Factorization m) : String :=
  let cell := padLeft 10
  let row (i : Fin m) : String :=
    cell (toString i.val) ++ " |" ++
      String.join (F.order.map fun j => cell (numberText (F.upperValue i j))) ++ "\n"
  "Upper:\n" ++
    cell "" ++ " |" ++ String.join (F.order.map fun j => cell (toString j.val)) ++ "\n" ++
    String.ofList (List.replicate ((1 + F.order.length) * 10 + 2) '-') ++ "\n" ++
    String.join (F.order.map row) ++
    etaLine "Factor" F.factorEtas ++ etaLine "Update" F.updateEtas

end Factorization

end ExactSimplex
