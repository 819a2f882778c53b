import ExactSimplex.Checked
import ExactSimplex.Factor.Sized

/-! # Factorizations of a basis

The size of a factorized basis is the length of the order in which its rows are processed. Every solve
relies on a vector of that length. A column is replaced in place: when the replaced basis is singular the
factorization is left behind half changed.
-/
namespace ExactSimplex

namespace Factorization

variable {m : Nat}

/-- What a refused replacement leaves behind: the spike is a column of `U` already, and the displaced row is
taken out of it. -/
def abandoned (F : Factorization m) (p : Fin m) (spike : SparseVec m) : Factorization m :=
  let rows := F.rowsWithSpike p spike
  { F with
    rows := put rows p { rows.get p with others := [] }
    columns := removeFrom F.columns (rows.get p).others p }

end Factorization

structure BasisFactors where
  size : Nat
  factors : Factorization size

namespace BasisFactors

/-- The size of the factorized basis. -/
def order (F : BasisFactors) : Nat := F.factors.order.length

/-- Factorize a basis with these columns; the second part is the order in which they are factorized. -/
def decompose (columns : List (List (Nat × Rat))) (limit : Nat) :
    Except Failure (BasisFactors × List Nat) := do
  let S ← SizedFactorization.ofColumns columns limit
  return (⟨S.size, S.factors⟩, S.order.toList.map Fin.val)

/-- The vector after the eliminations, before `U` is solved. -/
def eliminated (F : BasisFactors) (w : List Rat) : Except Failure (Vec F.size) := do
  ensure (w.length = F.order)
  let v ← SizedFactorization.dense F.size w
  return F.factors.applyEtas v

def solveUpper (F : BasisFactors) (v : Vec F.size) : Except Failure (List Rat) := do
  let x ← SizedFactorization.divided
    (Factorization.substitute F.factors.columns F.factors.order.reverse v)
  return x.toList

/-- Solve `B x = b`. -/
def ftran (F : BasisFactors) (b : List Rat) : Except Failure (List Rat) := do
  F.solveUpper (← F.eliminated b)

/-- Solve `B x = b`, and keep the spike with which `b` can replace a column. -/
def ftranWithSpike (F : BasisFactors) (b : List Rat) :
    Except Failure (List Rat × List (Nat × Rat)) := do
  let v ← F.eliminated b
  let x ← F.solveUpper v
  return (x, (Vec.support v).map fun e => (e.1.val, e.2))

/-- Solve `Bᵀ y = c`. -/
def btran (F : BasisFactors) (c : List Rat) : Except Failure (List Rat) := do
  ensure (c.length = F.order)
  let v ← SizedFactorization.dense F.size c
  let y ← SizedFactorization.divided (F.factors.solveTransposed v)
  return y.toList

/-- Replace a column by a spike. When that is refused, the first part says why. -/
def changeBasis (F : BasisFactors) (pivot : Nat) (spike : List (Nat × Rat)) :
    Except Failure (Except Error Unit × BasisFactors) := do
  ensure (pivot < F.order)
  match SizedFactorization.sparse? F.size spike with
  | none => .error .outside
  | some spike =>
    if h : pivot < F.size then
      match F.factors.insertSpike ⟨pivot, h⟩ spike with
      | .ok factors => return (.ok (), ⟨F.size, factors⟩)
      | .error (.refused cause) =>
        return (.error cause, ⟨F.size, F.factors.abandoned ⟨pivot, h⟩ spike⟩)
      | .error failure => .error failure
    else .error .outside

end BasisFactors

end ExactSimplex
