import ExactSimplex.Factor.Elimination
import ExactSimplex.Factor.Update

/-! # Factorizations of any size

The size of the matrix comes with the data here, so row indices, vector lengths and column indices
are checked when they are used.
-/
namespace ExactSimplex

/-- A factorization with its size and the order of the columns that it was made from. -/
structure SizedFactorization where
  size : Nat
  order : Vector (Fin size) size
  factors : Factorization size

namespace SizedFactorization

def sparse? (m : Nat) (column : List (Nat × Rat)) : Option (SparseVec m) :=
  column.mapM fun e => if h : e.1 < m then some (⟨e.1, h⟩, e.2) else none

def dense (m : Nat) (v : List Rat) : Except Failure (Vec m) :=
  match tableOf? m v with
  | some table => .ok table
  | none => .error .outside

def ofColumns (columns : List (List (Nat × Rat))) (limit : Nat) :
    Except Failure SizedFactorization :=
  match (tableOf columns rfl).mapM (sparse? columns.length) with
  | none => .error .outside
  | some sparse => do
    let (factors, order) ← Factorization.ofColumns sparse limit
    return ⟨columns.length, order, factors⟩

/-- The value of a step, unless it met a zero divisor. -/
def divided {α : Type} : Option α → Except Failure α
  | some a => .ok a
  | none => .error .divisionByZero

def solve (S : SizedFactorization) (b : List Rat) : Except Failure (List Rat) := do
  let v ← dense S.size b
  let x ← divided (S.factors.solve v)
  return x.toList

def solveTransposed (S : SizedFactorization) (c : List Rat) : Except Failure (List Rat) := do
  let v ← dense S.size c
  let y ← divided (S.factors.solveTransposed v)
  return y.toList

/-- Replace a column; the first part is the new column in terms of the old ones. -/
def replaceColumn (S : SizedFactorization) (pivot : Nat) (column : List Rat) :
    Except Failure (List Rat × SizedFactorization) := do
  let v ← dense S.size column
  let x ← divided (S.factors.solve v)
  if h : pivot < S.size then
    let factors ← S.factors.replaceColumn ⟨pivot, h⟩ v
    return (x.toList, ⟨S.size, S.order, factors⟩)
  else throw .outside

end SizedFactorization

end ExactSimplex
