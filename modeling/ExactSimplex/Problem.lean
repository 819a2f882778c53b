import ExactSimplex.Basis
import ExactSimplex.Bounds
import ExactSimplex.Matrix
import ExactSimplex.Number.Range

/-! # Linear programs

Minimize `c x` over all `x` within the bounds of the variables whose row values `A x` lie within
the sides of the rows. With the slacks `s = - A x` all sides are bounds of variables, and the
system is `A x + s = 0`.
-/
namespace ExactSimplex

structure Problem (n m : Nat) where
  matrix : SparseMatrix m n
  objective : Vec n
  bounds : PerVar Bounds n m
  /-- Solving stops once the objective value reaches this. -/
  cutOff : Bound

namespace Problem

variable {n m : Nat}

/-- The column of a variable in `[A I]`. -/
def column (P : Problem n m) : Var n m → SparseVec m
  | .structural j => P.matrix.columns.get j
  | .slack i => [(i, 1)]

/-- The cost of a variable; slacks cost nothing. -/
def cost (P : Problem n m) : Var n m → Rat
  | .structural j => P.objective.get j
  | .slack _ => 0

/-- The value of the objective at the structural part of a point. -/
def objectiveValue (P : Problem n m) (x : PerVar Rat n m) : Rat :=
  (List.finRange n).foldl (fun total j => total + P.objective.get j * x.structural.get j) 0

/-- The sides of a row. -/
def sides (P : Problem n m) (i : Fin m) : Bounds := (P.bounds.slack.get i).slack

/-- The first variable with a lower bound above its upper bound. -/
def contradictory? (P : Problem n m) : Option (Var n m) :=
  (Var.all n m).find? fun v => (P.bounds.get v).isContradictory

/-- The problem whose bounds make every basis dual feasible once boxed variables are moved. -/
def surrogate (P : Problem n m) : Problem n m :=
  { P with bounds := P.bounds.map Bounds.surrogate, cutOff := none }

/-- The problem with slightly different costs, all changes different from each other. -/
def perturbed (P : Problem n m) (range : NumberRange) : Problem n m :=
  let smallest := P.objective.foldl
    (fun least c => if c ≠ 0 ∧ c.abs < least then c.abs else least) 1
  { P with
    cutOff := none
    objective := Vector.ofFn fun i =>
      match range.ofCount? (10000 + n + i) with
      | some k => P.objective.get i + smallest / k
      | none => P.objective.get i }

end Problem

end ExactSimplex
