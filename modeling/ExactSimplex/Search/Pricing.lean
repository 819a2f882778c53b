import ExactSimplex.Choice
import ExactSimplex.Search.State

/-! # Choosing the leaving variable

A basic variable outside of its bounds has to leave. With weights, the largest violation relative
to the norm of its row of the inverse wins; by Bland's rule the lowest index does.
-/
namespace ExactSimplex

/-- A basic variable that violates one of its bounds. -/
structure Leaving (n m : Nat) where
  row : Fin m
  var : Var n m
  side : Side
  deriving DecidableEq

/-- The violated side of an interval and the distance to it. -/
def Bounds.violation? (b : Bounds) (x : Rat) : Option (Side × Rat) :=
  match b.lower.filter fun l => x < l with
  | some l => some (.lower, l - x)
  | none => (b.upper.filter fun u => u < x).map fun u => (.upper, x - u)

namespace State

variable {n m : Nat}

def violations (P : Problem n m) (s : State n m) : List (Rat × Leaving n m) :=
  (List.finRange m).filterMap fun i =>
    let v := s.basis.basic.get i
    ((P.bounds.get v).violation? (s.values.get v)).map fun (side, distance) =>
      (distance, ⟨i, v, side⟩)

/-- The violations with their squares relative to the weights. -/
def scores (weights : Vec m) (violations : List (Rat × Leaving n m)) :
    Option (List (Rat × Leaving n m)) :=
  violations.mapM fun (distance, leaving) =>
    (divide? (distance * distance) (weights.get leaving.row)).map fun score => (score, leaving)

/-- The leaving variable, or none if all basic variables are within their bounds. The outer option
is empty when a weight is zero. -/
def chooseLeaving (P : Problem n m) (bland : Bool) (s : State n m) :
    Option (Option (Leaving n m)) :=
  let violations := s.violations P
  match s.weights, bland with
  | some weights, false =>
    (scores weights violations).map fun scored =>
      (firstBest (fun a b => decide (b.1 < a.1)) scored).map fun best => best.2
  | _, _ =>
    some ((firstBest (fun a b => decide (a.2.var.index < b.2.var.index)) violations).map
      fun best => best.2)

/-- The bound that the leaving variable will attain. -/
def leavingTarget (P : Problem n m) (s : State n m) (l : Leaving n m) : Rat :=
  ((P.bounds.get l.var).get l.side).getD (s.values.get l.var)

/-- The weights after a pivot in row `r`, from the entering column `alpha = B⁻¹ a` and
`tau = B⁻¹ B⁻ᵀ e_r`. -/
def updateWeights (r : Fin m) (alpha tau weights : Vec m) : Option (Vec m) :=
  (divide? 1 (alpha.get r)).map fun inverse =>
    let beta := weights.get r
    Vector.ofFn fun i =>
      let ratio := alpha.get i * inverse
      if i = r then beta * (inverse * inverse)
      else weights.get i - 2 * ratio * tau.get i + ratio * ratio * beta

def exactWeights (F : Factorization m) : Option (Vec m) :=
  (List.finRange m).foldlM (fun weights i =>
    (F.solveTransposed (Vec.unit i)).map fun row => put weights i (Vec.normSq row)) (Vec.zero m)

end State

end ExactSimplex
