import ExactSimplex.Certificate
import ExactSimplex.Search.Run

/-! # Solvers

A solver holds a problem and what is left of the last solve: nothing, a basis that was imported
but not used yet, or the state in which the search ended. A proof of infeasibility is kept once it
is known.
-/
namespace ExactSimplex

inductive Start (n m : Nat) where
  | cold
  | imported (point : Point n m)
  | warm (state : State n m)

/-- A suggested basis, and a ray if the problem is thought to be infeasible. -/
structure Suggestion where
  structural : List Status
  slack : List Status
  ray : Option (List Double)

structure Solver (n m : Nat) where
  config : Config
  problem : Problem n m
  start : Start n m
  proof : Option (Vec m)
  guess : Option (Vector Double m)
  /-- The suggestions that a provider has left, when there is a provider. -/
  provider : Option (List (Option Suggestion))

namespace Start

variable {n m : Nat}

def point : Start n m → Point n m
  | cold => Point.origin n m
  | imported p => p
  | warm state => state.toPoint

/-- A basis is present, and the variable is in it. -/
def isBasic : Start n m → Var n m → Bool
  | cold, _ => false
  | imported p, v => p.basis.isBasic v
  | warm state, v => state.basis.isBasic v

def unstuck : Start n m → Start n m
  | warm state => warm { state with stuck := none }
  | start => start

end Start

namespace Solver

variable {n m : Nat}

def ofProblem (config : Config) (problem : Problem n m) : Solver n m :=
  ⟨config, problem, .cold, none, none, none⟩

def x (S : Solver n m) : Vec n := S.start.point.values.structural

/-- The dual values of the rows. They are known once a basis has been factorized. -/
def y (S : Solver n m) : Option (Vec m) :=
  match S.start with
  | .warm state => state.duals S.problem
  | _ => none

/-- The reduced costs of the structural variables, zero for the basic ones. -/
def d (S : Solver n m) : Vec n :=
  let p := S.start.point
  Vector.ofFn fun j =>
    match p.basis.place.structural.get j with
    | .nonbasic k => p.reduced.get k
    | .basic _ => 0

def objectiveValue (S : Solver n m) : Rat := S.problem.objectiveValue S.start.point.values

def status (S : Solver n m) (v : Var n m) : Status :=
  let b := S.problem.bounds.get v
  let x := S.start.point.values.get v
  if S.start.isBasic v then .basic
  else if b.lower.isAt x then .atLower
  else if b.upper.isAt x then .atUpper
  else .free

def structuralStatuses (S : Solver n m) : List Status :=
  (List.finRange n).map fun j => S.status (.structural j)

def slackStatuses (S : Solver n m) : List Status :=
  (List.finRange m).map fun i => S.status (.slack i)

def variableBounds (S : Solver n m) (j : Fin n) : Bounds := S.problem.bounds.structural.get j

def constraintBounds (S : Solver n m) (i : Fin m) : Bounds := S.problem.sides i

/-- Forget the basis, and with it the values and reduced costs. -/
def clearBasis (S : Solver n m) : Solver n m := { S with start := .cold }

def withoutProof (S : Solver n m) : Solver n m :=
  { S with proof := none, start := S.start.unstuck }

/-- The multipliers of the row of the variable for which none could enter. -/
def stuckRay (P : Problem n m) (state : State n m) (v : Var n m) : Option (Option (Vec m)) :=
  match state.basis.place.get v with
  | .nonbasic _ => some none
  | .basic i =>
    let x := state.values.get v
    let sign : Rat := if (P.bounds.get v).lower.any fun l => x < l then -1 else 1
    (state.factors.solveTransposed (put (Vec.zero m) i sign)).map some

/-- The proof of infeasibility, if the last solve found one; it is kept from then on. -/
def infeasibilityProof (S : Solver n m) : Except Failure (Option (Vec m) × Solver n m) :=
  match S.proof, S.start with
  | some y, _ => .ok (some y, S)
  | none, .warm state =>
    match state.stuck with
    | none => .ok (none, S)
    | some v =>
      match stuckRay S.problem state v with
      | none => .error .divisionByZero
      | some none => .ok (none, S)
      | some (some y) => .ok (some y, { S with proof := some y })
  | none, _ => .ok (none, S)

end Solver

end ExactSimplex
