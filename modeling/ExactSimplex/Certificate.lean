import ExactSimplex.Search.State

/-! # Certificates of infeasibility

With `d = - Aᵀ y` for the structural variables and `d = - y` for the slacks, `d` vanishes on every
solution of `A x + s = 0`. If the least value of `d` over the bounds is positive, no solution lies
within the bounds.
-/
namespace ExactSimplex

/-- The least value of `d x` over an interval, `none` if there is none. -/
def Bounds.least? (b : Bounds) (d : Rat) : Option Rat :=
  if 0 < d then b.lower.map fun l => d * l
  else if d < 0 then b.upper.map fun u => d * u
  else some 0

namespace Problem

variable {n m : Nat}

def form (P : Problem n m) (y : Vec m) : PerVar Rat n m :=
  ⟨(P.matrix.rowCombination y).map fun d => -d, y.map fun d => -d⟩

/-- The least value of a linear form over the bounds of all variables. -/
def least? (P : Problem n m) (d : PerVar Rat n m) : Option Rat :=
  (Var.all n m).foldlM (fun total v =>
    ((P.bounds.get v).least? (d.get v)).map fun t => total + t) 0

/-- The multipliers prove that no point lies within all bounds and sides. -/
def isCertificate (P : Problem n m) (y : Vec m) : Bool :=
  match P.least? (P.form y) with
  | some t => decide (0 < t)
  | none => false

/-- Round a value that is closer than the tolerance to an integer. -/
def snap (tolerance value : Rat) : Rat :=
  let nearest : Rat := ((value + mkRat 1 2).floor : Int)
  if (value - nearest).abs < tolerance then nearest else value

/-- The multipliers of a ray guess: expressed in the basis, rounded there, and transformed back.
The event says why a guess is not used. The outer option is empty when a division by zero is met. -/
def checkGuess (P : Problem n m) (cfg : Config) (s : State n m) (guess : Vector Double m) :
    Option (Except Event (Vec m)) :=
  if guess.any fun v => decide (v = .nan) || v.exceeds cfg.magnitudeLimit then
    some (.error .guessInvalid)
  else
    match guess.mapM cfg.numbers.ofDouble?, cfg.numbers.ofDouble? cfg.roundingTolerance with
    | some ray, some tolerance =>
      let y := s.basis.basic.map fun v => snap tolerance (SparseVec.dot (P.column v) ray)
      if y.all fun v => decide (v.abs ≤ tolerance) then some (.error .guessZero)
      else (s.factors.solveTransposed y).map fun y =>
        if P.isCertificate y then .ok y else .error .guessRefuted
    | _, _ => some (.error .guessInexact)

end Problem

end ExactSimplex
