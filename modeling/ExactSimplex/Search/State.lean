import ExactSimplex.Config
import ExactSimplex.Event
import ExactSimplex.Product
import ExactSimplex.Factor.Elimination
import ExactSimplex.Factor.Update

/-! # The state of a search

A point is a basis with values of all variables and reduced costs of the nonbasic ones. A search
state adds the factorization of the basis matrix, the weights of the rows of its inverse if they
are known, and the log. A step that cannot go on halts with the state that it reached.
-/
namespace ExactSimplex

structure Point (n m : Nat) where
  basis : Basis n m
  values : PerVar Rat n m
  reduced : Vec n

def Point.origin (n m : Nat) : Point n m :=
  ⟨Basis.slack n m, PerVar.const 0, Vec.zero n⟩

structure State (n m : Nat) extends Point n m where
  factors : Factorization m
  /-- Pivots since the factorization was made. -/
  pivots : Nat
  /-- The squared norm of every row of the inverse of the basis matrix. -/
  weights : Option (Vec m)
  /-- The basic variable for which none could enter. -/
  stuck : Option (Var n m)
  log : Array Event

structure Halt (n m : Nat) where
  failure : Failure
  state : State n m

namespace State

variable {n m : Nat}

def record (s : State n m) (e : Event) : State n m := { s with log := s.log.push e }

def recordAll (s : State n m) (es : List Event) : State n m := es.foldl record s

/-- Go on with a value, or halt because it needed a division by zero. -/
def divided {α : Type} (s : State n m) : Option α → Except (Halt n m) α
  | some a => .ok a
  | none => .error ⟨.divisionByZero, s⟩

/-- Factorize the basis matrix of a point. The basis positions are reordered to match the factors,
and the weights move along with their variables. -/
def ofPoint (P : Problem n m) (limit : Nat) (point : Point n m) (pivots : Nat)
    (weights : Option (Vec m)) (stuck : Option (Var n m)) (log : Array Event) :
    Except Failure (State n m) := do
  let (factors, order) ← Factorization.ofColumns (point.basis.basic.map P.column) limit
  return {
    basis := point.basis.reorder order
    values := point.values
    reduced := point.reduced
    factors := factors
    pivots := 0
    weights := weights.map fun w => order.map fun k => w.get k
    stuck := stuck
    log := log.push (.factorized pivots factors.upperCount) }

def refactor (P : Problem n m) (cfg : Config) (s : State n m) : Except (Halt n m) (State n m) :=
  match ofPoint P cfg.searchLimit s.toPoint s.pivots s.weights s.stuck s.log with
  | .ok next => .ok next
  | .error failure => .error ⟨failure, s⟩

def setBasic (basis : Basis n m) (x : PerVar Rat n m) (w : Vec m) : PerVar Rat n m :=
  (List.finRange m).foldl (fun x i => x.set (basis.basic.get i) (w.get i)) x

/-- Take a multiple of a vector off the values of the basic variables. -/
def shiftBasic (basis : Basis n m) (x : PerVar Rat n m) (factor : Rat) (w : Vec m) :
    PerVar Rat n m :=
  (List.finRange m).foldl (fun x i => x.add (basis.basic.get i) (-(factor * w.get i))) x

/-- The values of the basic variables that follow from the nonbasic ones by `B x_B + N x_N = 0`. -/
def computePrimal (P : Problem n m) (s : State n m) : Option (State n m) :=
  let rhs := s.basis.nonbasic.foldl
    (fun w v => SparseVec.addTo (P.column v) (-(s.values.get v)) w) (Vec.zero m)
  (s.factors.solve rhs).map fun w => { s with values := setBasic s.basis s.values w }

/-- The dual values `y` with `Bᵀ y = c_B`. -/
def duals (P : Problem n m) (s : State n m) : Option (Vec m) :=
  s.factors.solveTransposed (s.basis.basic.map P.cost)

/-- The reduced costs `c_N - Nᵀ y`. -/
def computeDual (P : Problem n m) (s : State n m) : Option (State n m) :=
  (s.duals P).map fun y =>
    let product := P.nonbasicProduct s.basis.place y
    { s with reduced := Vector.ofFn fun k => P.cost (s.basis.nonbasic.get k) - product.get k }

/-- Values and reduced costs computed from the basis and the nonbasic values. -/
def recompute (P : Problem n m) (s : State n m) : Option (State n m) :=
  (s.computePrimal P).bind fun s => s.computeDual P

end State

end ExactSimplex
