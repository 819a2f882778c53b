import ExactSimplex.Compressed
import ExactSimplex.Machine.Factors
import ExactSimplex.Machine.Helper
import ExactSimplex.Session

/-! # Machines

A machine is everything that a solver stores, in plain lists. The bounds of the structural variables and of
the slacks stand in one list, those of row `i` at `n + i`. A variable that is in the basis is noted in two
lists, at its position among the basic variables and with that position under its index, and so is one that
is not. Nothing but the operations keeps these lists in step with each other.
-/
namespace ExactSimplex

structure Machine where
  config : Config
  matrix : CompressedMatrix
  objective : List Rat
  bounds : List Bounds
  /-- Solving stops once the objective value reaches this. -/
  cutOff : Bound
  /-- The lists below describe a basis. -/
  hasBasis : Bool
  basic : List Nat
  basicPosition : List (Option Nat)
  nonbasic : List Nat
  nonbasicPosition : List (Option Nat)
  x : List Rat
  d : List Rat
  factors : Option BasisFactors
  /-- Pivots since the factorization was made. -/
  updates : Nat
  weights : Option (List Rat)
  proof : Option (List Rat)
  guess : Option (List Double)
  /-- The basic variable for which none could enter. -/
  stuck : Option Nat
  /-- The costs have been perturbed during this solve. -/
  perturbed : Bool
  multiplier : Helper (List Rat)
  steepestEdge : Option (Helper (List Rat))
  /-- The suggestions that a provider has left, when there is a provider. -/
  provider : Option (List (Option Suggestion))
  /-- What is still to happen outside of the machine. -/
  schedule : List Turn
  /-- The problem that the provider was shown. -/
  shown : Option ProblemView
  log : Array Event

namespace Machine

def numRows (s : Machine) : Nat := s.matrix.rowCount

def numCols (s : Machine) : Nat := s.matrix.columnCount

/-- Change the machine by a computation that may fail. -/
def step (f : Machine → Except Failure Machine) : Action Machine Unit := do
  set (← f (← get))

def refuse {α : Type} (cause : Error) : Action Machine α :=
  liftM (Except.error (Failure.refused cause) : Except Failure α)

def fail {α : Type} (failure : Failure) : Action Machine α :=
  liftM (Except.error failure : Except Failure α)

def record (e : Event) : Action Machine Unit := modify fun s => { s with log := s.log.push e }

/-- What happens outside during the next job. -/
def nextTurn : Action Machine Turn := do
  let s ← get
  match s.schedule with
  | [] => return {}
  | turn :: rest =>
    set { s with schedule := rest }
    return turn

/-- The column of a variable in `[A I]`. -/
def column (s : Machine) (j : Nat) : Except Failure (List (Nat × Rat)) :=
  if j < s.numCols then s.matrix.column j else .ok [(j - s.numCols, 1)]

/-- Add a multiple of the column of a variable to a vector. -/
def addColumn (s : Machine) (j : Nat) (factor : Rat) (target : List Rat) :
    Except Failure (List Rat) := do
  if j < s.numCols then
    (← s.matrix.column j).foldlM (fun target e => change target e.1 (· + e.2 * factor)) target
  else change target (j - s.numCols) (· + factor)

/-- The cost of a variable; slacks cost nothing. -/
def cost (s : Machine) (j : Nat) : Except Failure Rat :=
  if j < s.numCols then read s.objective j else .ok 0

def basicCosts (s : Machine) : Except Failure (List Rat) := s.basic.mapM s.cost

/-- The value of the objective at the structural part of the point. -/
def objectiveValue (s : Machine) : Rat :=
  addUp (((s.objective.zip s.x).filter fun e => e.2 ≠ 0).map fun e => e.1 * e.2)

/-- Note under every variable of a list where it stands. -/
def notePositions (positions : List (Option Nat)) (members : List Nat) :
    Except Failure (List (Option Nat)) :=
  members.zipIdx.foldlM (fun positions e => write positions e.1 (some e.2)) positions

/-- Forget the basis with everything that belongs to it. The lists become those of the slack basis. -/
def cleared (s : Machine) : Except Failure Machine := do
  let m := s.numRows
  let n := s.numCols
  let basic := List.range' n m
  let nonbasic := List.range n
  let basicPosition ← notePositions (List.replicate (n + m) none) basic
  let nonbasicPosition ← notePositions (List.replicate (n + m) none) nonbasic
  return { s with
    hasBasis := false
    factors := none
    updates := 0
    weights := none
    stuck := none
    basic := basic
    nonbasic := nonbasic
    basicPosition := basicPosition
    nonbasicPosition := nonbasicPosition
    x := List.replicate (n + m) 0
    d := List.replicate n 0 }

def clearBasis : Action Machine Unit := step cleared

def invalidateProof : Action Machine Unit :=
  modify fun s => { s with proof := none, stuck := none }

section Views

/-- The values of the structural variables. -/
def values (s : Machine) : Except Failure (List Rat) := slice s.x 0 s.numCols

/-- The dual values of the rows, once a basis has been factorized. -/
def duals (s : Machine) : Except Failure (Option (List Rat)) :=
  match s.factors with
  | none => .ok none
  | some F => do return some (← F.btran (← s.basicCosts))

/-- The reduced cost of a variable, zero for a basic one. -/
def reducedCost (s : Machine) (j : Nat) : Except Failure Rat := do
  match ← read s.nonbasicPosition j with
  | some k => read s.d k
  | none => return 0

def reducedCosts (s : Machine) : Except Failure (List Rat) :=
  (List.range s.numCols).mapM s.reducedCost

def status (s : Machine) (j : Nat) : Except Failure Status := do
  let position ← if s.hasBasis then read s.basicPosition j else .ok none
  if position.isSome then return .basic
  else
    let b ← read s.bounds j
    let x ← read s.x j
    if b.lower.isAt x then return .atLower
    else if b.upper.isAt x then return .atUpper
    else return .free

/-- The statuses of the structural variables and of the slacks. -/
def base (s : Machine) : Except Failure (List Status × List Status) := do
  let statuses ← (List.range s.bounds.length).mapM s.status
  return (← slice statuses 0 s.numCols, ← slice statuses s.numCols statuses.length)

def constraintBounds (s : Machine) (row : Nat) : Except Failure Bounds := do
  requireIndex .constraint s.numRows row
  let slack ← read s.bounds (s.numCols + row)
  return slack.slack

def variableBounds (s : Machine) (column : Nat) : Except Failure Bounds := do
  requireIndex .structural s.numCols column
  read s.bounds column

/-- The problem as a provider sees it. -/
def view (s : Machine) : Except Failure ProblemView := do
  let rows ← (List.range s.numRows).mapM s.matrix.denseRow
  let constraintBounds ← (List.range s.numRows).mapM fun i => do
    return (← read s.bounds (s.numCols + i)).slack
  let variableBounds ← (List.range s.numCols).mapM (read s.bounds)
  return ⟨rows, s.objective, constraintBounds, variableBounds⟩

def snapshot (s : Machine) : Except Failure Snapshot := do
  let x ← s.values
  let y ← s.duals
  let d ← s.reducedCosts
  let (structural, slack) ← s.base
  return ⟨x, y, d, s.objectiveValue, structural, slack⟩

end Views

end Machine

end ExactSimplex
