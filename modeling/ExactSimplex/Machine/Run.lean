import ExactSimplex.Machine.Pass
import ExactSimplex.Search.Run

/-! # Runs of the dual simplex method

A run comes to rest at a dual feasible point, by way of phase one where that is needed, and goes through the
main loop. Phase one is a run of its own for which the bounds are overwritten, and the run with perturbed
costs is one for which the objective and the cut-off are. However such a run ends, what was overwritten is
put back before anything else is done.
-/
namespace ExactSimplex.Machine

/-- Place every nonbasic variable at one of its bounds, or at zero. -/
def movedToBounds (s : Machine) : Except Failure Machine := do
  let x ← s.nonbasic.foldlM (fun x j => do
    write x j (State.nonbasicValue (← read s.bounds j) (← read x j))) s.x
  return { s with x := x }

/-- Move a nonbasic variable to the other bound of its box, if its reduced cost calls for that, and count. -/
def flipBoxed (s : Machine) (e : List Rat × Nat) (j k : Nat) : Except Failure (List Rat × Nat) := do
  let b ← read s.bounds j
  match State.wantedBound? b (← read e.1 j) (← read s.d k) with
  | none => return e
  | some value => return (← write e.1 j value, e.2 + 1)

/-- The values after boxed variables have moved, and how many have. -/
def flippedBoxed (s : Machine) : Except Failure (List Rat × Nat) :=
  s.nonbasic.zipIdx.foldlM (fun e v => s.flipBoxed e v.1 v.2) (s.x, 0)

/-- Recompute the point and move boxed variables until none has to change sides. -/
def flipToDualFeasibility : Nat → Action Machine Unit
  | 0 => fail .exhausted
  | rounds + 1 => do
    computePrimal
    computeDual
    let s ← get
    let result ← s.flippedBoxed
    set { s with x := result.1 }
    if result.2 = 0 then return ()
    else
      record (.flipped result.2)
      flipToDualFeasibility rounds

/-- Every nonbasic variable is at a bound that agrees with the sign of its reduced cost. -/
def isDualFeasible (s : Machine) : Except Failure Bool := do
  let agree ← (s.nonbasic.zip s.d).mapM fun e => do
    return State.agrees (← read s.bounds e.1) (← read s.x e.1) e.2
  return agree.all id

/-- The first variable with a lower bound above its upper bound. -/
def contradictory? (s : Machine) : Option Nat := s.bounds.findIdx? Bounds.isContradictory

/-- How the search for a dual feasible basis ends. -/
inductive Repair where
  | feasible
  | infeasible
  | stalled
  deriving DecidableEq

/-- Whether the point at rest is dual feasible, which need not be checked in phase one. -/
def restsDualFeasible (phaseOne : Bool) : Action Machine Bool := do
  if phaseOne then return true else (← get).isDualFeasible

/-- Come to rest at a dual feasible point and go through the main loop. In phase one every point at rest is
dual feasible; otherwise a dual feasible basis may have to be found first. -/
def runPhases (phaseOne : Bool) (repair : Action Machine Repair) : Nat → Action Machine Ending
  | 0 => fail .exhausted
  | phases + 1 => do
    step movedToBounds
    flipToDualFeasibility 2
    if ← restsDualFeasible phaseOne then
      let s ← get
      iterate phaseOne (s.config.passAllowance s.numCols s.numRows) {}
    else
      match ← repair with
      | .feasible => runPhases phaseOne repair phases
      | .infeasible => return .verdict .unbounded
      | .stalled => return .stalled

/-- A run, given how a dual feasible basis is found. -/
def runWith (phaseOne : Bool) (repair : Action Machine Repair) : Action Machine Ending := do
  let s ← get
  match s.contradictory? with
  | some j =>
    record (.contradictoryBounds j)
    modify fun s => { s with proof := some (List.replicate s.numRows 0) }
    return .verdict .infeasible
  | none =>
    modify fun s => { s with stuck := none }
    runPhases phaseOne repair (Config.assignments s.numCols s.numRows + 1)

/-- Solve the problem with bounds under which every basis is dual feasible. Its optimum is zero exactly when
the true problem has a dual feasible basis. -/
def phaseOne : Action Machine Repair := do
  record .phaseOneStarted
  let original := (← get).bounds
  modify fun s => { s with bounds := s.bounds.map Bounds.surrogate }
  let result ← (runWith true (fail .exhausted)).attempt
  let objective := (← get).objectiveValue
  modify fun s => { s with bounds := original }
  match result with
  | .error cause => refuse cause
  | .ok .stalled => return .stalled
  | .ok (.verdict v) =>
    if v = .optimal ∧ objective = 0 then
      record .phaseOneFeasible
      return .feasible
    else
      record (.phaseOneFailed v objective)
      return .infeasible

def run : Action Machine Ending := runWith false phaseOne

/-- Costs that differ slightly from the true ones, all changes different from each other. -/
def perturbedObjective (s : Machine) : Except Failure (List Rat) :=
  let costs := (s.objective.filter fun c => c ≠ 0).map Rat.abs
  let smallest := costs.foldl (fun least c => if c < least then c else least) 1
  s.objective.zipIdx.mapM fun e =>
    match s.config.numbers.ofCount? (10000 + s.numCols + e.2) with
    | none => .ok e.1
    | some k => do return e.1 + (← divide smallest k)

/-- Solve the problem with perturbed costs and without a cut-off. The result does not count. -/
def solvePerturbed : Action Machine Unit := do
  let s ← get
  let perturbed ← s.perturbedObjective
  modify fun s => { s with objective := perturbed }
  record .costsPerturbed
  modify fun s => { s with perturbed := true, cutOff := none }
  let result ← run.attempt
  modify fun t => { t with objective := s.objective, cutOff := s.cutOff }
  match result with
  | .error cause => refuse cause
  | .ok _ => return ()

/-- Runs until a verdict; one that stalls is followed by a run with perturbed costs. -/
def solve : Nat → Action Machine Verdict
  | 0 => fail .exhausted
  | runs + 1 => do
    match ← run with
    | .verdict v => return v
    | .stalled =>
      solvePerturbed
      solve runs

end ExactSimplex.Machine
