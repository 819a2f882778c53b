import ExactSimplex.Machine.Choice
import ExactSimplex.Search.Pass

/-! # One pass of the main loop

A pass looks at the objective value, chooses a leaving and an entering variable, exchanges them and brings
values, reduced costs, weights and factors up to date. In phase one the bound on the objective value is not
looked at.
-/
namespace ExactSimplex.Machine

/-- After a step along the pivot row that brings the reduced cost at a position to zero. -/
def steppedDual (k : Nat) (alphaRow : List Rat) (s : Machine) : Except Failure Machine := do
  let theta ← divide (← read s.d k) (← read alphaRow k)
  let d ← changeAlong (fun _ d alpha => .ok (if alpha = 0 then d else d - theta * alpha)) 0 s.d alphaRow
  let d ← write d k (-theta)
  return { s with d := d }

/-- Move a variable, and note what the basic ones have to make up for. -/
def flip (s : Machine) (shift : List Rat) (e : Nat × Rat) : Except Failure (Machine × List Rat) := do
  let x ← change s.x e.1 (· + e.2)
  let shift ← s.addColumn e.1 e.2 shift
  return ({ s with x := x }, shift)

/-- After variables are moved by given amounts and the basic ones have followed. -/
def flipped (F : BasisFactors) (flips : List (Nat × Rat)) (s : Machine) : Except Failure Machine :=
  if flips.isEmpty then .ok s
  else do
    let moved ← flips.foldlM (fun e f => e.1.flip e.2 f) (s, List.replicate s.numRows 0)
    let w ← F.ftran moved.2
    moved.1.shiftBasic 1 w

/-- After a step along the entering column that brings the leaving variable to its target. -/
def steppedPrimal (l : Departure) (q : Nat) (alphaColumn : List Rat) (s : Machine) :
    Except Failure Machine := do
  let target ← s.leavingTarget l
  let theta ← divide ((← read s.x l.var) - target) (← read alphaColumn l.row)
  let s ← s.shiftBasic theta alphaColumn
  let x ← change s.x q (· + theta)
  return { s with x := x }

/-- After the weights, if they are known, are carried over to the exchanged basis. -/
def reweighted (r : Nat) (alphaColumn tau : List Rat) (s : Machine) : Except Failure Machine :=
  match s.weights with
  | none => .ok s
  | some weights => do
    let weights ← updatedWeights r alphaColumn tau weights
    return { s with weights := weights }

/-- After the variable `q` at nonbasic position `k` and the leaving one have changed places. -/
def exchanged (l : Departure) (k q : Nat) (s : Machine) : Except Failure Machine := do
  let basic ← write s.basic l.row q
  let basicPosition ← write s.basicPosition q (some l.row)
  let basicPosition ← write basicPosition l.var none
  let nonbasic ← write s.nonbasic k l.var
  let nonbasicPosition ← write s.nonbasicPosition l.var (some k)
  let nonbasicPosition ← write nonbasicPosition q none
  return { s with
    basic := basic
    basicPosition := basicPosition
    nonbasic := nonbasic
    nonbasicPosition := nonbasicPosition
    updates := s.updates + 1 }

/-- Replace a column of the factorized basis. -/
def changeBasis (r : Nat) (spike : List (Nat × Rat)) : Action Machine Unit := do
  let s ← get
  match s.factors with
  | none => refuse (.singularBasis s.numRows)
  | some F =>
    let (outcome, F) ← F.changeBasis r spike
    set { s with factors := some F }
    match outcome with
    | .ok () => return ()
    | .error cause => refuse cause

/-- Bring the factors to the exchanged basis: by an update of one column, or from scratch when it is time
for that or the update is refused. -/
def renewFactors (r : Nat) (spike : List (Nat × Rat)) : Action Machine Unit := do
  let s ← get
  if s.config.refactorInterval = 0 then fail .divisionByZero
  else if s.updates % s.config.refactorInterval = 0 then refactor
  else
    match ← (changeBasis r spike).attempt with
    | .ok () => return ()
    | .error cause =>
      record (.updateRefused cause)
      refactor

/-- Compute missing weights after enough iterations. -/
def renewWeights (iterations : Nat) : Action Machine Unit := do
  let s ← get
  if s.weights.isNone && decide (s.numRows < s.config.recomputeFactor * iterations) then
    record (.weightsComputed iterations)
    let F ← factorization
    let weights ← recomputeWeights F
    modify fun s => { s with weights := some weights }
  else return ()

/-- Pivot on the leaving and the entering variable. -/
def exchangeVariables (F : BasisFactors) (weighted : Bool) (l : Departure) (e : Arrival)
    (alphaRow : List Rat) : Action Machine Unit := do
  let s ← get
  let q ← read s.nonbasic e.position
  record (.enters q e.flips.length)
  let column ← s.addColumn q 1 (List.replicate s.numRows 0)
  let (alphaColumn, spike) ← F.ftranWithSpike column
  step (steppedDual e.position alphaRow)
  step (flipped F e.flips)
  step (steppedPrimal l q alphaColumn)
  if weighted then step (reweighted l.row alphaColumn (← waitForTau))
  step (exchanged l e.position q)
  renewFactors l.row spike

/-- No variable can enter. -/
def giveUp (weighted : Bool) (l : Departure) : Action Machine PassResult := do
  if weighted then discard waitForTau
  record (.noneEnters l.var)
  modify fun s => { s with stuck := some l.var }
  return .stop (.verdict .infeasible)

/-- Exchange the leaving variable for another one, if one can enter. -/
def pivotInRow (F : BasisFactors) (rho : List Rat) (weighted : Bool) (p : Progress) (l : Departure) :
    Action Machine PassResult := do
  let alphaRow ← multiply rho
  match ← (← get).selectEntering l alphaRow p.bland with
  | none => giveUp weighted l
  | some e =>
    exchangeVariables F weighted l e alphaRow
    renewWeights (p.iterations + 1)
    return .next { p with iterations := p.iterations + 1 }

/-- Pivot on the leaving variable. -/
def pivot (p : Progress) (l : Departure) : Action Machine PassResult := do
  let F ← factorization
  let s ← get
  let unit ← write (List.replicate s.numRows 0) l.row 1
  let rho ← F.btran unit
  if s.weights.isSome then startTau F rho
  pivotInRow F rho s.weights.isSome p l

/-- One pass. Unless the costs are perturbed, the run ends once the objective value has been repeated too
often. -/
def pass (phaseOne : Bool) (p : Progress) : Action Machine PassResult := do
  let s ← get
  let objective := s.objectiveValue
  let limit := if phaseOne then none else s.cutOff
  match limit.filter fun bound => bound ≤ objective with
  | some bound =>
    record (.cutOffReached objective bound)
    return .stop (.verdict .cutOff)
  | none =>
    let (p, events) := p.observe s.config.cycleThreshold objective
    events.forM record
    if !s.perturbed && decide (s.config.perturbationThreshold < p.repeated) then return .stop .stalled
    else
      match ← s.selectLeaving (s.weights.isSome && !p.bland) with
      | none => return .stop (.verdict .optimal)
      | some l =>
        record (.leaves p.iterations l.var l.row)
        pivot p l

def iterate (phaseOne : Bool) : Nat → Progress → Action Machine Ending
  | 0, _ => fail .exhausted
  | allowance + 1, p => do
    match ← pass phaseOne p with
    | .stop ending => return ending
    | .next p => iterate phaseOne allowance p

end ExactSimplex.Machine
