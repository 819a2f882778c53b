import ExactSimplex.Search.RatioTest

/-! # One pass of the dual simplex method

A pass looks at the objective value, chooses a leaving and an entering variable, exchanges them
and brings values, reduced costs, weights and factors up to date.
-/
namespace ExactSimplex

/-- What a run remembers from pass to pass. -/
structure Progress where
  previous : Option Rat := none
  repeated : Nat := 0
  changed : Nat := 0
  bland : Bool := false
  iterations : Nat := 0
  deriving DecidableEq

/-- Take note of an objective value: Bland's rule is engaged once it has been repeated too often,
and released after it has changed often enough. -/
def Progress.observe (p : Progress) (threshold : Nat) (objective : Rat) : Progress × List Event :=
  let p' := { p with previous := some objective }
  if p.previous = some objective then
    let repeated := p.repeated + 1
    if threshold < repeated && !p.bland then
      ({ p' with repeated := repeated, bland := true }, [.blandEngaged repeated])
    else ({ p' with repeated := repeated }, [])
  else if p.bland then
    if threshold < p.changed + 1 then
      ({ p' with repeated := 0, changed := 0, bland := false }, [.blandReleased])
    else ({ p' with repeated := 0, changed := p.changed + 1 }, [])
  else ({ p' with repeated := 0 }, [])

/-- How a run ends: with a verdict, or because the costs should be perturbed. -/
inductive Ending where
  | verdict (v : Verdict)
  | stalled
  deriving DecidableEq, Repr

/-- A pass ends the run or hands over to the next one. -/
inductive PassResult where
  | stop (ending : Ending)
  | next (progress : Progress)
  deriving DecidableEq

namespace State

variable {n m : Nat}

/-- Move variables by given amounts and let the basic ones follow. -/
def applyFlips (P : Problem n m) (s : State n m) (flips : List (Var n m × Rat)) :
    Option (PerVar Rat n m) :=
  let moved := flips.foldl (fun x f => x.add f.1 f.2) s.values
  let shift := flips.foldl (fun w f => SparseVec.addTo (P.column f.1) f.2 w) (Vec.zero m)
  (s.factors.solve shift).map fun w => shiftBasic s.basis moved 1 w

/-- The reduced costs after a step along the pivot row that brings position `k` to zero. -/
def stepDual (d : Vec n) (alphaRow : Vec n) (k : Fin n) : Option (Vec n) :=
  (divide? (d.get k) (alphaRow.get k)).map fun theta =>
    put (Vector.ofFn fun j => d.get j - theta * alphaRow.get j) k (-theta)

/-- The values after a step along the entering column that brings the leaving variable to its
target. -/
def stepPrimal (basis : Basis n m) (x : PerVar Rat n m) (l : Leaving n m) (target : Rat)
    (q : Var n m) (alphaColumn : Vec m) : Option (PerVar Rat n m) :=
  (divide? (x.get l.var - target) (alphaColumn.get l.row)).map fun theta =>
    (shiftBasic basis x theta alphaColumn).add q theta

/-- Weights that are known are carried over to the exchanged basis. -/
def carryWeights (s : State n m) (r : Fin m) (rho alphaColumn : Vec m) : Option (Option (Vec m)) :=
  match s.weights with
  | none => some none
  | some weights =>
    (s.factors.solve rho).bind fun tau => (updateWeights r alphaColumn tau weights).map some

/-- The state after the exchange of the leaving and the entering variable, the factors still being
those of the old basis. -/
def exchange (P : Problem n m) (s : State n m) (l : Leaving n m) (e : Entering n m) (rho : Vec m)
    (alphaRow : Vec n) (alphaColumn : Vec m) : Option (State n m) := do
  let q := s.basis.nonbasic.get e.position
  let reduced ← stepDual s.reduced alphaRow e.position
  let flipped ← s.applyFlips P e.flips
  let values ← stepPrimal s.basis flipped l (s.leavingTarget P l) q alphaColumn
  let weights ← s.carryWeights l.row rho alphaColumn
  return { s with
    basis := s.basis.exchange l.row e.position
    values := values
    reduced := reduced
    weights := weights
    pivots := s.pivots + 1 }

/-- Bring the factors to the exchanged basis: by an update of one column, or from scratch when it
is time for that or the update is refused. -/
def renewFactors (P : Problem n m) (cfg : Config) (s : State n m) (r : Fin m) (column : Vec m) :
    Except (Halt n m) (State n m) :=
  if s.pivots % cfg.refactorInterval = 0 then s.refactor P cfg
  else
    match s.factors.replaceColumn r column with
    | .ok factors => .ok { s with factors := factors }
    | .error (.refused cause) => (s.record (.updateRefused cause)).refactor P cfg
    | .error failure => .error ⟨failure, s⟩

/-- Compute missing weights after enough iterations. -/
def renewWeights (cfg : Config) (s : State n m) (iterations : Nat) :
    Except (Halt n m) (State n m) :=
  if s.weights.isNone && decide (m < cfg.recomputeFactor * iterations) then do
    let s := s.record (.weightsComputed iterations)
    let weights ← s.divided (exactWeights s.factors)
    return { s with weights := some weights }
  else .ok s

/-- Pivot on the leaving variable, if another one can enter. -/
def pivot (P : Problem n m) (cfg : Config) (p : Progress) (s : State n m) (l : Leaving n m) :
    Except (Halt n m) (State n m × PassResult) := do
  let rho ← s.divided (s.factors.solveTransposed (Vec.unit l.row))
  let alphaRow := P.nonbasicProduct s.basis.place rho
  match s.chooseEntering P p.bland l alphaRow with
  | none =>
    let s := s.record (.noneEnters l.var.index)
    return ({ s with stuck := some l.var }, .stop (.verdict .infeasible))
  | some e =>
    let q := s.basis.nonbasic.get e.position
    let s := s.record (.enters q.index e.flips.length)
    let column := SparseVec.addTo (P.column q) 1 (Vec.zero m)
    let alphaColumn ← s.divided (s.factors.solve column)
    let exchanged ← s.divided (s.exchange P l e rho alphaRow alphaColumn)
    let renewed ← exchanged.renewFactors P cfg l.row column
    let s ← renewed.renewWeights cfg (p.iterations + 1)
    return (s, .next { p with iterations := p.iterations + 1 })

/-- One pass. With `mayStall` the run ends once the objective value has been repeated too often. -/
def pass (P : Problem n m) (cfg : Config) (mayStall : Bool) (p : Progress) (s : State n m) :
    Except (Halt n m) (State n m × PassResult) := do
  let objective := P.objectiveValue s.values
  match P.cutOff.filter fun bound => bound ≤ objective with
  | some bound => return (s.record (.cutOffReached objective bound), .stop (.verdict .cutOff))
  | none =>
    let (p, events) := p.observe cfg.cycleThreshold objective
    let s := s.recordAll events
    if mayStall && decide (cfg.perturbationThreshold < p.repeated) then return (s, .stop .stalled)
    else
      match ← s.divided (s.chooseLeaving P p.bland) with
      | none => return (s, .stop (.verdict .optimal))
      | some l => (s.record (.leaves p.iterations l.var.index l.row)).pivot P cfg p l

def iterate (P : Problem n m) (cfg : Config) (mayStall : Bool) :
    Nat → Progress → State n m → Except (Halt n m) (State n m × Ending)
  | 0, _, s => .error ⟨.exhausted, s⟩
  | allowance + 1, p, s => do
    match ← s.pass P cfg mayStall p with
    | (s, .stop ending) => return (s, ending)
    | (s, .next p) => iterate P cfg mayStall allowance p s

end State

end ExactSimplex
