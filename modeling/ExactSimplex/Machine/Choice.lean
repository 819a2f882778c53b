import ExactSimplex.Machine.Point

/-! # Choosing a pivot

The leaving variable is looked for among the basic variables, the entering one among the nonbasic ones. When
the weights are known, `tau = B⁻¹ B⁻ᵀ e_r` is computed in the background meanwhile.
-/
namespace ExactSimplex.Machine

/-- A basic variable that violates one of its bounds. -/
structure Departure where
  row : Nat
  var : Nat
  side : Side
  deriving DecidableEq

/-- The nonbasic position that enters, and the variables that change sides with the change of their
values. -/
structure Arrival where
  position : Nat
  flips : List (Nat × Rat)
  deriving DecidableEq

/-- The variable at a basis position, if it violates one of its bounds, and by how much. -/
def departure? (s : Machine) (i j : Nat) : Except Failure (Option (Rat × Departure)) := do
  let b ← read s.bounds j
  let x ← read s.x j
  return (b.violation? x).map fun e => (e.2, ⟨i, j, e.1⟩)

/-- What a departure is judged by: with weights its violation relative to them, else the violation alone. -/
def score (s : Machine) (steepest : Bool) (c : Rat × Departure) : Except Failure Rat :=
  match s.weights, steepest with
  | some weights, true => do divide (c.1 * c.1) (← read weights c.2.row)
  | _, _ => .ok c.1

/-- With weights the higher score is better, else the lower index. -/
def isBetter (s : Machine) (steepest : Bool) (a b : Rat × Departure) : Bool :=
  if s.weights.isSome && steepest then decide (b.1 < a.1) else decide (a.2.var < b.2.var)

/-- The leaving variable, or none if all basic variables are within their bounds. -/
def selectLeaving (s : Machine) (steepest : Bool) : Except Failure (Option Departure) := do
  let best ← s.basic.zipIdx.foldlM (fun best e => do
    match ← s.departure? e.2 e.1 with
    | none => return best
    | some c =>
      let scored := (← s.score steepest c, c.2)
      return if best.all (s.isBetter steepest scored) then some scored else best) none
  return best.map Prod.snd

/-- The bound that the leaving variable will attain. -/
def leavingTarget (s : Machine) (l : Departure) : Except Failure Rat := do
  let b ← read s.bounds l.var
  match b.get l.side with
  | some bound => return bound
  | none => read s.x l.var

/-- The distance of the leaving variable from its bound. -/
def violation (s : Machine) (l : Departure) : Except Failure Rat := do
  let target ← s.leavingTarget l
  let x ← read s.x l.var
  match l.side with
  | .lower => return target - x
  | .upper => return x - target

/-- The variable at a nonbasic position, if it can enter, with the step at which its reduced cost reaches
zero. -/
def candidate? (s : Machine) (side : Side) (alphaRow : List Rat) (k j : Nat) :
    Except Failure (Option (Rat × Nat)) := do
  let alpha ← read alphaRow k
  if alpha = 0 then return none
  else
    let alpha := State.towards side alpha
    if State.isEligible (← read s.bounds j) (← read s.x j) alpha then
      return some (← divide (← read s.d k) alpha, k)
    else return none

def candidates (s : Machine) (side : Side) (alphaRow : List Rat) : Except Failure (List (Rat × Nat)) := do
  let found ← s.nonbasic.zipIdx.mapM fun e => s.candidate? side alphaRow e.2 e.1
  return found.filterMap id

/-- Pass candidates in order while the rest of the violation allows it; the last one reached enters. -/
def passCandidates (s : Machine) (alphaRow : List Rat) (remaining : Rat) (entering : Option Nat)
    (flips : List (Nat × Rat)) : List Nat → Except Failure (Option Arrival)
  | [] => return entering.map fun k => ⟨k, flips⟩
  | k :: rest => do
    let j ← read s.nonbasic k
    match (← read s.bounds j).box? with
    | none => return some ⟨k, flips⟩
    | some (lower, upper) =>
      let after := remaining - (upper - lower) * (← read alphaRow k).abs
      if after < 0 then return some ⟨k, flips⟩
      else
        let change := if (← read s.x j) = lower then upper - lower else lower - upper
        s.passCandidates alphaRow after (some k)
          (if change = 0 then flips else flips ++ [(j, change)]) rest

/-- Of the smallest steps the one of the lowest variable; nothing is flipped. -/
def enteringBland (s : Machine) (found : List (Rat × Nat)) : Except Failure (Option Arrival) := do
  let indexed ← found.mapM fun c => do return (c, ← read s.nonbasic c.2)
  let better (a b : (Rat × Nat) × Nat) : Bool :=
    decide (a.1.1 < b.1.1) || (decide (a.1.1 = b.1.1) && decide (a.2 < b.2))
  return (firstBest better indexed).map fun best => ⟨best.1.2, []⟩

/-- The entering variable, or none if the violation cannot shrink. -/
def selectEntering (s : Machine) (l : Departure) (alphaRow : List Rat) (bland : Bool) :
    Except Failure (Option Arrival) := do
  let found ← s.candidates l.side alphaRow
  if found.isEmpty then return none
  else if bland then s.enteringBland found
  else
    let sorted := stableSort
      (fun a b => decide (a.1 < b.1) || (decide (a.1 = b.1) && decide (a.2 ≤ b.2))) found
    s.passCandidates alphaRow (← s.violation l) none [] (sorted.map Prod.snd)

/-- The weights after a pivot in row `r`, none if `tau` does not fit them. -/
def updatedWeights (r : Nat) (alpha tau weights : List Rat) : Except Failure (Option (List Rat)) :=
  if tau.length ≠ weights.length then return none
  else do
    let pivot ← read alpha r
    let beta ← read weights r
    let weights ← write weights r (← divide beta (pivot * pivot))
    let updated ← changeAlong (fun i weight a =>
      if i = r ∨ a = 0 then .ok weight
      else do
        let ratio ← divide a pivot
        return weight - 2 * ratio * (← read tau i) + ratio * ratio * beta) 0 weights alpha
    return some updated

/-- Start to compute `tau`. The helper for it is spawned when it is first needed. -/
def startTau (F : BasisFactors) (rho : List Rat) : Action Machine Unit := do
  let turn ← nextTurn
  step fun s => do
    let helper ← (s.steepestEdge.getD (.spawn turn.started)).submit turn (F.ftran rho)
    return { s with steepestEdge := some helper }

/-- Take the pending `tau`, which is empty if none was ever started. -/
def waitForTau : Action Machine (List Rat) := do
  let s ← get
  match s.steepestEdge with
  | none => return []
  | some helper =>
    let (tau, helper) ← helper.wait
    set { s with steepestEdge := some helper }
    return tau

/-- The weights from scratch: the squared norms of the rows of the inverse. -/
def recomputeWeights (F : BasisFactors) : Except Failure (List Rat) :=
  (List.range F.order).mapM fun i => do
    let unit ← write (List.replicate F.order 0) i 1
    let row ← F.btran unit
    return addUp ((row.filter fun v => v ≠ 0).map fun v => v * v)

end ExactSimplex.Machine
