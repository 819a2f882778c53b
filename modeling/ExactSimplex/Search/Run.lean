import ExactSimplex.Search.Pass

/-! # Runs of the dual simplex method

A run first puts every nonbasic variable at a bound that agrees with its reduced cost. Where that
is impossible, phase one solves the problem with surrogate bounds, under which every basis is dual
feasible; its optimum is zero exactly when the problem has a dual feasible basis, and then it ends
in one. The problem of a run is given to it; a machine overwrites its own problem instead and puts
it back.
-/
namespace ExactSimplex.State

variable {n m : Nat}

/-- The value of a nonbasic variable that is nearest to being at a bound: it stays at a bound of a
box, else moves to the lower bound, else the upper bound, else zero. -/
def nonbasicValue (b : Bounds) (x : Rat) : Rat :=
  match b.lower, b.upper with
  | some l, some u => if x = l ∨ x = u then x else l
  | some l, none => l
  | none, some u => u
  | none, none => 0

/-- Place every nonbasic variable at one of its bounds, or at zero. -/
def moveToBounds (P : Problem n m) (s : State n m) : State n m :=
  let values := s.basis.nonbasic.foldl
    (fun x v => x.set v (nonbasicValue (P.bounds.get v) (x.get v))) s.values
  { s with values := values }

/-- The other bound of a box, if the reduced cost calls for it. -/
def wantedBound? (b : Bounds) (x d : Rat) : Option Rat :=
  match b.box? with
  | none => none
  | some (l, u) =>
    if l = u then none
    else if x = l ∧ d < 0 then some u
    else if x = u ∧ 0 < d then some l
    else none

/-- The nonbasic variables that have to change sides, with their new values. -/
def wantedFlips (P : Problem n m) (s : State n m) : List (Var n m × Rat) :=
  (List.finRange n).filterMap fun k =>
    let v := s.basis.nonbasic.get k
    (wantedBound? (P.bounds.get v) (s.values.get v) (s.reduced.get k)).map fun x => (v, x)

/-- Recompute the point and move boxed variables until none has to change sides. -/
def settle (P : Problem n m) : Nat → State n m → Except (Halt n m) (State n m)
  | 0, s => .error ⟨.exhausted, s⟩
  | rounds + 1, s => do
    let s ← s.divided (s.recompute P)
    match s.wantedFlips P with
    | [] => return s
    | flips =>
      let values := flips.foldl (fun x f => x.set f.1 f.2) s.values
      settle P rounds (({ s with values := values } : State n m).record (.flipped flips.length))

/-- Place the nonbasic variables. Two rounds are enough, because the reduced costs do not depend on
the values: a variable that has moved stays. -/
def comeToRest (P : Problem n m) (s : State n m) : Except (Halt n m) (State n m) :=
  settle P 2 (s.moveToBounds P)

def agrees (b : Bounds) (x d : Rat) : Bool :=
  b.isFixed || (!(b.lower.isAt x && decide (d < 0)) && !(b.upper.isAt x && decide (0 < d)) &&
    !(b.isFree && decide (d ≠ 0)))

def isDualFeasible (P : Problem n m) (s : State n m) : Bool :=
  (List.finRange n).all fun k =>
    let v := s.basis.nonbasic.get k
    agrees (P.bounds.get v) (s.values.get v) (s.reduced.get k)

def runSurrogate (P : Problem n m) (cfg : Config) (mayStall : Bool) (s : State n m) :
    Except (Halt n m) (State n m × Ending) := do
  let s ← comeToRest P.surrogate { s with stuck := none }
  iterate P.surrogate cfg mayStall (cfg.passAllowance n m) {} s

/-- A run that may enter phase one the given number of times. -/
def runPhases (P : Problem n m) (cfg : Config) (mayStall : Bool) :
    Nat → State n m → Except (Halt n m) (State n m × Ending)
  | 0, s => .error ⟨.exhausted, s⟩
  | phases + 1, s => do
    let s ← comeToRest P s
    if s.isDualFeasible P then iterate P cfg mayStall (cfg.passAllowance n m) {} s
    else
      match ← runSurrogate P cfg mayStall (s.record .phaseOneStarted) with
      | (s, .stalled) => return (s, .stalled)
      | (s, .verdict v) =>
        let objective := P.objectiveValue s.values
        if v = .optimal ∧ objective = 0 then
          runPhases P cfg mayStall phases (s.record .phaseOneFeasible)
        else return (s.record (.phaseOneFailed v objective), .verdict .unbounded)

def run (P : Problem n m) (cfg : Config) (mayStall : Bool) (s : State n m) :
    Except (Halt n m) (State n m × Ending) :=
  runPhases P cfg mayStall (Config.assignments n m + 1) { s with stuck := none }

/-- Runs until a verdict: a run that stalls is followed by one with perturbed costs, whose result
does not count, and by one with the true costs that cannot stall. -/
def solve (P : Problem n m) (cfg : Config) (s : State n m) :
    Except (Halt n m) (State n m × Verdict) := do
  match ← run P cfg true s with
  | (s, .verdict v) => return (s, v)
  | (s, .stalled) =>
    let (s, _) ← run (P.perturbed cfg.numbers) cfg false (s.record .costsPerturbed)
    match ← run P cfg false s with
    | (s, .verdict v) => return (s, v)
    | (s, .stalled) => .error ⟨.exhausted, s⟩

end ExactSimplex.State
