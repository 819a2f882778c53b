import ExactSimplex.Search.Pricing

/-! # Choosing the entering variable

The candidates are the nonbasic variables that can move so that the violation shrinks. Along the
pivot row their reduced costs reach zero one after the other. A boxed candidate may be passed by
moving it to its other bound, as long as the leaving variable stays outside of its bounds.
-/
namespace ExactSimplex

/-- The nonbasic position that enters, and the variables that change sides with the change of their
values. -/
structure Entering (n m : Nat) where
  position : Fin n
  flips : List (Var n m × Rat)

namespace State

variable {n m : Nat}

/-- The variable can move in the direction in which a positive `alpha` pushes it up. -/
def isEligible (b : Bounds) (x alpha : Rat) : Bool :=
  b.isFree ||
    (b.lower.isAt x && !b.upper.isAt x && decide (0 < alpha)) ||
    (b.upper.isAt x && !b.lower.isAt x && decide (alpha < 0))

/-- The entry of the pivot row as seen from the violated side. -/
def towards (side : Side) (alpha : Rat) : Rat :=
  match side with
  | .lower => -alpha
  | .upper => alpha

/-- The nonbasic positions that can enter with the step at which their reduced costs reach zero. -/
def candidates (P : Problem n m) (s : State n m) (side : Side) (alphaRow : Vec n) :
    List (Rat × Fin n) :=
  (List.finRange n).filterMap fun k =>
    let v := s.basis.nonbasic.get k
    let alpha := towards side (alphaRow.get k)
    if alpha ≠ 0 && isEligible (P.bounds.get v) (s.values.get v) alpha then
      some (s.reduced.get k / alpha, k)
    else none

/-- Pass candidates in order while the rest of the violation allows it; the last one reached
enters. -/
def passCandidates (P : Problem n m) (s : State n m) (alphaRow : Vec n) :
    Rat → List (Fin n) → Option (Entering n m)
  | _, [] => none
  | remaining, k :: rest =>
    let v := s.basis.nonbasic.get k
    match (P.bounds.get v).box? with
    | none => some ⟨k, []⟩
    | some (lower, upper) =>
      let after := remaining - (upper - lower) * (alphaRow.get k).abs
      if after < 0 then some ⟨k, []⟩
      else
        let change := if s.values.get v = lower then upper - lower else lower - upper
        let here := if change = 0 then [] else [(v, change)]
        match passCandidates P s alphaRow after rest with
        | none => some ⟨k, here⟩
        | some e => some { e with flips := here ++ e.flips }

/-- Of the smallest steps the one of the lowest variable; nothing is flipped. -/
def chooseBland (s : State n m) (candidates : List (Rat × Fin n)) : Option (Entering n m) :=
  let index (k : Fin n) : Nat := (s.basis.nonbasic.get k).index
  let better (a b : Rat × Fin n) : Bool :=
    decide (a.1 < b.1) || (decide (a.1 = b.1) && decide (index a.2 < index b.2))
  (firstBest better candidates).map fun best => ⟨best.2, []⟩

/-- The entering variable, or none if the violation cannot shrink. -/
def chooseEntering (P : Problem n m) (bland : Bool) (s : State n m) (l : Leaving n m)
    (alphaRow : Vec n) : Option (Entering n m) :=
  let found := s.candidates P l.side alphaRow
  if bland then s.chooseBland found
  else
    let sorted := stableSort (fun a b => decide (a.1 ≤ b.1)) found
    let distance := (s.leavingTarget P l - s.values.get l.var).abs
    s.passCandidates P alphaRow distance (sorted.map fun c => c.2)

end State

end ExactSimplex
