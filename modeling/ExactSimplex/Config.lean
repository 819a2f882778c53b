import ExactSimplex.Number.Range

/-! # Parameters of a solver -/
namespace ExactSimplex

structure Config where
  /-- How doubles and counts are read as rationals. -/
  numbers : NumberRange := .unbounded
  /-- The factorization is made anew after this many pivots. -/
  refactorInterval : Nat := 20
  /-- Lines that a pivot search considers before it settles for the best found. -/
  searchLimit : Nat := 25
  /-- Repetitions of the objective value before Bland's rule is engaged, and changes of it before
  the rule is released. -/
  cycleThreshold : Nat := 5
  /-- Repetitions of the objective value before the costs are perturbed. -/
  perturbationThreshold : Nat := 25
  /-- Entries of a transformed ray guess that are closer than this to an integer are rounded. -/
  roundingTolerance : Double := .ofDecimal false 1 (-3)
  /-- Ray guesses with a larger entry are not considered. -/
  magnitudeLimit : Double := .ofDecimal false 1 30
  /-- Missing weights are computed once this factor times the iterations exceeds the rows. -/
  recomputeFactor : Nat := 4
  /-- Threads that a caller grants for computing weights. -/
  weightThreads : Nat := 4
  deriving DecidableEq, Repr

namespace Config

/-- The number of ways to give a status to each of `n + m` variables. -/
def assignments (n m : Nat) : Nat := Nat.pow 4 (n + m)

/-- An allowance of passes for a run. The objective value never decreases and takes no more values
than there are assignments of statuses; while it stays the same, Bland's rule visits each assignment
at most once after the thresholds have been passed. -/
def passAllowance (cfg : Config) (n m : Nat) : Nat :=
  let k := assignments n m
  k * (k + cfg.cycleThreshold + cfg.perturbationThreshold + 3) + 1

end Config

end ExactSimplex
