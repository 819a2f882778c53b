import ExactSimplex.Error
import ExactSimplex.Number.Text

/-! # Verdicts and the log of a solve

A solve ends with a verdict and leaves a trail of events. Variables appear in events by their
index.
-/
namespace ExactSimplex

inductive Verdict where
  | optimal
  | unbounded
  | infeasible
  | cutOff
  deriving DecidableEq, Repr

namespace Verdict

def code : Verdict → Nat
  | optimal => 0
  | unbounded => 1
  | infeasible => 2
  | cutOff => 3

def text : Verdict → String
  | optimal => "optimal"
  | unbounded => "unbounded"
  | infeasible => "infeasible"
  | cutOff => "cut off"

end Verdict

inductive Event where
  | created (rows columns : Nat)
  | factorized (updates values : Nat)
  | importedBasis
  | ignoredBasis (cause : Error)
  | ignoredRay (cause : Error)
  | unusableBasis (cause : Error)
  | guessInvalid
  | guessInexact
  | guessZero
  | guessRefuted
  | guessVerified
  | contradictoryBounds (index : Nat)
  | phaseOneStarted
  | phaseOneFeasible
  | phaseOneFailed (verdict : Verdict) (objective : Rat)
  | flipped (count : Nat)
  | cutOffReached (objective bound : Rat)
  | blandEngaged (repeats : Nat)
  | blandReleased
  | leaves (iteration index row : Nat)
  | enters (index flips : Nat)
  | noneEnters (index : Nat)
  | updateRefused (cause : Error)
  | weightsComputed (iterations : Nat)
  | costsPerturbed
  | finished (verdict : Verdict)
  deriving DecidableEq, Repr

namespace Event

def level : Event → String
  | leaves _ _ _ => "trace"
  | enters _ _ => "trace"
  | created _ _ => "debug"
  | factorized _ _ => "debug"
  | importedBasis => "debug"
  | guessInvalid => "debug"
  | guessInexact => "debug"
  | guessZero => "debug"
  | guessRefuted => "debug"
  | flipped _ => "debug"
  | blandEngaged _ => "debug"
  | blandReleased => "debug"
  | updateRefused _ => "debug"
  | weightsComputed _ => "debug"
  | _ => "info"

def message : Event → String
  | created rows columns =>
    "created solver with " ++ toString rows ++ " rows and " ++ toString columns ++ " columns"
  | factorized updates values =>
    "factorized basis after " ++ toString updates ++ " updates, " ++ toString values ++
      " values in U"
  | importedBasis => "imported basis from the initial basis provider"
  | ignoredBasis cause => "ignoring basis from the initial basis provider: " ++ cause.message
  | ignoredRay cause => "ignoring ray from the initial basis provider: " ++ cause.message
  | unusableBasis cause =>
    "can't factorize the imported basis, using the slack basis: " ++ cause.message
  | guessInvalid => "rejecting infeasibility ray guess with invalid values"
  | guessInexact => "infeasibility ray guess can't be represented exactly"
  | guessZero => "infeasibility ray guess is zero on the basis"
  | guessRefuted => "infeasibility ray guess is not a certificate"
  | guessVerified => "infeasibility ray guess verified, problem is infeasible"
  | contradictoryBounds index =>
    "variable " ++ toString index ++ " has a lower bound above its upper bound"
  | phaseOneStarted => "basis is not dual feasible, starting phase one"
  | phaseOneFeasible => "phase one found a dual feasible basis"
  | phaseOneFailed verdict objective =>
    "phase one ended " ++ verdict.text ++ " with objective value " ++ numberText objective ++
      ", no dual feasible basis"
  | flipped count => "flipped " ++ toString count ++ " boxed variables to a dual feasible bound"
  | cutOffReached objective bound =>
    "objective value " ++ numberText objective ++ " reached the infeasibility bound " ++
      numberText bound
  | blandEngaged repeats =>
    "objective value repeated " ++ toString repeats ++ " times, switching to Bland's rule"
  | blandReleased => "objective value changing again, switching to steepest edge"
  | leaves iteration index row =>
    "iteration " ++ toString iteration ++ ": variable " ++ toString index ++ " leaves from row " ++
      toString row
  | enters index flips =>
    "variable " ++ toString index ++ " enters after " ++ toString flips ++ " bound flips"
  | noneEnters index =>
    "no variable can enter for leaving variable " ++ toString index ++ ", dual is unbounded"
  | updateRefused cause => "updating the factorization failed, refactorizing: " ++ cause.message
  | weightsComputed iterations =>
    "computing steepest edge weights after " ++ toString iterations ++ " iterations"
  | costsPerturbed => "objective value stalled, solving with perturbed costs"
  | finished verdict => "solve finished: " ++ verdict.text

def text (e : Event) : String := e.level ++ ": " ++ e.message

end Event

end ExactSimplex
