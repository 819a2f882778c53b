import ExactSimplex.Proofs.Machine.Orderly

/-! # The index lists describe a partition in every state

A solve may be given up between any two of its steps, and its passes begin in different problems: the true one,
the one with surrogate bounds and the one with perturbed costs. In every state in which a pass begins, and in
every state that a request leaves behind, the index lists describe a partition of all variables.
-/
namespace ExactSimplex
open ExactSimplex.Action

namespace Machine
variable {s t : Machine}

section Tops

/-- Nonbasic variables are moved to bounds, and the point is computed. -/
def Rests (s t : Machine) : Prop :=
  (do step movedToBounds; flipToDualFeasibility 2 : Action Machine Unit).run s = .ok (.ok (), t)

/-- A pass begins with this progress in this state, in a main loop that starts from `s`. -/
inductive LoopTops (phaseOne : Bool) (s : Machine) : Progress → Machine → Prop
  | enter : LoopTops phaseOne s {} s
  | next {p q : Progress} {t u : Machine} (ht : LoopTops phaseOne s p t)
      (hu : (pass phaseOne p).run t = .ok (.ok (.next q), u)) : LoopTops phaseOne s q u

/-- The machine in which phase one starts. -/
def surrogateStart (s : Machine) : Machine :=
  { s with
    bounds := s.bounds.map Bounds.surrogate
    log := s.log.push .phaseOneStarted
    stuck := none }

/-- A pass begins in this state, in the phases of a run that start from `s`. -/
inductive PhaseTops : Bool → Machine → Machine → Prop
  | loop {phaseOne : Bool} {s t u : Machine} {p : Progress} (ht : Rests s t)
      (hfeasible : phaseOne = true ∨ t.isDualFeasible = .ok true) (hu : LoopTops phaseOne t p u) :
      PhaseTops phaseOne s u
  | surrogate {s t u : Machine} (ht : Rests s t) (hnot : t.isDualFeasible = .ok false)
      (hu : PhaseTops true t.surrogateStart u) : PhaseTops false s u
  | again {s t v u : Machine} (ht : Rests s t) (hnot : t.isDualFeasible = .ok false)
      (hv : phaseOne.run t = .ok (.ok .feasible, v)) (hu : PhaseTops false v u) : PhaseTops false s u

/-- A pass begins in this state, in a run that starts from `s`. -/
def RunTops (s u : Machine) : Prop := s.contradictory? = none ∧ PhaseTops false { s with stuck := none } u

/-- A pass begins in this state, in one of the runs that start from `s`. -/
inductive SolveTops : Machine → Machine → Prop
  | first {s u : Machine} (hu : RunTops s u) : SolveTops s u
  | perturbed {s t u : Machine} {objective : List ℚ} (ht : run.run s = .ok (.ok .stalled, t))
      (hobjective : t.perturbedObjective = .ok objective) (hu : RunTops (t.perturbedStart objective) u) :
      SolveTops s u
  | again {s t v u : Machine} (ht : run.run s = .ok (.ok .stalled, t))
      (hv : solvePerturbed.run t = .ok (.ok (), v)) (hu : SolveTops v u) : SolveTops s u

/-- The machine in which a solve that is asked for begins. -/
def solveStart (s : Machine) : Machine :=
  { s with shown := none, log := #[], stuck := none, proof := none, perturbed := false }

/-- A pass begins in this state when the machine is asked to solve. -/
def Tops (s u : Machine) : Prop :=
  ∃ t v, prepare.run s.solveStart = .ok (.ok (), t) ∧ checkGuess.run t = .ok (.ok false, v) ∧ SolveTops v u

theorem Orderly.rests (h : s.Orderly) (ht : s.Rests t) : t.Orderly ∧ t.factors.isSome = true := by
  have hrest : Ends (do step movedToBounds; flipToDualFeasibility 2) s
      fun r t => t.Orderly ∧ ∀ u, r = .ok u → t.factors.isSome = true :=
    (preserves_orderly.moves.inner.keeps_values (fun _ _ => onlyValues_movedToBounds) s h).bind
      (fun _ t ht => preserves_orderly.moves.ends_flipToDualFeasibility 2 ht)
      fun _ _ ht => ⟨ht, fun _ h => by cases h⟩
  obtain ⟨ht, hF⟩ := hrest _ _ ht
  exact ⟨ht, hF () rfl⟩

theorem LoopTops.orderly {phaseOne : Bool} {p : Progress} {u : Machine} (hu : LoopTops phaseOne s p u)
    (h : s.Orderly ∧ s.factors.isSome = true) : u.Orderly ∧ u.factors.isSome = true := by
  induction hu with
  | enter => exact h
  | next _ hu ih => exact preserves_orderly.moves.keeps_pass phaseOne _ _ ih _ _ hu

theorem PhaseTops.orderly {phaseOne : Bool} {u : Machine} (hu : PhaseTops phaseOne s u) (h : s.Orderly) :
    u.Orderly := by
  induction hu with
  | loop ht _ hu => exact (hu.orderly (h.rests ht)).1
  | surrogate ht _ _ ih =>
    have ht := (h.rests ht).1
    exact ih { ht with bounds_length := (List.length_map _).trans ht.bounds_length }
  | again ht _ hv _ ih => exact ih (orderly_phaseOne _ (h.rests ht).1 _ _ hv)

theorem RunTops.orderly {u : Machine} (hu : RunTops s u) (h : s.Orderly) : u.Orderly :=
  hu.2.orderly { h with }

theorem SolveTops.orderly {u : Machine} (hu : SolveTops s u) (h : s.Orderly) : u.Orderly := by
  induction hu with
  | first hu => exact hu.orderly h
  | perturbed ht hobjective hu => exact hu.orderly ((orderly_run _ h _ _ ht).perturbedStart hobjective)
  | again ht hv _ ih => exact ih (orderly_solvePerturbed _ (orderly_run _ h _ _ ht) _ _ hv)

theorem Tops.orderly {u : Machine} (hu : s.Tops u) (h : s.Orderly) : u.Orderly := by
  obtain ⟨t, v, ht, hv, hu⟩ := hu
  have hstart : s.solveStart.Orderly := { h with }
  exact hu.orderly (preserves_orderly.keeps_checkGuess _ (orderly_prepare _ hstart _ _ ht) _ _ hv)

end Tops

section Base

variable (h : s.Orderly)
include h

end Base

/-- The state in which the first pass of a solve begins, if the solve gets that far. -/
def firstTop? (s : Machine) : Option Machine := do
  let rest : Action Machine Unit := do step movedToBounds; flipToDualFeasibility 2
  let prepared ← prepare.value? s.solveStart
  let checked ← checkGuess.value? prepared.2
  if checked.1 = true ∨ checked.2.contradictory? ≠ none then none
  else
    let rested ← rest.value? { checked.2 with stuck := none }
    if rested.2.isDualFeasible = .ok true then some rested.2
    else if rested.2.isDualFeasible = .ok false then
      (rest.value? rested.2.surrogateStart).map Prod.snd
    else none

end Machine

end ExactSimplex
