import ExactSimplex.Proofs.Frame

/-! # The states that a solve goes through

A solve makes one run, or three when the first one stalls. A run enters its loop at rest under the
true bounds, or first that of phase one under the surrogate bounds. What is recorded here are the
problem and the state at the top of every pass of these loops, as the search goes through them. For a
matrix in which no row repeats a column all these states are ready.
-/
namespace ExactSimplex
variable {n m : ℕ}

namespace State

/-- The states at the top of the passes of a loop, with what the loop remembers: the one that it is
entered with, and those that a pass hands over. -/
inductive LoopVisits (P : Problem n m) (cfg : Config) (mayStall : Bool) (s : State n m) :
    Progress → State n m → Prop
  | enter : LoopVisits P cfg mayStall s {} s
  | next {p p' : Progress} {t u : State n m} (ht : LoopVisits P cfg mayStall s p t)
      (hu : t.pass P cfg mayStall p = .ok (u, .next p')) : LoopVisits P cfg mayStall s p' u

/-- The problem and the state at the top of every pass of a run: in the main loop, in phase one, and
in what follows when phase one has found a dual feasible basis. -/
inductive RunVisits (P : Problem n m) (cfg : Config) (mayStall : Bool) :
    State n m → Problem n m → State n m → Prop
  | main {s t u : State n m} {p : Progress} (ht : comeToRest P s = .ok t)
      (hd : t.isDualFeasible P = true) (hu : LoopVisits P cfg mayStall t p u) :
      RunVisits P cfg mayStall s P u
  | phaseOne {s t w u : State n m} {p : Progress} (ht : comeToRest P s = .ok t)
      (hd : t.isDualFeasible P = false)
      (hw : comeToRest P.surrogate { t.record .phaseOneStarted with stuck := none } = .ok w)
      (hu : LoopVisits P.surrogate cfg mayStall w p u) : RunVisits P cfg mayStall s P.surrogate u
  | again {s t w u : State n m} {Q : Problem n m} (ht : comeToRest P s = .ok t)
      (hd : t.isDualFeasible P = false)
      (hw : runSurrogate P cfg mayStall (t.record .phaseOneStarted) = .ok (w, .verdict .optimal))
      (h0 : P.objectiveValue w.values = 0)
      (hu : RunVisits P cfg mayStall (w.record .phaseOneFeasible) Q u) :
      RunVisits P cfg mayStall s Q u

/-- The problem and the state at the top of every pass of a solve: in its first run, in the run with
perturbed costs after a stall, and in the last one. -/
inductive SolveVisits (P : Problem n m) (cfg : Config) (s : State n m) :
    Problem n m → State n m → Prop
  | first {Q : Problem n m} {u : State n m}
      (hu : RunVisits P cfg true { s with stuck := none } Q u) : SolveVisits P cfg s Q u
  | perturbed {Q : Problem n m} {t u : State n m} (ht : run P cfg true s = .ok (t, .stalled))
      (hu : RunVisits (P.perturbed cfg.numbers) cfg false
        { t.record .costsPerturbed with stuck := none } Q u) : SolveVisits P cfg s Q u
  | last {Q : Problem n m} {t w u : State n m} {ending : Ending}
      (ht : run P cfg true s = .ok (t, .stalled))
      (hw : run (P.perturbed cfg.numbers) cfg false (t.record .costsPerturbed) = .ok (w, ending))
      (hu : RunVisits P cfg false { w with stuck := none } Q u) : SolveVisits P cfg s Q u

/-- The state at the top of a pass that is some passes away, with what the loop remembers there. -/
def top? (P : Problem n m) (cfg : Config) (mayStall : Bool) :
    ℕ → Progress → State n m → Option (Progress × State n m)
  | 0, p, s => some (p, s)
  | k + 1, p, s =>
    match s.pass P cfg mayStall p with
    | .ok (t, .next p') => top? P cfg mayStall k p' t
    | _ => none

/-- The same for the loop that a run enters first. -/
def firstTop? (P : Problem n m) (cfg : Config) (mayStall : Bool) (k : ℕ) (s : State n m) :
    Option (Problem n m × State n m) := do
  let t ← (comeToRest P s).toOption
  if t.isDualFeasible P then
    (top? P cfg mayStall k {} t).map fun top => (P, top.2)
  else
    let w ← (comeToRest P.surrogate { t.record .phaseOneStarted with stuck := none }).toOption
    (top? P.surrogate cfg mayStall k {} w).map fun top => (P.surrogate, top.2)

theorem eq_ok_of_toOption {ε α : Type} {x : Except ε α} {a : α} (h : x.toOption = some a) :
    x = .ok a := by
  cases x with
  | error e => cases h
  | ok b =>
    cases h
    rfl

section Tops
variable {P Q : Problem n m} {cfg : Config} {mayStall : Bool} {s t u : State n m} {k : ℕ}

theorem LoopVisits.top {p p' : Progress} (h : LoopVisits P cfg mayStall s p t)
    (hu : top? P cfg mayStall k p t = some (p', u)) : LoopVisits P cfg mayStall s p' u := by
  induction k generalizing p t with
  | zero =>
    cases hu
    exact h
  | succ k ih =>
    rw [top?] at hu
    split at hu
    · next t' p'' hpass => exact ih (h.next hpass) hu
    · cases hu

theorem runVisits_of_firstTop? (h : s.firstTop? P cfg mayStall k = some (Q, u)) :
    RunVisits P cfg mayStall s Q u := by
  obtain ⟨t, ht, h⟩ := Option.bind_eq_some_iff.mp h
  dsimp only at h
  split at h
  · next hd =>
    obtain ⟨⟨p, u⟩, hu, h⟩ := Option.map_eq_some_iff.mp h
    cases h
    exact .main (eq_ok_of_toOption ht) hd (LoopVisits.enter.top hu)
  · next hd =>
    obtain ⟨w, hw, h⟩ := Option.bind_eq_some_iff.mp h
    obtain ⟨⟨p, u⟩, hu, h⟩ := Option.map_eq_some_iff.mp h
    cases h
    exact .phaseOne (eq_ok_of_toOption ht) (Bool.not_eq_true _ ▸ hd) (eq_ok_of_toOption hw)
      (LoopVisits.enter.top hu)

end Tops

section Ready
variable {P Q : Problem n m} {cfg : Config} {mayStall : Bool} {s t u : State n m}

/-- A ready state together with what a pass needs to know about the problem. -/
structure Underway (P : Problem n m) (s : State n m) : Prop where
  simple : P.matrix.Simple
  consistent : ∀ v, (P.bounds.get v).Consistent
  ready : s.Ready P

theorem LoopVisits.underway {p : Progress} (h : LoopVisits P cfg mayStall s p u) (hs : s.Underway P) :
    u.Underway P := by
  induction h with
  | enter => exact hs
  | next _ hu ih =>
    exact ⟨hs.simple, hs.consistent, (ih.ready.of_next hs.simple hs.consistent hu).1.ready⟩

variable (hA : P.matrix.Simple) (hc : ∀ v, (P.bounds.get v).Consistent)
include hA hc

theorem RunVisits.underway (h : RunVisits P cfg mayStall s Q u) (hs : s.Sound P) : u.Underway Q := by
  induction h with
  | main ht hd hu =>
    exact hu.underway ⟨hA, hc, (Entry.main hs ht hd).ready hA⟩
  | phaseOne ht hd hw hu =>
    obtain ⟨t', ht', hset, _⟩ := hs.comeToRest_eq hA.toMirrored
    cases ht'.symm.trans ht
    have hstart : ({ State.record _ .phaseOneStarted with stuck := none } : State n m).Sound P :=
      hset.toSound.of_eq rfl rfl rfl
    exact hu.underway ⟨hA, consistent_surrogate P, (Entry.phaseOne hstart hw).ready hA⟩
  | again ht hd hw h0 hu ih =>
    obtain ⟨t', ht', hset, _⟩ := hs.comeToRest_eq hA.toMirrored
    cases ht'.symm.trans ht
    have hstart : (State.record _ .phaseOneStarted).Sound P := hset.toSound.of_eq rfl rfl rfl
    obtain ⟨w', _, hw', hready, _⟩ := hstart.runSurrogate_eq hA cfg mayStall
    cases hw'.symm.trans hw
    exact ih ((hready.toSound.congr (Q := P) rfl).of_eq rfl rfl rfl)

theorem SolveVisits.underway (h : SolveVisits P cfg s Q u) (hs : s.Sound P) : u.Underway Q := by
  have hper : ∀ {t}, run P cfg true s = .ok (t, .stalled) →
      (t.record .costsPerturbed).Sound (P.perturbed cfg.numbers) := by
    intro t ht
    obtain ⟨t', _, ht', hsound, _⟩ := hs.run_eq hA cfg true hc
    cases ht'.symm.trans ht
    exact (hsound.congr (Q := P.perturbed cfg.numbers) rfl).of_eq rfl rfl rfl
  cases h with
  | first hu => exact hu.underway hA hc (hs.of_eq rfl rfl rfl)
  | perturbed ht hu =>
    exact hu.underway (P := P.perturbed cfg.numbers) hA hc ((hper ht).of_eq rfl rfl rfl)
  | last ht hw hu =>
    obtain ⟨w', _, hw', hsound, _⟩ := (hper ht).run_eq (P := P.perturbed cfg.numbers) hA cfg false hc
    cases hw'.symm.trans hw
    exact hu.underway hA hc ((hsound.congr (Q := P) rfl).of_eq rfl rfl rfl)

end Ready

end State

namespace Solver
variable {S : Solver n m} {Q : Problem n m} {u : State n m}

/-- The state that a solve searches from: the one it starts with, after a guess that proves nothing
with a note about it. -/
inductive SearchesFrom (S : Solver n m) : State n m → Prop
  | plain {state : State n m} (hs : S.seeded.1.startState S.seeded.2.1 = .ok state)
      (hg : S.seeded.1.guess = none) : SearchesFrom S state
  | guessed {state : State n m} {guess : Vector Double m} {event : Event}
      (hs : S.seeded.1.startState S.seeded.2.1 = .ok state) (hg : S.seeded.1.guess = some guess)
      (he : S.problem.checkGuess S.config state guess = some (.error event)) :
      SearchesFrom S (state.record event)

/-- The problem and the state at the top of every pass of a solve. Contradictory bounds are noticed
before anything is searched. -/
def Visits (S : Solver n m) (Q : Problem n m) (u : State n m) : Prop :=
  S.problem.contradictory? = none ∧
    ∃ state, S.SearchesFrom state ∧ state.SolveVisits S.problem S.config Q u

/-- The problem and the state at the top of some pass of the loop that a solve enters first, when it
starts searching without a guess. -/
def firstTop? (S : Solver n m) (k : ℕ) : Option (Problem n m × State n m) :=
  match S.problem.contradictory?, S.seeded.1.guess, S.seeded.1.startState S.seeded.2.1 with
  | none, none, .ok state => State.firstTop? S.problem S.config true k { state with stuck := none }
  | _, _, _ => none

theorem visits_of_firstTop? {k : ℕ} (h : S.firstTop? k = some (Q, u)) : S.Visits Q u := by
  unfold firstTop? at h
  split at h
  · next hc hg hs =>
    exact ⟨hc, _, .plain hs hg, .first (State.runVisits_of_firstTop? h)⟩
  · cases h

theorem SearchesFrom.sound {state : State n m} (h : S.SearchesFrom state) (hS : S.Sound) :
    state.Sound S.problem := by
  obtain ⟨start, hstart, hsound, _⟩ := hS.optimize_eq_search
  rw [(keeps_seeded S).problem_eq] at hsound
  cases h with
  | plain hs _ =>
    cases hstart.symm.trans hs
    exact hsound
  | guessed hs _ _ =>
    cases hstart.symm.trans hs
    exact hsound.of_eq rfl rfl rfl

theorem Visits.underway (h : S.Visits Q u) (hS : S.Sound) : u.Underway Q := by
  obtain ⟨hc, state, hstate, hu⟩ := h
  exact hu.underway hS.simple (Problem.contradictory?_eq_none_iff.mp hc) (hstate.sound hS)

end Solver

end ExactSimplex
