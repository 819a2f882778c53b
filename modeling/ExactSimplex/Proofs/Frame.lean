import ExactSimplex.Proofs.Answers

/-! # A solve leaves the problem alone

Phase one runs on the problem with surrogate bounds, a run that stalls is followed by one on the
problem with perturbed costs, and neither looks at the cut-off. However they end, also when they halt,
the solver has the problem and the parameters that it had before, and what it says about duals and
reduced costs is about the true costs.
-/
namespace ExactSimplex
variable {n m : ℕ}

namespace Solver
variable {S T U : Solver n m}

/-- The second solver has the problem and the parameters of the first. -/
structure Keeps (S T : Solver n m) : Prop where
  problem_eq : T.problem = S.problem
  config_eq : T.config = S.config

theorem Keeps.refl (S : Solver n m) : S.Keeps S := ⟨rfl, rfl⟩

theorem Keeps.trans (h : S.Keeps T) (h' : T.Keeps U) : S.Keeps U :=
  ⟨h'.problem_eq.trans h.problem_eq, h'.config_eq.trans h.config_eq⟩

theorem keeps_setStatuses {structural slack : List Status}
    (h : S.setStatuses structural slack = .ok T) : S.Keeps T := by
  obtain ⟨statuses, hi⟩ := setStatuses_eq h
  obtain ⟨start, rfl⟩ := importBasis_eq hi
  exact ⟨rfl, rfl⟩

theorem keeps_setGuess {ray : List Double} (h : S.setGuess ray = .ok T) : S.Keeps T := by
  obtain ⟨guess, _, h⟩ := exists_of_bind_eq_ok h
  cases h
  exact ⟨rfl, rfl⟩

theorem keeps_follow (S : Solver n m) (suggestion : Suggestion) :
    S.Keeps (S.follow suggestion).1 := by
  obtain ⟨T, hT, hnext⟩ := S.follow_cases suggestion
  have hkeeps : S.Keeps T := by
    rcases hT with rfl | hs
    · exact .refl T
    · exact keeps_setStatuses hs
  rcases hnext with heq | ⟨ray, _, hg⟩
  · rw [heq]
    exact hkeeps
  · exact hkeeps.trans (keeps_setGuess hg)

theorem keeps_consult (S : Solver n m) : S.Keeps S.consult.1 := by
  unfold consult
  split
  · exact .refl S
  · exact .refl S
  · exact ⟨rfl, rfl⟩
  · next suggestion rest _ =>
    have h := keeps_follow { S with provider := some rest } suggestion
    exact ⟨h.problem_eq, h.config_eq⟩

theorem keeps_seeded (S : Solver n m) : S.Keeps S.seeded.1 := by
  have hproof : S.Keeps S.withoutProof := ⟨rfl, rfl⟩
  unfold seeded
  split
  · exact hproof.trans (keeps_consult _)
  · exact hproof

theorem keeps_search (S : Solver n m) (shown : Option (Problem n m)) (state : State n m) :
    S.Keeps (S.search shown state).solver ∧ (S.search shown state).shown = shown := by
  unfold search
  split
  · exact ⟨⟨rfl, rfl⟩, rfl⟩
  · split
    · exact ⟨⟨rfl, rfl⟩, rfl⟩
    · dsimp only
      split <;> exact ⟨⟨rfl, rfl⟩, rfl⟩

theorem keeps_searchWithGuess (S : Solver n m) (shown : Option (Problem n m)) (state : State n m) :
    S.Keeps (S.searchWithGuess shown state).solver ∧
      (S.searchWithGuess shown state).shown = shown := by
  unfold searchWithGuess
  split
  · exact keeps_search S shown state
  · split
    · exact ⟨⟨rfl, rfl⟩, rfl⟩
    · exact keeps_search S shown _
    · split <;> exact ⟨⟨rfl, rfl⟩, rfl⟩

/-- Whatever a solve ends with, it leaves the problem and the parameters as they are. -/
theorem keeps_optimize (S : Solver n m) :
    S.Keeps S.optimize.solver ∧ S.optimize.shown = S.seeded.2.2 := by
  cases hs : S.seeded.1.startState S.seeded.2.1 with
  | ok state =>
    rw [optimize_eq hs]
    obtain ⟨hkeeps, hshown⟩ := keeps_searchWithGuess S.seeded.1 S.seeded.2.2 state
    exact ⟨(keeps_seeded S).trans hkeeps, hshown⟩
  | error failure =>
    rw [optimize_of_error hs]
    exact ⟨keeps_seeded S, rfl⟩

theorem keeps_infeasibilityProof {y : Option (Vec m)} (h : S.infeasibilityProof = .ok (y, T)) :
    S.Keeps T := by
  unfold infeasibilityProof at h
  split at h
  · cases h
    exact .refl S
  · split at h
    · cases h
      exact .refl S
    · split at h
      · cases h
      · cases h
        exact .refl S
      · cases h
        exact ⟨rfl, rfl⟩
  · cases h
    exact .refl S

end Solver

namespace State
variable {P : Problem n m} {t : State n m}

/-- A run ends with the reduced costs of its problem, in phase one as well. -/
theorem Concludes.priced {mayStall : Bool} {v : Verdict} (h : Concludes P mayStall t (.verdict v)) :
    ∃ y, ∀ w, P.reducedCost y w = t.basis.spread t.reduced w := by
  cases v with
  | unbounded =>
    obtain ⟨_, hready, _, _⟩ := h
    obtain ⟨y, hy⟩ := hready.priced
    exact ⟨y, fun w => by rw [← reducedCost_surrogate, hy]⟩
  | optimal => exact h.1.priced
  | infeasible => exact h.1.priced
  | cutOff => exact h.1.priced

end State

namespace Solver
variable {S : Solver n m}

/-- The solver holds a factorized basis with the reduced costs that the problem has there. -/
def Priced (S : Solver n m) : Prop :=
  ∃ t, S.start = .warm t ∧ t.Sound S.problem ∧
    ∃ y, ∀ v, S.problem.reducedCost y v = t.basis.spread t.reduced v

theorem Priced.duals (h : S.Priced) : ∃ y, S.y = some y ∧ ∀ j,
    S.d.get j = S.problem.objective.get j - ∑ i, y.get i * S.problem.matrix.entry i j := by
  obtain ⟨t, hs, hsound, hpriced⟩ := h
  obtain ⟨y, hy, hd⟩ := hsound.duals_priced hpriced
  refine ⟨y, ?_, fun j => (d_eq hs j).trans (hd (.structural j)).symm⟩
  rw [Solver.y, hs]
  exact hy

section Search
variable (hA : S.problem.matrix.Simple) {state : State n m} (hs : state.Sound S.problem)
  (hc : S.problem.contradictory? = none) (shown : Option (Problem n m))
include hA hs hc

theorem search_priced : (S.search shown state).solver.Priced := by
  obtain ⟨t, v, ht, hts, hcon, _⟩ := hs.solve_eq hA S.config (Problem.contradictory?_eq_none_iff.mp hc)
  have hend : ∀ T : Solver n m, T.problem = S.problem →
      (T.report shown (.ok v) (t.record (.finished v))).solver.Priced := by
    intro T hT
    refine ⟨_, rfl, ?_, ?_⟩ <;> rw [report, hT]
    · exact hts.of_eq rfl rfl rfl
    · exact hcon.priced
  unfold search
  rw [hc]
  simp only [ht]
  split
  · exact hend { S with guess := none } rfl
  · exact hend S rfl

theorem searchWithGuess_priced : (S.searchWithGuess shown state).solver.Priced := by
  unfold searchWithGuess
  cases S.guess with
  | none => exact search_priced hA hs hc shown
  | some guess =>
    dsimp only
    rcases Problem.checkGuess_cases hs S.config guess with ⟨e, he, _⟩ | ⟨y, hy, _⟩
    · rw [he]
      have hs' : (state.record e).Sound S.problem := hs.of_eq rfl rfl rfl
      exact search_priced hA hs' hc shown
    · obtain ⟨x, d, hrec, _, _, hpriced⟩ := hs.recompute_eq hA.toMirrored
      simp only [hy, hrec]
      exact ⟨_, rfl, hs.of_eq rfl rfl rfl, hpriced⟩

end Search

theorem Sound.optimize_priced (h : S.Sound) (hc : S.problem.contradictory? = none) :
    S.optimize.solver.Priced := by
  have hint := h.seeded_hinted.1
  obtain ⟨state, _, hs, _, _, heq⟩ := h.optimize_eq_search
  rw [heq]
  apply searchWithGuess_priced hint.sound.simple hs
  rw [hint.problem_eq]
  exact hc

end Solver

/-- Requests about the problem and the parameters, not about the point of a solver. -/
def Request.isQuery : Request → Bool
  | .problem => true
  | .config => true
  | .isCertificate _ => true
  | .constraintBounds _ => true
  | .variableBounds _ => true
  | _ => false

namespace Session
variable {s : Session}

/-- Only edits change the problem and the parameters. -/
theorem perform_keeps (s : Session) {request : Request} (h : ∀ change, request ≠ .edit change) :
    ∃ T, (s.perform request).1 = { s with solver := T } ∧ s.solver.Keeps T := by
  cases request with
  | edit change => exact absurd rfl (h change)
  | optimize => exact ⟨_, rfl, s.solver.keeps_optimize.1⟩
  | proof =>
    rw [perform]
    cases hp : s.solver.infeasibilityProof with
    | ok result => exact ⟨_, rfl, Solver.keeps_infeasibilityProof hp⟩
    | error failure => exact ⟨_, rfl, .refl _⟩
  | snapshot => exact ⟨_, rfl, .refl _⟩
  | problem => exact ⟨_, rfl, .refl _⟩
  | config => exact ⟨_, rfl, .refl _⟩
  | isCertificate y => exact ⟨_, rfl, .refl _⟩
  | constraintBounds row =>
    rw [perform]
    split <;> exact ⟨_, rfl, .refl _⟩
  | variableBounds column =>
    rw [perform]
    split <;> exact ⟨_, rfl, .refl _⟩

end Session

end ExactSimplex
