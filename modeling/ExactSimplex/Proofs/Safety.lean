import ExactSimplex.Proofs.Search.Safety
import ExactSimplex.Proofs.Session

/-! # A solve never fails

Whatever a session has been through, its solve ends with a verdict. On the way no factorization and no
update is refused, no divisor is zero, and everything that the steps take for granted holds. Indices
need no check, because their types bound them.
-/
namespace ExactSimplex
variable {n m : ℕ}

theorem NumberRange.ofCount?_ne_zero {range : NumberRange} {count : ℕ} {k : ℚ} (hpos : 0 < count)
    (h : range.ofCount? count = some k) : k ≠ 0 := by
  have hk : k = count := by
    cases range with
    | unbounded =>
      cases h
      rfl
    | word =>
      rw [ofCount?] at h
      split at h
      · cases h
        rfl
      · cases h
  rw [hk]
  exact Nat.cast_ne_zero.mpr hpos.ne'

theorem Problem.isRefusal_of_checkGuess {P : Problem n m} {cfg : Config} {s : State n m}
    {guess : Vector Double m} {e : Event} (h : P.checkGuess cfg s guess = some (.error e)) :
    e.isRefusal = false := by
  rcases checkGuess_error h with rfl | rfl | rfl | rfl <;> rfl

namespace Solver
variable {S : Solver n m}

theorem refusals_follow (S : Solver n m) (suggestion : Suggestion) :
    refusals (S.follow suggestion).2 = [] := by
  unfold follow
  cases S.setStatuses suggestion.structural suggestion.slack with
  | ok T =>
    cases suggestion.ray with
    | none => rfl
    | some ray =>
      dsimp only
      cases T.setGuess ray <;> rfl
  | error cause =>
    cases suggestion.ray with
    | none => rfl
    | some ray =>
      dsimp only
      cases S.setGuess ray <;> rfl

theorem refusals_seeded (S : Solver n m) : refusals S.seeded.2.1 = [] := by
  have hconsult : refusals S.withoutProof.consult.2.1 = [] := by
    unfold consult
    split
    · rfl
    · rfl
    · rfl
    · exact refusals_follow _ _
  unfold seeded
  split
  · exact hconsult
  · rfl

theorem refusals_of_startState {log : Array Event} {state : State n m}
    (h : S.startState log = .ok state) : refusals state.log = refusals log := by
  unfold startState at h
  split at h
  · exact State.logged_of_ofPoint (fun _ _ => rfl) h
  · cases h
    rfl
  · split at h
    · next hs =>
      cases h
      exact State.logged_of_ofPoint (fun _ _ => rfl) hs
    · exact (State.logged_of_ofPoint (fun _ _ => rfl) h).trans (logged_push log rfl)
    · cases h

section Search
variable (hA : S.problem.matrix.Simple) {state : State n m} (hs : state.Sound S.problem)
  (shown : Option (Problem n m))
include hA hs

theorem refusals_of_search : refusals (S.search shown state).events = refusals state.log := by
  unfold search
  cases hc : S.problem.contradictory? with
  | some v => exact (logged_push _ rfl).trans (logged_push _ rfl)
  | none =>
    have hcons := Problem.contradictory?_eq_none_iff.mp hc
    obtain ⟨t, v, ht, _⟩ := hs.solve_eq hA S.config hcons
    simp only [ht]
    exact (logged_push _ rfl).trans (hs.refusals_of_solve hA hcons ht)

theorem refusals_of_searchWithGuess :
    refusals (S.searchWithGuess shown state).events = refusals state.log := by
  unfold searchWithGuess
  cases S.guess with
  | none => exact refusals_of_search hA hs shown
  | some guess =>
    dsimp only
    split
    · rfl
    · next e he =>
      have hs' : (state.record e).Sound S.problem := hs.of_eq rfl rfl rfl
      exact (refusals_of_search hA hs' shown).trans
        (logged_push _ (Problem.isRefusal_of_checkGuess he))
    · split
      · rfl
      · next next hnext =>
        rw [← State.log_of_recompute hnext]
        exact logged_push _ rfl

end Search

theorem Sound.refusals_optimize (h : S.Sound) : refusals S.optimize.events = [] := by
  obtain ⟨state, hstate, hs, _, _, heq⟩ := h.optimize_eq_search
  have hint := h.seeded_hinted.1
  rw [heq, refusals_of_searchWithGuess hint.sound.simple hs, refusals_of_startState hstate,
    refusals_seeded]

/-- A solve has a verdict and no update is refused. Every elimination of columns of the problem meets what its
pivots rely on, and so do the state in which the search starts and the states that its loops pass through, in
either phase and with true or perturbed costs. No cost is perturbed by a fraction with denominator zero. -/
structure SolvesSafely (S : Solver n m) : Prop where
  verdict : ∃ v, S.optimize.outcome = .ok v
  refusals_eq : refusals S.optimize.events = []
  eliminations : ∀ (basic : Vector (Var n m) m) limit e,
    Elimination.Visited (basic.map S.problem.column) limit e → e.Checks limit
  start : ∃ t, S.seeded.1.startState S.seeded.2.1 = .ok t ∧ t.Checks
  costs : ∀ j k, S.config.numbers.ofCount? (10000 + n + j) = some k → k ≠ 0
  passes : S.problem.contradictory? = none →
    ∀ P ∈ [S.problem, S.problem.perturbed S.config.numbers],
      ∀ Q mayStall length progress states, State.Entry P Q (states 0) →
        State.Trace Q S.config mayStall length progress states →
        ∀ k ≤ length, (states k).Checks ∧ (states k).PivotsSafely Q S.config

end Solver

namespace Session
variable {s : Session}

/-- A solve has a verdict after every history, and on the way it finds what it relies on. -/
theorem Reachable.solvesSafely (h : s.Reachable) : s.solver.SolvesSafely := by
  have hsound : s.solver.Sound := h.sound
  obtain ⟨v, hsolved⟩ := hsound.optimize_solved
  obtain ⟨t, ht, hts, _⟩ := hsound.optimize_eq_search
  refine ⟨⟨v, hsolved.outcome_eq⟩, hsound.refusals_optimize, fun basic limit e he => ?_,
    ⟨t, ht, hts.checks⟩, fun j k hk => NumberRange.ofCount?_ne_zero (by omega) hk,
    fun hn P hP Q mayStall length progress states hentry ht k hk => ?_⟩
  · refine (he.valid fun r => ?_).checks limit
    rw [get_map]
    exact s.solver.problem.column_ne_zero hsound.simple.toMirrored _
  · have hcons : ∀ v, (P.bounds.get v).Consistent := by
      rcases List.mem_pair.mp hP with rfl | rfl <;> exact Problem.contradictory?_eq_none_iff.mp hn
    have hsimple : P.matrix.Simple := by
      rcases List.mem_pair.mp hP with rfl | rfl <;> exact hsound.simple
    exact hentry.checks hsimple hcons ht hk

end Session

end ExactSimplex
