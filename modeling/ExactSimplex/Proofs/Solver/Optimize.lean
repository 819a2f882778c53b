import ExactSimplex.Solver.Optimize
import ExactSimplex.Proofs.Solver.Edit

/-! # A solve of a sound solver

Whatever the starting point, a solve finds a sound state to start from, checks the guess, and
searches. It always ends with a verdict, leaves the problem as it is and the solver sound.
-/
namespace ExactSimplex
variable {n m : ℕ}

namespace Problem

theorem basisMatrix_slack (P : Problem n m) : P.basisMatrix (Basis.slack n m) = 1 := by
  ext i r
  rw [basisMatrix, Matrix.of_apply, Matrix.one_apply, Basis.slack, get_ofFn, entry]
  simp only [eq_comm]

theorem sum_inverseRow_slack (P : Problem n m) (i : Fin m) :
    ∑ k, P.inverseRow (Basis.slack n m) i k * P.inverseRow (Basis.slack n m) i k = 1 := by
  simp [inverseRow, basisMatrix_slack, Matrix.one_apply]

end Problem

namespace State
variable {P : Problem n m} {mayStall : Bool} {s t : State n m} {v : Verdict}

theorem Concludes.of_eq (h : Concludes P mayStall s (.verdict v)) (hv : v ≠ .infeasible)
    (hp : t.toPoint = s.toPoint) (hf : t.factors = s.factors) (hw : t.weights = s.weights)
    (hs : t.stuck = s.stuck) : Concludes P mayStall t (.verdict v) := by
  cases v with
  | unbounded =>
    obtain ⟨hn, hr, ⟨_, hb, ho⟩, h0⟩ := h
    refine ⟨hs.trans hn, hr.of_eq hp hf hw, ⟨hs.trans hn, ?_, ?_⟩, ?_⟩ <;> rw [hp] <;> assumption
  | optimal =>
    obtain ⟨hr, hn, hb, ho⟩ := h
    refine ⟨hr.of_eq hp hf hw, hs.trans hn, ?_, ?_⟩ <;> rw [hp] <;> assumption
  | infeasible => exact absurd rfl hv
  | cutOff =>
    obtain ⟨hr, hn, bound, hb, ho⟩ := h
    refine ⟨hr.of_eq hp hf hw, hs.trans hn, bound, hb, ?_⟩
    rw [hp]
    exact ho

theorem Concludes.stuck_eq (h : Concludes P mayStall t (.verdict v)) (hv : v ≠ .infeasible) :
    t.stuck = none := by
  cases v with
  | unbounded => exact h.1
  | optimal => exact h.2.1
  | infeasible => exact absurd rfl hv
  | cutOff => exact h.2.1

theorem Concludes.stuckRay_eq (h : Concludes P mayStall t (.verdict v))
    (hc : ∀ v, (P.bounds.get v).Consistent) {w : Var n m} (hw : t.stuck = some w) :
    ∃ y, Solver.stuckRay P t w = some (some y) ∧ P.isCertificate y = true := by
  by_cases hv : v = .infeasible
  · subst hv
    obtain ⟨hr, u, hu, hs⟩ := h
    cases hu.symm.trans hw
    exact hs.stuckRay_eq hr.toSettled hc
  · rw [h.stuck_eq hv] at hw
    cases hw

end State

namespace Solver
variable {S : Solver n m}

theorem d_eq_spread (S : Solver n m) : S.d =
    Vector.ofFn fun j => S.start.point.basis.spread S.start.point.reduced (.structural j) := by
  refine table_ext fun j => ?_
  have hplace : S.start.point.basis.place.structural.get j = S.start.point.basis.place.get (.structural j) := rfl
  rw [d, get_ofFn, get_ofFn, Basis.spread]
  simp only [hplace]
  cases S.start.point.basis.place.get (.structural j) <;> rfl

theorem slackState_eq (hA : S.problem.matrix.Simple) (log : Array Event) :
    ∃ s, S.slackState log = .ok s ∧ s.Sound S.problem ∧ s.stuck = none ∧
      milestones s.log = milestones log := by
  have hw : ∀ w, some (Vector.replicate m (1 : ℚ)) = some w → ∀ i, w.get i =
      ∑ k, S.problem.inverseRow (Point.origin n m).basis i k *
        S.problem.inverseRow (Point.origin n m).basis i k := by
    intro w hw i
    cases hw
    rw [get_replicate]
    exact (S.problem.sum_inverseRow_slack i).symm
  rcases State.ofPoint_cases hA (Basis.valid_slack : (Point.origin n m).basis.Valid) hw
    S.config.searchLimit 0 none log with ⟨s, hs, hsound, _, hstuck, hlog⟩ | ⟨hn, _⟩
  · exact ⟨s, hs, hsound, hstuck, hlog⟩
  · refine absurd ?_ hn
    change IsUnit (S.problem.basisMatrix (Basis.slack n m))
    rw [S.problem.basisMatrix_slack]
    exact isUnit_one

/-- A solve always finds a state to start from. -/
theorem Sound.startState_eq (h : S.Sound) (log : Array Event) :
    ∃ s, S.startState log = .ok s ∧ s.Sound S.problem ∧ s.stuck = none ∧
      milestones s.log = milestones log := by
  have hstart := h.start
  unfold startState
  cases hs : S.start with
  | cold => exact slackState_eq h.simple log
  | warm state =>
    rw [hs] at hstart
    exact ⟨_, rfl, State.Sound.of_eq hstart rfl rfl rfl, rfl, rfl⟩
  | imported point =>
    rw [hs] at hstart
    have hw : ∀ w, (none : Option (Vec m)) = some w → ∀ i, w.get i =
        ∑ k, S.problem.inverseRow point.basis i k * S.problem.inverseRow point.basis i k :=
      fun w hw => by cases hw
    rcases State.ofPoint_cases h.simple hstart hw S.config.searchLimit 0 none log with
      ⟨s, ho, hsound, _, hstuck, hlog⟩ | ⟨_, k, ho⟩
    · exact ⟨s, by simp only [ho], hsound, hstuck, hlog⟩
    · obtain ⟨s, hsl, hsound, hstuck, hlog⟩ := slackState_eq h.simple
        (log.push (.unusableBasis (.singularBasis k)))
      exact ⟨s, by simp only [ho]; exact hsl, hsound, hstuck, hlog.trans (logged_push log rfl)⟩

/-- A solver that has been told about a starting point or a guess. -/
structure Hinted (S T : Solver n m) : Prop where
  problem_eq : T.problem = S.problem
  proof_eq : T.proof = none
  sound : T.Sound

theorem Hinted.setGuess {T U : Solver n m} (h : Hinted S T) {ray : List Double}
    (hU : T.setGuess ray = .ok U) : Hinted S U := by
  have hsound := h.sound.setGuess hU
  obtain ⟨guess, _, hU⟩ := exists_of_bind_eq_ok hU
  cases hU
  exact ⟨h.problem_eq, h.proof_eq, hsound⟩

/-- A suggestion is followed as far as it can be: its basis is imported or ignored, and then its ray is
taken for a guess or ignored. -/
theorem follow_cases (S : Solver n m) (suggestion : Suggestion) :
    ∃ T, (T = S ∨ S.setStatuses suggestion.structural suggestion.slack = .ok T) ∧
      ((S.follow suggestion).1 = T ∨
        ∃ ray, suggestion.ray = some ray ∧ T.setGuess ray = .ok (S.follow suggestion).1) := by
  unfold follow
  cases hs : S.setStatuses suggestion.structural suggestion.slack with
  | error cause =>
    refine ⟨S, Or.inl rfl, ?_⟩
    cases suggestion.ray with
    | none => exact Or.inl rfl
    | some ray =>
      dsimp only
      cases hg : S.setGuess ray with
      | error cause => exact Or.inl rfl
      | ok U => exact Or.inr ⟨ray, rfl, hg⟩
  | ok T =>
    refine ⟨T, Or.inr rfl, ?_⟩
    cases suggestion.ray with
    | none => exact Or.inl rfl
    | some ray =>
      dsimp only
      cases hg : T.setGuess ray with
      | error cause => exact Or.inl rfl
      | ok U => exact Or.inr ⟨ray, rfl, hg⟩

theorem follow_hinted (h : S.Sound) (hp : S.proof = none) (suggestion : Suggestion) :
    Hinted S (S.follow suggestion).1 ∧ milestones (S.follow suggestion).2 = [] := by
  unfold follow
  cases hs : S.setStatuses suggestion.structural suggestion.slack with
  | error cause =>
    have hint : Hinted S S := ⟨rfl, hp, h⟩
    cases suggestion.ray with
    | none => exact ⟨hint, rfl⟩
    | some ray =>
      dsimp only
      cases hg : S.setGuess ray with
      | error cause => exact ⟨hint, rfl⟩
      | ok U => exact ⟨hint.setGuess hg, rfl⟩
  | ok T =>
    obtain ⟨statuses, hi⟩ := setStatuses_eq hs
    obtain ⟨start, hT⟩ := importBasis_eq hi
    have hint : Hinted S T := ⟨by rw [hT], by rw [hT], h.setStatuses hs⟩
    cases suggestion.ray with
    | none => exact ⟨hint, rfl⟩
    | some ray =>
      dsimp only
      cases hg : T.setGuess ray with
      | error cause => exact ⟨hint, rfl⟩
      | ok U => exact ⟨hint.setGuess hg, rfl⟩

theorem consult_hinted (h : S.Sound) (hp : S.proof = none) :
    Hinted S S.consult.1 ∧ milestones S.consult.2.1 = [] := by
  unfold consult
  split
  · exact ⟨⟨rfl, hp, h⟩, rfl⟩
  · exact ⟨⟨rfl, hp, h⟩, rfl⟩
  · exact ⟨⟨rfl, hp, h.withHints S.guess _⟩, rfl⟩
  · next suggestion rest _ =>
    obtain ⟨hint, hev⟩ := follow_hinted (S := { S with provider := some rest })
      (h.withHints S.guess (some rest)) hp suggestion
    exact ⟨⟨hint.problem_eq, hint.proof_eq, hint.sound⟩, hev⟩

/-- What a solve of a problem reports with a verdict. -/
structure Solved (P : Problem n m) (r : Report n m) (v : Verdict) : Prop where
  outcome_eq : r.outcome = .ok v
  problem_eq : r.solver.problem = P
  sound : r.solver.Sound
  milestones : State.SolveMilestones (milestones r.events)
  answer : v ≠ .infeasible → P.contradictory? = none ∧ r.solver.proof = none ∧
    ∃ t, r.solver.start = .warm t ∧ t.stuck = none ∧ State.Concludes P true t (.verdict v)
  refuted : v = .infeasible → r.solver.proof ≠ none ∨
    ∃ t w, r.solver.start = .warm t ∧ t.stuck = some w

theorem report_sound (h : S.Sound) {state : State n m} (hs : state.Sound S.problem)
    (hstuck : ∀ v, state.stuck = some v → ∃ y, stuckRay S.problem state v = some (some y) ∧
      S.problem.isCertificate y = true) (shown : Option (Problem n m)) (outcome : Except Failure Verdict) :
    (S.report shown outcome state).solver.Sound where
  simple := h.simple
  start := State.Sound.of_eq hs rfl rfl rfl
  proof := h.proof
  stuck t v ht hv := by
    cases ht
    exact hstuck v hv

theorem refuted_solved (h : S.Sound) (hp : S.proof ≠ none) {state : State n m}
    (hs : state.Sound S.problem) (hstuck : state.stuck = none)
    (hm : State.SolveMilestones (milestones state.log)) (shown : Option (Problem n m)) :
    Solved S.problem (S.report shown (.ok .infeasible) state) .infeasible where
  outcome_eq := rfl
  problem_eq := rfl
  sound := report_sound h hs (fun w hw => by rw [hstuck] at hw; cases hw) shown _
  milestones := hm
  answer hne := absurd rfl hne
  refuted _ := Or.inl hp

section Search
variable (h : S.Sound) (hp : S.proof = none) {state : State n m} (hs : state.Sound S.problem)
  (hstuck : state.stuck = none) (hlog : milestones state.log = []) (shown : Option (Problem n m))
include h hp hs hstuck hlog

theorem search_solved : ∃ v, Solved S.problem (S.search shown state) v := by
  unfold search
  cases hc : S.problem.contradictory? with
  | some v =>
    have hv := List.find?_some (p := fun v => (S.problem.bounds.get v).isContradictory) hc
    have hS : ({ S with proof := some (Vec.zero m) } : Solver n m).Sound :=
      ⟨h.simple, h.start, fun y hy => by cases hy; exact Or.inr ⟨rfl, v, hv⟩, h.stuck⟩
    have hs' : ((state.record (.contradictoryBounds v.index)).record (.finished .infeasible)).Sound
        S.problem := hs.of_eq rfl rfl rfl
    exact ⟨.infeasible, refuted_solved hS (Option.some_ne_none _) hs' hstuck
      (Or.inl (Or.inl ((logged_push _ rfl).trans ((logged_push _ rfl).trans hlog)))) shown⟩
  | none =>
    have hcons := Problem.contradictory?_eq_none_iff.mp hc
    obtain ⟨t, v, ht, hts, hcon, es, hes, hm⟩ := hs.solve_eq h.simple S.config hcons
    rw [hlog, List.nil_append] at hm
    have hmile : State.SolveMilestones (milestones (t.record (.finished v)).log) := by
      have hfin : milestones (t.record (.finished v)).log = milestones t.log := logged_push _ rfl
      rw [hfin, hm]
      exact hes
    have hend : ∀ T : Solver n m, T.problem = S.problem → T.proof = none → T.Sound →
        Solved S.problem (T.report shown (.ok v) (t.record (.finished v))) v := by
      intro T hT hproof hsound
      have hstart : (t.record (.finished v)).Sound T.problem := by
        rw [hT]
        exact hts.of_eq rfl rfl rfl
      refine ⟨rfl, hT, report_sound hsound hstart (fun w hw => ?_) shown _, hmile, fun hne => ?_,
        fun hv => ?_⟩
      · rw [hT]
        exact hcon.stuckRay_eq hcons hw
      · exact ⟨hc, hproof, _, rfl, hcon.stuck_eq hne, hcon.of_eq hne rfl rfl rfl rfl⟩
      · subst hv
        obtain ⟨_, w, hw, _⟩ := hcon
        exact Or.inr ⟨_, w, rfl, hw⟩
    simp only [ht]
    refine ⟨v, ?_⟩
    split
    · exact hend { S with guess := none } rfl hp (h.withHints none S.provider)
    · exact hend S rfl hp h

theorem searchWithGuess_solved : ∃ v, Solved S.problem (S.searchWithGuess shown state) v := by
  unfold searchWithGuess
  cases S.guess with
  | none => exact search_solved h hp hs hstuck hlog shown
  | some guess =>
    dsimp only
    rcases Problem.checkGuess_cases hs S.config guess with ⟨e, he, hmile⟩ | ⟨y, hy, hcert⟩
    · rw [he]
      have hs' : (state.record e).Sound S.problem := hs.of_eq rfl rfl rfl
      exact search_solved h hp hs' hstuck ((logged_push _ hmile).trans hlog) shown
    · obtain ⟨x, d, hrec, _⟩ := hs.recompute_eq h.simple.toMirrored
      have hS : ({ S with proof := some y, guess := some guess } : Solver n m).Sound :=
        ⟨h.simple, h.start, fun z hz => by cases hz; exact Or.inl hcert, h.stuck⟩
      have hs' : (({ state with values := x, reduced := d } : State n m).record .guessVerified).Sound
          S.problem := hs.of_eq rfl rfl rfl
      simp only [hy, hrec]
      exact ⟨.infeasible, refuted_solved hS (Option.some_ne_none _) hs' hstuck
        (Or.inl (Or.inl ((logged_push _ rfl).trans hlog))) shown⟩

end Search

/-- The solver that a solve gets its starting state from, what was noted when it was set up, and the
problem that was shown for it: without a basis the provider is asked for one. -/
def seeded (S : Solver n m) : Solver n m × Array Event × Option (Problem n m) :=
  match S.withoutProof.start with
  | .cold => S.withoutProof.consult
  | _ => (S.withoutProof, #[], none)

theorem optimize_eq {state : State n m} (hs : S.seeded.1.startState S.seeded.2.1 = .ok state) :
    S.optimize = S.seeded.1.searchWithGuess S.seeded.2.2 state := by
  unfold optimize
  dsimp only
  split
  · next failure he => cases he.symm.trans hs
  · next found he =>
    cases he.symm.trans hs
    rfl

theorem optimize_of_error {failure : Failure}
    (hs : S.seeded.1.startState S.seeded.2.1 = .error failure) :
    S.optimize = ⟨.error failure, S.seeded.1, S.seeded.2.1, S.seeded.2.2⟩ := by
  unfold optimize
  dsimp only
  split
  · next cause hc =>
    cases hc.symm.trans hs
    rfl
  · next state hc => cases hc.symm.trans hs

theorem Sound.seeded_hinted (h : S.Sound) :
    Hinted S S.seeded.1 ∧ milestones S.seeded.2.1 = [] := by
  unfold seeded
  split
  · obtain ⟨hint, hev⟩ := consult_hinted h.withoutProof rfl
    exact ⟨⟨hint.problem_eq, hint.proof_eq, hint.sound⟩, hev⟩
  · exact ⟨⟨rfl, rfl, h.withoutProof⟩, rfl⟩

/-- A solve always finds a sound state to search from. -/
theorem Sound.optimize_eq_search (h : S.Sound) : ∃ state,
    S.seeded.1.startState S.seeded.2.1 = .ok state ∧ state.Sound S.seeded.1.problem ∧
      state.stuck = none ∧ milestones state.log = [] ∧
      S.optimize = S.seeded.1.searchWithGuess S.seeded.2.2 state := by
  obtain ⟨hint, hev⟩ := h.seeded_hinted
  obtain ⟨state, hstate, hs, hstuck, hlog⟩ := hint.sound.startState_eq S.seeded.2.1
  exact ⟨state, hstate, hs, hstuck, hlog.trans hev, optimize_eq hstate⟩

/-- A solve always has a verdict, and leaves the problem as it is. -/
theorem Sound.optimize_solved (h : S.Sound) : ∃ v, Solved S.problem S.optimize v := by
  have hint := h.seeded_hinted.1
  obtain ⟨state, _, hs, hstuck, hlog, heq⟩ := h.optimize_eq_search
  rw [heq, ← hint.problem_eq]
  exact searchWithGuess_solved hint.sound hint.proof_eq hs hstuck hlog _

end Solver

end ExactSimplex
