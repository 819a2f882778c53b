import ExactSimplex.Proofs.FixedPoint
import ExactSimplex.Proofs.Visits

/-! # Changes of bounds keep the warm start

Bounds and sides do not enter the reduced costs. At an optimum every nonzero reduced cost pushes towards a
finite end, and as long as this end stays finite, wherever it goes, coming to rest puts the variable there:
from a value that has become stale, from the wrong end of a box, and also when the variable was fixed before.
So the next solve is dual feasible on the optimal basis before it has made a pivot, and needs no phase one.
-/
namespace ExactSimplex
variable {n m : ℕ}

namespace Bounds
variable {b c : Bounds} {d : ℚ}

/-- No end that is finite in the first interval is missing in the second. -/
def StaysFinite (b c : Bounds) : Prop :=
  (b.lower ≠ none → c.lower ≠ none) ∧ (b.upper ≠ none → c.upper ≠ none)

instance (b c : Bounds) : Decidable (b.StaysFinite c) := inferInstanceAs (Decidable (_ ∧ _))

theorem staysFinite_slack : b.slack.StaysFinite c.slack ↔ b.StaysFinite c := by
  rcases b with ⟨_ | l, _ | u⟩ <;> rcases c with ⟨_ | l', _ | u'⟩ <;>
    simp [slack, Bound.negated, StaysFinite]

theorem Attracts.of_staysFinite (h : b.Attracts d) (hc : b.StaysFinite c) : c.Attracts d :=
  ⟨fun hd => hc.1 (h.1 hd), fun hd => hc.2 (h.2 hd)⟩

end Bounds

namespace Problem
variable {P Q : Problem n m}

/-- No bound and no side that is finite in the first problem is missing in the second. -/
def StaysFinite (P Q : Problem n m) : Prop :=
  (∀ j, (P.bounds.structural.get j).StaysFinite (Q.bounds.structural.get j)) ∧
    ∀ i, (P.sides i).StaysFinite (Q.sides i)

instance (P Q : Problem n m) : Decidable (P.StaysFinite Q) := inferInstanceAs (Decidable (_ ∧ _))

theorem StaysFinite.get (h : P.StaysFinite Q) (v : Var n m) :
    (P.bounds.get v).StaysFinite (Q.bounds.get v) := by
  cases v with
  | structural j => exact h.1 j
  | slack i => exact Bounds.staysFinite_slack.mp (h.2 i)

theorem reducedCost_congr (hm : Q.matrix = P.matrix) (ho : Q.objective = P.objective) (y : Fin m → ℚ)
    (v : Var n m) : Q.reducedCost y v = P.reducedCost y v := by
  have hcost : Q.cost v = P.cost v := by
    cases v with
    | structural j => rw [cost, cost, ho]
    | slack i => rfl
  rw [reducedCost, reducedCost, combination, combination, hcost]
  simp only [entry_congr hm]

end Problem

namespace State
variable {P Q : Problem n m} {s t : State n m}

/-- With other bounds, of which none is missing that was finite, a ready state comes to rest in a ready one. -/
theorem Ready.comeToRest_rebounded (h : s.Ready P) (ht : t.Sound Q) (hA : Q.matrix.Mirrored)
    (hb : t.basis = s.basis) (hm : Q.matrix = P.matrix) (ho : Q.objective = P.objective)
    (hfinite : P.StaysFinite Q) :
    ∃ u, comeToRest Q t = .ok u ∧ u.Ready Q ∧ u.basis = t.basis ∧ u.stuck = t.stuck ∧
      milestones u.log = milestones t.log := by
  refine h.toSettled.computed.comeToRest_ready ht hA hb (Problem.reducedCost_congr hm ho) fun v => ?_
  exact (h.supports v).attracts.of_staysFinite (hfinite.get v)

/-- A run that comes to rest in a dual feasible state goes on to its loop. -/
theorem run_of_dualFeasible {cfg : Config} {mayStall : Bool} {rest : State n m}
    (hrest : comeToRest P { s with stuck := none } = .ok rest) (hd : rest.isDualFeasible P = true) :
    run P cfg mayStall s = rest.iterate P cfg mayStall (cfg.passAllowance n m) {} := by
  rw [run, runPhases, hrest]
  simp only [bind, Except.bind, hd, if_true]

end State

namespace Solver
variable {S T U : Solver n m}

/-- The second solver is the first one after changes of bounds and sides. -/
structure Rebounded (S T : Solver n m) : Prop where
  matrix_eq : T.problem.matrix = S.problem.matrix
  objective_eq : T.problem.objective = S.problem.objective
  unstuck_eq : T.start.unstuck = S.start.unstuck
  guess_eq : T.guess = S.guess

theorem Rebounded.refl (S : Solver n m) : S.Rebounded S := ⟨rfl, rfl, rfl, rfl⟩

theorem Rebounded.trans (h : S.Rebounded T) (h' : T.Rebounded U) : S.Rebounded U :=
  ⟨h'.matrix_eq.trans h.matrix_eq, h'.objective_eq.trans h.objective_eq,
    h'.unstuck_eq.trans h.unstuck_eq, h'.guess_eq.trans h.guess_eq⟩

theorem rebounded_setBounds (S : Solver n m) (v : Var n m) (b : Bounds) :
    S.Rebounded (S.setBounds v b) := by
  refine ⟨rfl, rfl, ?_, rfl⟩
  change S.start.unstuck.unstuck = S.start.unstuck
  cases S.start <;> rfl

theorem guess_of_search {state : State n m} {shown : Option (Problem n m)}
    (h : (S.search shown state).outcome = .ok .optimal) : (S.search shown state).solver.guess = none := by
  unfold search at h ⊢
  split at h
  · cases h
  · split at h
    · cases h
    · cases h
      rfl

/-- A guess is used up by a solve that finds an optimum. -/
theorem guess_of_optimal (h : S.Sound) (ho : S.optimize.outcome = .ok .optimal) :
    S.optimize.solver.guess = none := by
  obtain ⟨state, _, _, _, _, heq⟩ := h.optimize_eq_search
  rw [heq] at ho ⊢
  unfold searchWithGuess at ho ⊢
  split at ho
  · exact guess_of_search ho
  · split at ho
    · cases ho
    · exact guess_of_search ho
    · split at ho <;> cases ho

/-- A solve searches from this starting state, which has the given basis. Its first run comes to rest
there, finds the state dual feasible, and goes on to its loop. No phase one is noted, unless the costs have been
perturbed after a stall. -/
structure StartsWarm (T : Solver n m) (b : Basis n m) (start rest : State n m) : Prop where
  searchesFrom_iff : ∀ state, T.SearchesFrom state ↔ state = start
  start_basis : start.basis = b
  comeToRest_eq : State.comeToRest T.problem { start with stuck := none } = .ok rest
  rest_basis : rest.basis = b
  dualFeasible : rest.isDualFeasible T.problem = true
  run_eq : State.run T.problem T.config true start =
    rest.iterate T.problem T.config true (T.config.passAllowance n m) {}
  milestones : (milestones T.optimize.events).head? ≠ some .phaseOneStarted

theorem Rebounded.startsWarm (h : S.Rebounded T) (hT : T.Sound) {optimum : State n m}
    (hs : S.start = .warm optimum) (hready : optimum.Ready S.problem) (hg : S.guess = none)
    (hfinite : S.problem.StaysFinite T.problem) (hc : T.problem.contradictory? = none) :
    ∃ start rest, T.StartsWarm optimum.basis start rest := by
  let start : State n m := { optimum with stuck := none, log := #[] }
  have hwarm : T.withoutProof.start = .warm { optimum with stuck := none } := by
    have hunstuck := h.unstuck_eq
    rw [hs] at hunstuck
    exact hunstuck
  have hstate : T.withoutProof.startState #[] = .ok start := by rw [startState, hwarm]
  have hseeded : T.seeded = (T.withoutProof, #[], none) := by rw [seeded, hwarm]
  have hguess : T.withoutProof.guess = none := h.guess_eq.trans hg
  have hsearches : ∀ state, T.SearchesFrom state ↔ state = start := by
    intro state
    constructor
    · intro hstart
      cases hstart with
      | plain hfound _ =>
        rw [hseeded] at hfound
        exact Except.ok.inj (hfound.symm.trans hstate)
      | guessed _ hsome _ =>
        rw [hseeded] at hsome
        cases hsome.symm.trans hguess
    · rintro rfl
      exact .plain (by rw [hseeded]; exact hstate) (by rw [hseeded]; exact hguess)
  have hsound : start.Sound T.problem := ((hsearches start).mpr rfl).sound hT
  have hcons := Problem.contradictory?_eq_none_iff.mp hc
  obtain ⟨rest, hrest, hrestready, hbasis, hstuck, hlog⟩ := hready.comeToRest_rebounded hsound
    hT.simple.toMirrored rfl h.matrix_eq h.objective_eq hfinite
  have hfeasible := (State.isDualFeasible_iff hrestready.toSettled).mpr hrestready
  have hrun : State.run T.problem T.config true start =
      rest.iterate T.problem T.config true (T.config.passAllowance n m) {} :=
    State.run_of_dualFeasible hrest hfeasible
  refine ⟨start, rest, hsearches, rfl, hrest, hbasis, hfeasible, hrun, ?_⟩
  -- all milestones come from what follows the first run
  obtain ⟨t, ending, ht, htsound, hcon, htlog⟩ :=
    hrestready.iterate_concludes hT.simple T.config true hcons hstuck
  obtain ⟨u, v, hu, _, _, es, hes, hulog⟩ :=
    State.solve_of_run hT.simple T.config hcons (hrun.trans ht) htsound hcon
  have hevents : milestones T.optimize.events = es := by
    have hfinished : milestones (u.record (.finished v)).log = milestones u.log := logged_push _ rfl
    have hnothing : milestones u.log = es := by
      rw [hulog, htlog, hlog]
      rfl
    rw [optimize_of_start hwarm (fun hcold => by cases hcold) hstate, searchWithGuess, hguess, ← hnothing,
      ← hfinished]
    change milestones (search T.withoutProof none start).events = _
    unfold search
    have hcrossed : T.withoutProof.problem.contradictory? = none := hc
    have hsolve : start.solve T.withoutProof.problem T.withoutProof.config = .ok (u, v) := hu
    simp only [hcrossed, hsolve]
    rfl
  rw [hevents]
  rcases hes with rfl | ⟨_, _, _, _, rfl⟩ <;> simp

end Solver

namespace Session
variable {s t : Session}

theorem rebounded_of_apply {change : Edit} (hb : change.changesBounds = true)
    (ht : s.apply change = .ok t) : ∃ T, t = { s with solver := T } ∧ s.solver.Rebounded T := by
  rcases edited_of_apply ht with ⟨v, b, rfl⟩ | ⟨hnot, -⟩
  · exact ⟨_, rfl, s.solver.rebounded_setBounds v b⟩
  · rw [hb] at hnot
    cases hnot

theorem rebounded_of_after (s : Session) {changes : List Edit}
    (hb : ∀ change ∈ changes, change.changesBounds = true) :
    ∃ T, s.after (changes.map .edit) = { s with solver := T } ∧ s.solver.Rebounded T := by
  induction changes generalizing s with
  | nil => exact ⟨s.solver, rfl, .refl _⟩
  | cons change changes ih =>
    have hrest := fun e he => hb e (List.mem_cons_of_mem change he)
    cases hc : s.apply change with
    | error cause =>
      have hstep : (s.perform (.edit change)).1 = s := by rw [perform, hc]
      obtain ⟨T, hT, h⟩ := ih s hrest
      refine ⟨T, ?_, h⟩
      rw [← hT, List.map_cons, after, List.foldl_cons, hstep]
      rfl
    | ok next =>
      obtain ⟨U, rfl, hU⟩ := rebounded_of_apply (hb change List.mem_cons_self) hc
      have hstep : (s.perform (.edit change)).1 = { s with solver := U } := by rw [perform, hc]
      obtain ⟨T, hT, h⟩ := ih { s with solver := U } hrest
      refine ⟨T, ?_, hU.trans h⟩
      rw [← hT, List.map_cons, after, List.foldl_cons, hstep]
      rfl

/-- After an optimum and any changes of bounds and sides, accepted or refused, that leave finite what was finite
and contradict each other nowhere, the next solve starts at rest on the optimal basis, dual feasible. -/
theorem Reachable.bound_changes_keep_warm_start {S : Solver n m} (h : Reachable ⟨n, m, S⟩)
    (ho : S.optimize.outcome = .ok .optimal) (changes : List Edit)
    (hb : ∀ change ∈ changes, change.changesBounds = true) :
    ∃ optimum T, S.optimize.solver.start = .warm optimum ∧
      after ⟨n, m, S⟩ (.optimize :: changes.map .edit) = ⟨n, m, T⟩ ∧
      (S.problem.StaysFinite T.problem → ¬T.problem.HasCrossed →
        ∃ start rest, T.StartsWarm optimum.basis start rest) := by
  obtain ⟨v, hsolved⟩ := Solver.Sound.optimize_solved h.sound
  cases hsolved.outcome_eq.symm.trans ho
  obtain ⟨_, _, optimum, hstart, _, hcon⟩ := hsolved.answer (by decide)
  obtain ⟨T, hT, hrebounded⟩ := rebounded_of_after ⟨n, m, S.optimize.solver⟩ hb
  refine ⟨optimum, T, hstart, hT, fun hfinite hcrossed => ?_⟩
  have hsound : Sound ⟨n, m, T⟩ := by
    have hafter := (show Sound ⟨n, m, S.optimize.solver⟩ from hsolved.sound).after (changes.map .edit)
    rw [hT] at hafter
    exact hafter
  refine hrebounded.startsWarm hsound hstart ?_ (Solver.guess_of_optimal h.sound ho) ?_
    (Problem.not_hasCrossed_iff.mp hcrossed)
  · rw [hsolved.problem_eq]
    exact hcon.1
  · rw [hsolved.problem_eq]
    exact hfinite

/-- A fixed variable that is kept down by its bound gets a higher one, a row gets its second side, another
row moves its side, and a change is refused: the variable leaves the end at which it still is for the other
one. -/
theorem bound_changes_keep_warm_start_of_freed_variable :
    ∃ (S T : Solver 2 2) (optimum : State 2 2), Reachable ⟨2, 2, S⟩ ∧
      S.optimize.outcome = .ok .optimal ∧ S.optimize.solver.start = .warm optimum ∧
      S.optimize.solver.x = #v[1, 3] ∧
      after ⟨2, 2, S⟩ [.optimize, .edit (.setVariableBounds 0 ⟨some 1, some 6⟩),
        .edit (.setSides 0 ⟨some 9, some 12⟩), .edit (.setSide 2 .lower none),
        .edit (.setSide 1 .upper (some 7))] = ⟨2, 2, T⟩ ∧
      T.optimize.solver.x = #v[6, 3] ∧ ∃ start rest, T.StartsWarm optimum.basis start rest := by
  let S : Solver 2 2 := .ofProblem {} ⟨(MatrixStore.ofRowList (n := 2)
    [[(0, 1), (1, 1)], [(0, 1), (1, -1)]]).matrix, #v[1, 3],
    ⟨#v[⟨some 1, some 1⟩, ⟨some 0, none⟩], #v[⟨none, some (-4)⟩, ⟨some (-5), none⟩]⟩, none⟩
  let T : Solver 2 2 := ((S.optimize.solver.setBounds (.structural 0) ⟨some 1, some 6⟩).setSides 0
    ⟨some 9, some 12⟩).setSide 1 .upper (some 7)
  let changes : List Edit := [.setVariableBounds 0 ⟨some 1, some 6⟩, .setSides 0 ⟨some 9, some 12⟩,
    .setSide 2 .lower none, .setSide 1 .upper (some 7)]
  have hS : Reachable ⟨2, 2, S⟩ := ⟨{}, .ofRowList (n := 2) [[(0, 1), (1, 1)], [(0, 1), (1, -1)]],
    [1, 3], [some 4, none], [none, some 5], [some 1, some 0], [some 1, none], _, [],
    .compressed (rfl : MatrixStore.ofCompressed [1, 1, 1, -1] [0, 1, 0, 1] [0, 2, 4] 2 = _),
    by decide, rfl, rfl⟩
  have hrun : (S.optimize.outcome.toOption.any fun v => v = .optimal) = true := by decide +kernel
  obtain ⟨v, hopt, hv⟩ := exists_of_toOption_any hrun
  cases of_decide_eq_true hv
  obtain ⟨optimum, U, hstart, hafter, hwarm⟩ :=
    Reachable.bound_changes_keep_warm_start hS hopt changes (by decide)
  have hT : after ⟨2, 2, S⟩ (.optimize :: changes.map .edit) = ⟨2, 2, T⟩ := rfl
  obtain ⟨_, _, hsolver⟩ := Session.mk.inj (hafter.symm.trans hT)
  cases eq_of_heq hsolver
  exact ⟨S, T, optimum, hS, hopt, hstart, by decide +kernel, hT, by decide +kernel,
    hwarm (by decide +kernel) (Problem.not_hasCrossed_iff.mpr (by decide +kernel))⟩

end Session

end ExactSimplex
