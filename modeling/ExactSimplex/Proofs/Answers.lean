import ExactSimplex.Proofs.Session

/-! # What the answers of a session mean

An optimal answer comes with a point and multipliers that prove each other optimal. A verdict of
infeasibility comes with a certificate, and a certificate that is shown is always one for the problem
as it is. Every solve ends, after finitely many passes in each of its loops.
-/
namespace ExactSimplex
variable {n m : ℕ}

namespace State
variable {P : Problem n m} {s : State n m}

/-- The multipliers of a sound state are found, and they are those of its reduced costs. -/
theorem Sound.duals_priced (h : s.Sound P)
    (hp : ∃ z, ∀ v, P.reducedCost z v = s.basis.spread s.reduced v) : ∃ y, s.duals P = some y ∧
    ∀ v, P.reducedCost y.get v = s.basis.spread s.reduced v := by
  obtain ⟨y, hy, hbasic⟩ := h.duals_eq
  obtain ⟨z, hz⟩ := hp
  have hyz : y.get = z := h.priced_unique hbasic fun r => by rw [hz, h.basis.spread_basic]
  exact ⟨y, hy, fun v => by rw [hyz, hz]⟩

theorem Settled.duals_priced (h : s.Settled P) : ∃ y, s.duals P = some y ∧
    ∀ v, P.reducedCost y.get v = s.basis.spread s.reduced v :=
  h.toSound.duals_priced h.priced

theorem Settled.contains (h : s.Settled P) (hc : ∀ v, (P.bounds.get v).Consistent)
    (hb : ∀ i, (P.bounds.get (s.basis.basic.get i)).Contains (s.values.get (s.basis.basic.get i)))
    (v : Var n m) : (P.bounds.get v).Contains (s.values.get v) := by
  rcases h.basis.basic_or_nonbasic v with ⟨i, rfl⟩ | ⟨k, rfl⟩
  · exact hb i
  · exact (h.rests _ (h.basis.isBasic_nonbasic k)).contains (hc _)

end State

namespace Problem
variable {P : Problem n m}

def value (P : Problem n m) (z : Fin n → ℚ) : ℚ := ∑ j, P.objective.get j * z j

/-- Reduced costs and multipliers that are not zero belong to bounds and sides that are attained. -/
structure Complementary (P : Problem n m) (x d : Fin n → ℚ) (y : Fin m → ℚ) : Prop where
  lower : ∀ j, 0 < d j → (P.bounds.structural.get j).lower = some (x j)
  upper : ∀ j, d j < 0 → (P.bounds.structural.get j).upper = some (x j)
  rowLower : ∀ i, 0 < y i → (P.sides i).lower = some (P.rowValue x i)
  rowUpper : ∀ i, y i < 0 → (P.sides i).upper = some (P.rowValue x i)

theorem sum_cost_extended (P : Problem n m) (z : Fin n → ℚ) :
    ∑ v, P.cost v * P.extended z v = P.value z := by
  rw [Var.sum_eq]
  simp [cost, extended, value]

theorem reducedCost_slack (P : Problem n m) (y : Fin m → ℚ) (i : Fin m) :
    P.reducedCost y (.slack i) = -y i := by
  simp [reducedCost, cost, combination, entry]

theorem Balanced.complementary {x : Var n m → ℚ} (hx : P.Balanced x) {y : Fin m → ℚ}
    (h : ∀ v, (P.bounds.get v).Supports (x v) (P.reducedCost y v)) :
    P.Complementary (fun j => x (.structural j)) (fun j => P.reducedCost y (.structural j)) y := by
  have hslack : ∀ i, (P.sides i).slack.Supports (-P.rowValue (fun j => x (.structural j)) i)
      (-y i) := by
    intro i
    have hi := h (.slack i)
    rw [(P.balanced_iff_slack x).mp hx i, reducedCost_slack] at hi
    rw [sides, Bounds.slack_slack]
    exact hi
  refine ⟨fun j hj => (h (.structural j)).1 hj, fun j hj => (h (.structural j)).2 hj,
    fun i hi => ?_, fun i hi => ?_⟩
  · exact Bounds.slack_upper_eq.mp ((hslack i).2 (by linarith))
  · exact Bounds.slack_lower_eq.mp ((hslack i).1 (by linarith))

end Problem

namespace Bounds

def Crossed (b : Bounds) : Prop := ∃ l u, b.lower = some l ∧ b.upper = some u ∧ u < l

theorem crossed_of_isContradictory {b : Bounds} (h : b.isContradictory = true) : b.Crossed := by
  have hn : ¬b.Consistent := by
    rw [← isContradictory_eq_false_iff, h]
    exact Bool.noConfusion
  unfold Consistent at hn
  push Not at hn
  exact hn

theorem Crossed.not_contains {b : Bounds} (h : b.Crossed) (x : ℚ) : ¬b.Contains x := by
  obtain ⟨l, u, hl, hu, hlt⟩ := h
  exact fun hx => absurd ((hx.1 l hl).trans (hx.2 u hu)) (not_le.mpr hlt)

theorem crossed_of_slack {b : Bounds} (h : b.slack.Crossed) : b.Crossed := by
  obtain ⟨l, u, hl, hu, hlt⟩ := h
  refine ⟨-u, -l, slack_upper_eq.mp ?_, slack_lower_eq.mp ?_, neg_lt_neg hlt⟩
  · rw [neg_neg]
    exact hu
  · rw [neg_neg]
    exact hl

end Bounds

namespace Problem
variable {P : Problem n m}

def HasCrossed (P : Problem n m) : Prop :=
  (∃ j, (P.bounds.structural.get j).Crossed) ∨ ∃ i, (P.sides i).Crossed

theorem hasCrossed_of_isContradictory {v : Var n m} (h : (P.bounds.get v).isContradictory = true) :
    P.HasCrossed := by
  have hv := Bounds.crossed_of_isContradictory h
  cases v with
  | structural j => exact Or.inl ⟨j, hv⟩
  | slack i =>
    refine Or.inr ⟨i, Bounds.crossed_of_slack ?_⟩
    rw [sides, Bounds.slack_slack]
    exact hv

theorem Refutes.not_admits {y : Vec m} (h : P.Refutes y) (z : Fin n → ℚ) : ¬P.Admits z := by
  intro hz
  rcases h with hcert | ⟨_, v, hv⟩
  · exact not_contains_of_isCertificate hcert (P.balanced_extended z) hz.contains
  · exact (Bounds.crossed_of_isContradictory hv).not_contains _ (hz.contains v)

end Problem

namespace Solver
variable {S : Solver n m} {t : State n m}

theorem objectiveValue_eq_value : S.objectiveValue = S.problem.value S.x.get := by
  rw [Solver.objectiveValue, Problem.objectiveValue, foldl_finRange_add, zero_add]
  rfl

theorem x_eq (hs : S.start = .warm t) (j : Fin n) : S.x.get j = t.values.get (.structural j) := by
  rw [x, hs]
  rfl

theorem d_eq (hs : S.start = .warm t) (j : Fin n) :
    S.d.get j = t.basis.spread t.reduced (.structural j) := by
  rw [d_eq_spread, get_ofFn, hs]
  rfl

/-- The point of a state that concludes with an optimum, and multipliers for it. -/
theorem optimal_of_concludes {mayStall : Bool} (hs : S.start = .warm t)
    (hc : ∀ v, (S.problem.bounds.get v).Consistent)
    (h : State.Concludes S.problem mayStall t (.verdict .optimal)) :
    S.problem.Admits S.x.get ∧
      (∀ z, S.problem.Admits z → S.problem.value S.x.get ≤ S.problem.value z) ∧
      ∃ y, S.y = some y ∧
        (∀ j, S.d.get j = S.problem.objective.get j - ∑ i, y.get i * S.problem.matrix.entry i j) ∧
        S.problem.Complementary S.x.get S.d.get y.get := by
  obtain ⟨hready, _, hbasic, _⟩ := h
  obtain ⟨y, hy, hpriced⟩ := hready.duals_priced
  have hx : S.x.get = fun j => t.values.get (.structural j) := funext (x_eq hs)
  have hd : S.d.get = fun j => S.problem.reducedCost y.get (.structural j) :=
    funext fun j => (d_eq hs j).trans (hpriced _).symm
  have hin := hready.toSettled.contains hc hbasic
  have hsup : ∀ v, (S.problem.bounds.get v).Supports (t.values.get v)
      (S.problem.reducedCost y.get v) := by
    intro v
    rw [hpriced]
    exact hready.supports v
  rw [hx, hd]
  refine ⟨hready.balanced.admits hin, fun z hz => ?_, y, ?_, fun j => rfl,
    hready.balanced.complementary hsup⟩
  · have hle := hready.balanced.sum_cost_le (S.problem.balanced_extended z) hsup hz.contains
    rw [S.problem.sum_cost_extended, Var.sum_eq] at hle
    simpa [Problem.cost, Problem.value] using hle
  · rw [Solver.y, hs]
    exact hy

theorem Solved.infeasibilityProof_of_infeasible {P : Problem n m} {r : Report n m}
    (h : Solved P r .infeasible) : ∃ y T, r.solver.infeasibilityProof = .ok (some y, T) ∧ P.Refutes y := by
  rcases h.sound.infeasibilityProof_cases with ⟨_, hp, hs⟩ | ⟨y, hy, heq⟩
  · rcases h.refuted rfl with hproof | ⟨t, w, ht, hw⟩
    · exact absurd hp hproof
    · rw [hs t ht] at hw
      cases hw
  · rw [h.problem_eq] at hy
    exact ⟨y, _, heq, hy⟩

theorem Solved.infeasibilityProof_of_ne {P : Problem n m} {r : Report n m} {v : Verdict}
    (h : Solved P r v) (hv : v ≠ .infeasible) :
    r.solver.infeasibilityProof = .ok (none, r.solver) := by
  obtain ⟨_, hp, t, ht, hstuck, _⟩ := h.answer hv
  unfold Solver.infeasibilityProof
  rw [hp, ht]
  simp only [hstuck]

end Solver

namespace Session
variable {s : Session}

/-- An optimal answer is a feasible point of least costs. The multipliers and reduced costs that
come with it prove that. -/
theorem Reachable.optimal_answer (h : s.Reachable)
    (hv : s.solver.optimize.outcome = .ok .optimal) :
    s.solver.optimize.solver.problem = s.solver.problem ∧
    s.solver.problem.Admits s.solver.optimize.solver.x.get ∧
    s.solver.optimize.solver.objectiveValue =
      ∑ j, s.solver.problem.objective.get j * s.solver.optimize.solver.x.get j ∧
    (∀ z, s.solver.problem.Admits z → s.solver.optimize.solver.objectiveValue ≤
      ∑ j, s.solver.problem.objective.get j * z j) ∧
    ∃ y, s.solver.optimize.solver.y = some y ∧
      (∀ j, s.solver.optimize.solver.d.get j =
        s.solver.problem.objective.get j - ∑ i, y.get i * s.solver.problem.matrix.entry i j) ∧
      s.solver.problem.Complementary s.solver.optimize.solver.x.get
        s.solver.optimize.solver.d.get y.get := by
  obtain ⟨v, hsolved⟩ := Solver.Sound.optimize_solved h.sound
  cases hsolved.outcome_eq.symm.trans hv
  obtain ⟨hc, _, t, ht, _, hcon⟩ := hsolved.answer (by decide)
  have hcons := Problem.contradictory?_eq_none_iff.mp hc
  rw [← hsolved.problem_eq] at hcons hcon
  obtain ⟨hadmits, hle, hy⟩ := Solver.optimal_of_concludes ht hcons hcon
  rw [hsolved.problem_eq] at hadmits hle hy
  have hvalue := Solver.objectiveValue_eq_value (S := s.solver.optimize.solver)
  rw [hsolved.problem_eq] at hvalue
  refine ⟨hsolved.problem_eq, hadmits, hvalue, fun z hz => ?_, hy⟩
  rw [hvalue]
  exact hle z hz

/-- Two rows over a boxed variable and one without an upper bound, which gets one after a solve. -/
theorem optimal_answer_of_new_bound :
    ∃ first s : Session,
      create {} (.ofRowList (n := 2) [[(0, 1), (1, 1)], [(0, 1), (1, 3)]]) [-1, -2] [none, none]
        [some 4, some 6] [some 0, some 0] [some 3, none] = .ok first ∧
      s = first.after [.optimize, .edit (.setVariableBound 1 .upper (some (1 / 2)))] ∧
      s.solver.optimize.outcome = .ok .optimal ∧
      s.solver.problem.Admits s.solver.optimize.solver.x.get ∧
      ∀ z, s.solver.problem.Admits z → s.solver.optimize.solver.objectiveValue ≤
        ∑ j, s.solver.problem.objective.get j * z j := by
  have hrun : (create {} (.ofRowList (n := 2) [[(0, 1), (1, 1)], [(0, 1), (1, 3)]]) [-1, -2]
      [none, none] [some 4, some 6] [some 0, some 0] [some 3, none]).toOption.any (fun first =>
        (first.after [.optimize, .edit (.setVariableBound 1 .upper
          (some (1 / 2)))]).solver.optimize.outcome.toOption.any fun v => v = .optimal) = true := by
    decide +kernel
  obtain ⟨first, hfirst, hrun⟩ := exists_of_toOption_any hrun
  obtain ⟨v, houtcome, hv⟩ := exists_of_toOption_any hrun
  cases of_decide_eq_true hv
  have hstore : (MatrixStore.ofRowList (n := 2) [[(0, 1), (1, 1)], [(0, 1), (1, 3)]]).Built :=
    .compressed (rfl : MatrixStore.ofCompressed [1, 1, 1, 3] [0, 1, 0, 1] [0, 2, 4] 2 = _)
  obtain ⟨_, hadmits, _, hle, _⟩ := Reachable.optimal_answer
    ⟨_, _, _, _, _, _, _, first, _, hstore, by decide, hfirst, rfl⟩ houtcome
  exact ⟨first, _, hfirst, rfl, houtcome, hadmits, hle⟩

/-- A verdict of infeasibility is right and is followed by a proof, every proof that is shown holds
for the problem as it is, and no other verdict is followed by one. -/
theorem Reachable.infeasibility_certified (h : s.Reachable) :
    (s.solver.optimize.outcome = .ok .infeasible → (¬∃ z, s.solver.problem.Admits z) ∧
      ∃ y T, s.solver.optimize.solver.infeasibilityProof = .ok (some y, T)) ∧
    (∀ y T, s.solver.infeasibilityProof = .ok (some y, T) →
      s.solver.problem.isCertificate y = true ∨ y = Vec.zero s.rows ∧ s.solver.problem.HasCrossed) ∧
    ∀ v, s.solver.optimize.outcome = .ok v → v ≠ .infeasible →
      s.solver.optimize.solver.infeasibilityProof = .ok (none, s.solver.optimize.solver) := by
  obtain ⟨v, hsolved⟩ := Solver.Sound.optimize_solved h.sound
  refine ⟨fun hv => ?_, fun y T hy => ?_, fun w hw hne => ?_⟩
  · cases hsolved.outcome_eq.symm.trans hv
    obtain ⟨y, T, hy, hrefutes⟩ := hsolved.infeasibilityProof_of_infeasible
    exact ⟨fun ⟨z, hz⟩ => hrefutes.not_admits z hz, y, T, hy⟩
  · rcases Solver.Sound.infeasibilityProof_cases h.sound with ⟨hn, _⟩ | ⟨z, hz, hs⟩
    · rw [hn] at hy
      cases hy
    · rw [hs] at hy
      cases hy
      exact hz.imp_right fun ⟨h0, w, hw⟩ => ⟨h0, Problem.hasCrossed_of_isContradictory hw⟩
  · cases hsolved.outcome_eq.symm.trans hw
    exact hsolved.infeasibilityProof_of_ne hne

/-- A row between two boxes whose lower side is raised too far after a solve. -/
theorem infeasibility_certified_of_raised_side :
    ∃ first s : Session,
      create {} (.ofRowList (n := 2) [[(0, 1), (1, 1)]]) [1, 2] [some 1] [none] [some 0, some 0]
        [some 1, some 1] = .ok first ∧
      s = first.after [.optimize, .edit (.setSide 0 .lower (some 5))] ∧
      s.solver.optimize.outcome = .ok .infeasible ∧ (¬∃ z, s.solver.problem.Admits z) ∧
      ∃ y T, s.solver.optimize.solver.infeasibilityProof = .ok (some y, T) := by
  have hrun : (create {} (.ofRowList (n := 2) [[(0, 1), (1, 1)]]) [1, 2] [some 1] [none]
      [some 0, some 0] [some 1, some 1]).toOption.any (fun first =>
        (first.after [.optimize, .edit (.setSide 0 .lower (some 5))]).solver.optimize.outcome.toOption.any
          fun v => v = .infeasible) = true := by decide +kernel
  obtain ⟨first, hfirst, hrun⟩ := exists_of_toOption_any hrun
  obtain ⟨v, houtcome, hv⟩ := exists_of_toOption_any hrun
  cases of_decide_eq_true hv
  have hstore : (MatrixStore.ofRowList (n := 2) [[(0, 1), (1, 1)]]).Built :=
    .compressed (rfl : MatrixStore.ofCompressed [1, 1] [0, 1] [0, 2] 2 = _)
  obtain ⟨hinf, _, _⟩ := Reachable.infeasibility_certified
    ⟨_, _, _, _, _, _, _, first, _, hstore, by decide, hfirst, rfl⟩
  exact ⟨first, _, hfirst, rfl, houtcome, hinf houtcome⟩

/-- A solve has a verdict. Phase one is entered at most once in a run, the costs are perturbed at most
once, and no loop makes as many passes as its allowance. -/
theorem Reachable.optimize_returns (h : s.Reachable) :
    (∃ v, s.solver.optimize.outcome = .ok v) ∧
    State.SolveMilestones (milestones s.solver.optimize.events) ∧
    (s.solver.problem.contradictory? = none →
      ∀ P ∈ [s.solver.problem, s.solver.problem.perturbed s.solver.config.numbers],
        (∀ mayStall (t : State s.columns s.rows), t.Sound P → ∃ u ending started,
          t.run P s.solver.config mayStall = .ok (u, ending) ∧ State.RunMilestones started ∧
            milestones u.log = milestones t.log ++ started) ∧
        ∀ Q mayStall length progress states, State.Entry P Q (states 0) →
          State.Trace Q s.solver.config mayStall length progress states →
          length < s.solver.config.passAllowance s.columns s.rows) := by
  obtain ⟨v, hsolved⟩ := Solver.Sound.optimize_solved h.sound
  refine ⟨⟨v, hsolved.outcome_eq⟩, hsolved.milestones, fun hn P hP => ?_⟩
  have hcons : ∀ v, (P.bounds.get v).Consistent := by
    rcases List.mem_pair.mp hP with rfl | rfl <;> exact Problem.contradictory?_eq_none_iff.mp hn
  have hsimple : P.matrix.Simple := by
    rcases List.mem_pair.mp hP with rfl | rfl <;> exact h.sound.simple
  refine ⟨fun mayStall t ht => ?_, fun Q mayStall length progress states hentry ht => ?_⟩
  · obtain ⟨u, ending, hu, _, _, started, hs, hm⟩ := ht.run_eq hsimple s.solver.config mayStall hcons
    exact ⟨u, ending, started, hu, hs, hm⟩
  · exact hentry.length_lt hsimple hcons ht

/-- Costs that call for phase one, and no patience with repeated objective values. -/
theorem optimize_returns_of_impatience :
    ∃ first s : Session,
      create { cycleThreshold := 0, perturbationThreshold := 0 }
        (.ofRowList (n := 2) [[(0, 1), (1, 1)]]) [-1, -2] [none] [some 4] [some 0, some 0] [none, none]
        = .ok first ∧
      s = first.after [.edit (.setObjective [-1, -1])] ∧
      (∃ v, s.solver.optimize.outcome = .ok v) ∧
      State.SolveMilestones (milestones s.solver.optimize.events) := by
  have hstore : (MatrixStore.ofRowList (n := 2) [[(0, 1), (1, 1)]]).Built :=
    .compressed (rfl : MatrixStore.ofCompressed [1, 1] [0, 1] [0, 2] 2 = _)
  cases hfirst : create { cycleThreshold := 0, perturbationThreshold := 0 }
      (.ofRowList (n := 2) [[(0, 1), (1, 1)]]) [-1, -2] [none] [some 4] [some 0, some 0]
      [none, none] with
  | error cause => cases hfirst
  | ok first =>
    obtain ⟨hv, hm, _⟩ := Reachable.optimize_returns
      ⟨_, _, _, _, _, _, _, first, _, hstore, by decide, hfirst, rfl⟩
    exact ⟨first, _, rfl, rfl, hv, hm⟩

end Session

end ExactSimplex
