import ExactSimplex.Proofs.Duality

/-! # What the verdicts of a session mean

A verdict of unboundedness comes with a direction along which the costs fall for ever. A cut-off is
reported exactly when the least costs reach it. Without a cut-off and without guesses the verdict is
fixed by the coefficients, the costs, the bounds and the sides, whatever basis a solve starts from and
however it is configured.
-/
namespace ExactSimplex
variable {n m : ℕ}

namespace Problem
variable {P Q : Problem n m} {v w : Verdict}

/-- The verdict that a problem without a cut-off calls for. Bounds are compared with each other first,
then dual feasibility is looked for, and only then feasibility. -/
def Calls (P : Problem n m) : Verdict → Prop
  | .infeasible => P.HasCrossed ∨ (∃ y, P.DualFeasible y) ∧ ¬∃ z, P.Admits z
  | .unbounded => ¬P.HasCrossed ∧ ¬∃ y, P.DualFeasible y
  | .optimal => ¬P.HasCrossed ∧ (∃ y, P.DualFeasible y) ∧ ∃ z, P.Admits z
  | .cutOff => False

theorem Calls.unique (hv : P.Calls v) (hw : P.Calls w) : v = w := by
  cases v <;> cases w <;> simp only [Calls] at hv hw <;> tauto

/-- The problems have the same coefficients, costs, bounds and sides. How the coefficients are stored
does not matter. -/
structure SameData (P Q : Problem n m) : Prop where
  entry_eq : ∀ i j, P.matrix.entry i j = Q.matrix.entry i j
  objective_eq : P.objective = Q.objective
  bounds_eq : P.bounds = Q.bounds

namespace SameData

theorem symm (h : P.SameData Q) : Q.SameData P :=
  ⟨fun i j => (h.entry_eq i j).symm, h.objective_eq.symm, h.bounds_eq.symm⟩

theorem sides_eq (h : P.SameData Q) (i : Fin m) : P.sides i = Q.sides i := by
  rw [sides, sides, h.bounds_eq]

theorem value_eq (h : P.SameData Q) (z : Fin n → ℚ) : P.value z = Q.value z := by
  rw [value, value, h.objective_eq]

theorem hasCrossed (h : P.SameData Q) (hP : P.HasCrossed) : Q.HasCrossed := by
  simp only [HasCrossed, ← h.bounds_eq, ← h.sides_eq]
  exact hP

theorem admits (h : P.SameData Q) {z : Fin n → ℚ} (hz : P.Admits z) : Q.Admits z := by
  simp only [Admits, rowValue, ← h.bounds_eq, ← h.sides_eq, ← h.entry_eq]
  exact hz

theorem dualFeasible (h : P.SameData Q) {y : Fin m → ℚ} (hy : P.DualFeasible y) :
    Q.DualFeasible y := by
  constructor <;> simp only [← h.entry_eq, ← h.objective_eq, ← h.bounds_eq, ← h.sides_eq]
  · exact hy.lower
  · exact hy.upper
  · exact hy.rowLower
  · exact hy.rowUpper

theorem calls (h : P.SameData Q) (hv : P.Calls v) : Q.Calls v := by
  have hcrossed : P.HasCrossed ↔ Q.HasCrossed := ⟨h.hasCrossed, h.symm.hasCrossed⟩
  have hdual : (∃ y, P.DualFeasible y) ↔ ∃ y, Q.DualFeasible y :=
    exists_congr fun y => ⟨h.dualFeasible, h.symm.dualFeasible⟩
  have hadmits : (∃ z, P.Admits z) ↔ ∃ z, Q.Admits z :=
    exists_congr fun z => ⟨h.admits, h.symm.admits⟩
  cases v <;> simp only [Calls, hcrossed, hdual, hadmits] at hv ⊢ <;> exact hv

end SameData

end Problem

theorem State.Concludes.calls {P : Problem n m} {mayStall : Bool} {t : State n m} {v : Verdict}
    (h : Concludes P mayStall t (.verdict v)) (hc : P.contradictory? = none)
    (hcut : P.cutOff = none) : P.Calls v := by
  have hcrossed := Problem.not_hasCrossed_iff.mpr hc
  cases v with
  | optimal =>
    exact ⟨hcrossed, h.1.exists_dualFeasible, _, h.admits (Problem.contradictory?_eq_none_iff.mp hc)⟩
  | unbounded =>
    obtain ⟨hrec, hneg⟩ := h.recession
    exact ⟨hcrossed, hrec.not_dualFeasible hneg⟩
  | infeasible => exact Or.inr ⟨h.1.exists_dualFeasible, fun ⟨z, hz⟩ => h.not_admits z hz⟩
  | cutOff =>
    obtain ⟨_, _, bound, hbound, _⟩ := h
    cases hbound.symm.trans hcut

namespace Solver
variable {P : Problem n m} {S : Solver n m} {r : Report n m} {v : Verdict}

/-- The state behind an answer, and what the solver shows of it. -/
theorem Solved.exists_concludes (h : Solved P r v) (hv : v ≠ .infeasible) :
    ∃ t, State.Concludes P true t (.verdict v) ∧ P.contradictory? = none ∧
      (r.solver.x.get = fun j => t.values.get (.structural j)) ∧
      r.solver.objectiveValue = P.objectiveValue t.values := by
  obtain ⟨hc, _, t, ht, _, hcon⟩ := h.answer hv
  refine ⟨t, hcon, hc, funext (x_eq ht), ?_⟩
  rw [Solver.objectiveValue, h.problem_eq, ht]
  rfl

theorem Solved.objectiveValue_eq (h : Solved P r v) :
    r.solver.objectiveValue = P.value r.solver.x.get := by
  rw [objectiveValue_eq_value, h.problem_eq]

/-- An unbounded solve leaves a recession direction that lowers the costs. -/
theorem Solved.recession (h : Solved P r .unbounded) :
    P.Recession r.solver.x.get ∧ P.value r.solver.x.get < 0 := by
  obtain ⟨t, hcon, _, hx, _⟩ := h.exists_concludes (by decide)
  rw [hx]
  exact hcon.recession

/-- An optimal solve leaves a feasible point of least costs, below the cut-off. -/
theorem Solved.least (h : Solved P r .optimal) :
    P.Admits r.solver.x.get ∧ (∀ z, P.Admits z → r.solver.objectiveValue ≤ P.value z) ∧
      ∀ bound, P.cutOff = some bound → r.solver.objectiveValue < bound := by
  obtain ⟨t, hcon, hc, hx, hvalue⟩ := h.exists_concludes (by decide)
  rw [hvalue, hx]
  exact ⟨hcon.admits (Problem.contradictory?_eq_none_iff.mp hc), fun z hz => hcon.1.objectiveValue_le hz,
    hcon.2.2.2⟩

/-- A solve is cut off when no feasible point has costs below the cut-off. -/
theorem Solved.cutOff_le (h : Solved P r .cutOff) : ∃ bound, P.cutOff = some bound ∧
    ∀ z, P.Admits z → bound ≤ P.value z := by
  obtain ⟨t, ⟨hready, _, bound, hbound, hle⟩, _⟩ := h.exists_concludes (by decide)
  exact ⟨bound, hbound, fun z hz => hle.trans (hready.objectiveValue_le hz)⟩

/-- A problem with a point of least costs is solved, unless the costs reach the cut-off. -/
theorem Solved.eq_of_least (h : Solved P r v) {z : Fin n → ℚ} (hz : P.Admits z)
    (hleast : ∀ w, P.Admits w → P.value z ≤ P.value w) :
    v = .optimal ∧ (∀ bound, P.cutOff = some bound → P.value z < bound) ∨
      v = .cutOff ∧ ∃ bound, P.cutOff = some bound ∧ bound ≤ P.value z := by
  cases v with
  | optimal =>
    obtain ⟨hx, _, hbound⟩ := h.least
    refine Or.inl ⟨rfl, fun bound hb => ?_⟩
    calc P.value z ≤ P.value r.solver.x.get := hleast _ hx
      _ = r.solver.objectiveValue := h.objectiveValue_eq.symm
      _ < bound := hbound bound hb
  | cutOff =>
    obtain ⟨bound, hb, hle⟩ := h.cutOff_le
    exact Or.inr ⟨rfl, bound, hb, hle z hz⟩
  | infeasible =>
    obtain ⟨y, _, _, hrefutes⟩ := h.infeasibilityProof_of_infeasible
    exact absurd hz (hrefutes.not_admits z)
  | unbounded =>
    -- along the direction there are points better than the best one
    obtain ⟨hrec, hneg⟩ := h.recession
    obtain ⟨t, _, hadmits, hlt⟩ := hrec.exists_value_lt hneg hz (P.value z)
    exact absurd (hleast _ hadmits) (not_le.mpr hlt)

/-- Neither the caller nor the provider suggests a ray. -/
structure Rayless (S : Solver n m) : Prop where
  guess : S.guess = none
  provider : ∀ suggestions, S.provider = some suggestions →
    ∀ suggestion, some suggestion ∈ suggestions → suggestion.ray = none

theorem guess_follow (S : Solver n m) {suggestion : Suggestion} (h : suggestion.ray = none) :
    (S.follow suggestion).1.guess = S.guess := by
  obtain ⟨T, hT, hnext⟩ := S.follow_cases suggestion
  rcases hnext with heq | ⟨ray, hray, _⟩
  · rw [heq]
    rcases hT with rfl | hs
    · rfl
    · obtain ⟨statuses, hi⟩ := setStatuses_eq hs
      obtain ⟨start, hT⟩ := importBasis_eq hi
      rw [hT]
  · cases h.symm.trans hray

theorem Rayless.guess_seeded (h : S.Rayless) : S.seeded.1.guess = none := by
  have hconsult : S.withoutProof.consult.1.guess = none := by
    unfold consult
    split
    · exact h.guess
    · exact h.guess
    · exact h.guess
    · next suggestion rest hp =>
      have hray := h.provider _ hp suggestion List.mem_cons_self
      exact (guess_follow _ hray).trans h.guess
  unfold seeded
  split
  · exact hconsult
  · exact h.guess

theorem search_calls (hA : S.problem.matrix.Simple) {state : State n m}
    (hs : state.Sound S.problem) (hcut : S.problem.cutOff = none) (shown : Option (Problem n m)) :
    ∃ v, (S.search shown state).outcome = .ok v ∧ S.problem.Calls v := by
  unfold search
  cases hc : S.problem.contradictory? with
  | some v =>
    have hv := List.find?_some (p := fun v => (S.problem.bounds.get v).isContradictory) hc
    exact ⟨.infeasible, rfl, Or.inl (Problem.hasCrossed_of_isContradictory hv)⟩
  | none =>
    obtain ⟨t, v, ht, _, hcon, _⟩ := hs.solve_eq hA S.config (Problem.contradictory?_eq_none_iff.mp hc)
    refine ⟨v, ?_, hcon.calls hc hcut⟩
    simp only [ht]
    rfl

/-- Without a cut-off and without rays the problem alone decides the verdict. -/
theorem Sound.optimize_calls (h : S.Sound) (hr : S.Rayless) (hcut : S.problem.cutOff = none) :
    ∃ v, S.optimize.outcome = .ok v ∧ S.problem.Calls v := by
  obtain ⟨state, _, hs, _, _, heq⟩ := h.optimize_eq_search
  have hint := h.seeded_hinted.1
  rw [heq, searchWithGuess, hr.guess_seeded, ← hint.problem_eq]
  apply search_calls hint.sound.simple hs
  rw [hint.problem_eq]
  exact hcut

end Solver

namespace Session
variable {s : Session}

/-- A verdict of unboundedness is right: no multipliers are dual feasible, and from every feasible
point the costs fall below every bound along the direction that is shown. -/
theorem Reachable.unbounded_answer (h : s.Reachable)
    (hv : s.solver.optimize.outcome = .ok .unbounded) :
    ¬s.solver.problem.HasCrossed ∧ (¬∃ y, s.solver.problem.DualFeasible y) ∧
    s.solver.problem.Recession s.solver.optimize.solver.x.get ∧
    s.solver.optimize.solver.objectiveValue =
      ∑ j, s.solver.problem.objective.get j * s.solver.optimize.solver.x.get j ∧
    s.solver.optimize.solver.objectiveValue < 0 ∧
    ∀ z, s.solver.problem.Admits z → ∀ bound, ∃ t, 0 ≤ t ∧
      (s.solver.problem.Admits fun j => z j + t * s.solver.optimize.solver.x.get j) ∧
      ∑ j, s.solver.problem.objective.get j * (z j + t * s.solver.optimize.solver.x.get j) < bound := by
  obtain ⟨v, hsolved⟩ := Solver.Sound.optimize_solved h.sound
  cases hsolved.outcome_eq.symm.trans hv
  obtain ⟨_, _, hc, _⟩ := hsolved.exists_concludes (by decide)
  obtain ⟨hrec, hneg⟩ := hsolved.recession
  refine ⟨Problem.not_hasCrossed_iff.mpr hc, hrec.not_dualFeasible hneg, hrec,
    hsolved.objectiveValue_eq, ?_, ?_⟩
  · rw [hsolved.objectiveValue_eq]
    exact hneg
  · intro z hz bound
    exact hrec.exists_value_lt hneg hz bound

/-- A row that holds back two costs, one of which loses its bound after a solve. -/
theorem unbounded_answer_of_lost_bound :
    ∃ first s : Session,
      create {} (.ofRowList (n := 2) [[(0, 1), (1, -1)]]) [-1, -1] [none] [some 2]
        [some 0, some 0] [none, some 3] = .ok first ∧
      s = first.after [.optimize, .edit (.setVariableBound 1 .upper none)] ∧
      s.solver.optimize.outcome = .ok .unbounded ∧
      (¬∃ y, s.solver.problem.DualFeasible y) ∧
      s.solver.problem.Recession s.solver.optimize.solver.x.get ∧
      s.solver.optimize.solver.objectiveValue < 0 := by
  have hrun : (create {} (.ofRowList (n := 2) [[(0, 1), (1, -1)]]) [-1, -1] [none] [some 2]
      [some 0, some 0] [none, some 3]).toOption.any (fun first =>
        (first.after [.optimize, .edit (.setVariableBound 1 .upper
          none)]).solver.optimize.outcome.toOption.any fun v => v = .unbounded) = true := by
    decide +kernel
  obtain ⟨first, hfirst, hrun⟩ := exists_of_toOption_any hrun
  obtain ⟨v, houtcome, hv⟩ := exists_of_toOption_any hrun
  cases of_decide_eq_true hv
  have hstore : (MatrixStore.ofRowList (n := 2) [[(0, 1), (1, -1)]]).Built :=
    .compressed (rfl : MatrixStore.ofCompressed [1, -1] [0, 1] [0, 2] 2 = _)
  obtain ⟨_, hdual, hrec, _, hneg, _⟩ := Reachable.unbounded_answer
    ⟨_, _, _, _, _, _, _, first, _, hstore, by decide, hfirst, rfl⟩ houtcome
  exact ⟨first, _, hfirst, rfl, houtcome, hdual, hrec, hneg⟩

/-- The cut-off is exact: with one, a solve of a problem that has an optimum is cut off if and only if
the least costs reach it. -/
theorem Reachable.cutOff_exact (h : s.Reachable) :
    (∀ bound, s.solver.problem.cutOff = some bound →
      (s.solver.optimize.outcome = .ok .cutOff → ∀ z, s.solver.problem.Admits z →
        bound ≤ ∑ j, s.solver.problem.objective.get j * z j) ∧
      (s.solver.optimize.outcome = .ok .optimal →
        s.solver.optimize.solver.objectiveValue < bound) ∧
      ∀ z, s.solver.problem.Admits z →
        (∀ w, s.solver.problem.Admits w → s.solver.problem.value z ≤ s.solver.problem.value w) →
        s.solver.optimize.outcome =
          .ok (if bound ≤ s.solver.problem.value z then .cutOff else .optimal)) ∧
    (s.solver.problem.cutOff = none → s.solver.optimize.outcome ≠ .ok .cutOff ∧
      ∀ z, s.solver.problem.Admits z →
        (∀ w, s.solver.problem.Admits w → s.solver.problem.value z ≤ s.solver.problem.value w) →
        s.solver.optimize.outcome = .ok .optimal) := by
  obtain ⟨v, hsolved⟩ := Solver.Sound.optimize_solved h.sound
  refine ⟨fun bound hbound => ⟨fun hv => ?_, fun hv => ?_, fun z hz hleast => ?_⟩,
    fun hnone => ⟨fun hv => ?_, fun z hz hleast => ?_⟩⟩
  · cases hsolved.outcome_eq.symm.trans hv
    obtain ⟨b, hb, hle⟩ := hsolved.cutOff_le
    cases hb.symm.trans hbound
    exact hle
  · cases hsolved.outcome_eq.symm.trans hv
    exact hsolved.least.2.2 bound hbound
  · rw [hsolved.outcome_eq]
    rcases hsolved.eq_of_least hz hleast with ⟨rfl, hlt⟩ | ⟨rfl, b, hb, hle⟩
    · rw [if_neg (not_le.mpr (hlt bound hbound))]
    · cases hb.symm.trans hbound
      rw [if_pos hle]
  · cases hsolved.outcome_eq.symm.trans hv
    obtain ⟨b, hb, _⟩ := hsolved.cutOff_le
    cases hb.symm.trans hnone
  · rw [hsolved.outcome_eq]
    rcases hsolved.eq_of_least hz hleast with ⟨rfl, _⟩ | ⟨_, b, hb, _⟩
    · rfl
    · cases hb.symm.trans hnone

/-- A cut-off that the least costs reach only after a bound has been lowered. -/
theorem cutOff_exact_of_lowered_bound :
    ∃ first s : Session,
      create {} (.ofRowList (n := 2) [[(0, 1), (1, 1)], [(0, 1), (1, 3)]]) [-1, -2] [none, none]
        [some 4, some 6] [some 0, some 0] [some 3, none] = .ok first ∧
      s = first.after [.edit (.setCutOff (some (-4))), .optimize,
        .edit (.setVariableBound 1 .upper (some (1 / 2)))] ∧
      s.solver.problem.cutOff = some (-4) ∧ s.solver.optimize.outcome = .ok .cutOff ∧
      ∀ z, s.solver.problem.Admits z → -4 ≤ ∑ j, s.solver.problem.objective.get j * z j := by
  have hrun : (create {} (.ofRowList (n := 2) [[(0, 1), (1, 1)], [(0, 1), (1, 3)]]) [-1, -2]
      [none, none] [some 4, some 6] [some 0, some 0] [some 3, none]).toOption.any (fun first =>
        (first.after [.edit (.setCutOff (some (-4))), .optimize, .edit (.setVariableBound 1 .upper
          (some (1 / 2)))]).solver.problem.cutOff == some (-4) &&
        (first.after [.edit (.setCutOff (some (-4))), .optimize, .edit (.setVariableBound 1 .upper
          (some (1 / 2)))]).solver.optimize.outcome.toOption.any fun v => v = .cutOff) = true := by
    decide +kernel
  obtain ⟨first, hfirst, hrun⟩ := exists_of_toOption_any hrun
  obtain ⟨hbound, hrun⟩ := Bool.and_eq_true_iff.mp hrun
  obtain ⟨v, houtcome, hv⟩ := exists_of_toOption_any hrun
  cases of_decide_eq_true hv
  have hstore : (MatrixStore.ofRowList (n := 2) [[(0, 1), (1, 1)], [(0, 1), (1, 3)]]).Built :=
    .compressed (rfl : MatrixStore.ofCompressed [1, 1, 1, 3] [0, 1, 0, 1] [0, 2, 4] 2 = _)
  obtain ⟨hexact, _⟩ := Reachable.cutOff_exact
    ⟨_, _, _, _, _, _, _, first, _, hstore, by decide, hfirst, rfl⟩
  exact ⟨first, _, hfirst, rfl, eq_of_beq hbound, houtcome,
    (hexact _ (eq_of_beq hbound)).1 houtcome⟩

/-- Solvers for the same coefficients, costs, bounds and sides agree on the verdict and on the least
costs, whatever their settings, their starting points and what happened to them before. -/
theorem Reachable.answers_agree {S T : Solver n m} (hS : Reachable ⟨n, m, S⟩)
    (hT : Reachable ⟨n, m, T⟩) (hsame : S.problem.SameData T.problem)
    (hcutS : S.problem.cutOff = none) (hcutT : T.problem.cutOff = none) (hrayS : S.Rayless)
    (hrayT : T.Rayless) :
    ∃ v, S.optimize.outcome = .ok v ∧ T.optimize.outcome = .ok v ∧
      (v = .optimal → S.optimize.solver.objectiveValue = T.optimize.solver.objectiveValue) := by
  obtain ⟨v, hv, hcalls⟩ := Solver.Sound.optimize_calls hS.sound hrayS hcutS
  obtain ⟨w, hw, hcalls'⟩ := Solver.Sound.optimize_calls hT.sound hrayT hcutT
  cases (hsame.calls hcalls).unique hcalls'
  refine ⟨v, hv, hw, ?_⟩
  rintro rfl
  obtain ⟨_, hsolvedS⟩ := Solver.Sound.optimize_solved hS.sound
  obtain ⟨_, hsolvedT⟩ := Solver.Sound.optimize_solved hT.sound
  cases hsolvedS.outcome_eq.symm.trans hv
  cases hsolvedT.outcome_eq.symm.trans hw
  obtain ⟨hxS, hleS, _⟩ := hsolvedS.least
  obtain ⟨hxT, hleT, _⟩ := hsolvedT.least
  apply le_antisymm
  · calc S.optimize.solver.objectiveValue ≤ S.problem.value T.optimize.solver.x.get :=
          hleS _ (hsame.symm.admits hxT)
      _ = T.optimize.solver.objectiveValue := by rw [hsame.value_eq, hsolvedT.objectiveValue_eq]
  · calc T.optimize.solver.objectiveValue ≤ T.problem.value S.optimize.solver.x.get :=
          hleT _ (hsame.admits hxS)
      _ = S.optimize.solver.objectiveValue := by rw [← hsame.value_eq, hsolvedS.objectiveValue_eq]

/-- A solver that has solved before, and one that factorizes at every pivot, stores its rows in another
order and is told to start from two dependent columns. -/
theorem answers_agree_of_dependent_columns :
    ∃ first other : Session,
      create {} (.ofRowList (n := 2) [[(0, 1), (1, 2)], [(0, 2), (1, 4)]]) [-1, -3] [none, none]
        [some 4, some 6] [some 0, some 0] [some 3, none] = .ok first ∧
      create { refactorInterval := 1 } (.ofRowList (n := 2) [[(1, 2), (0, 1)], [(1, 4), (0, 2)]])
        [-1, -3] [none, none] [some 4, some 6] [some 0, some 0] [some 3, none] = .ok other ∧
      ∃ v, (first.after [.optimize]).solver.optimize.outcome = .ok v ∧
        (other.after [.edit (.setProvider [some ⟨[.basic, .basic], [.atLower, .atUpper],
          none⟩])]).solver.optimize.outcome = .ok v := by
  let bounds : PerVar Bounds 2 2 :=
    ⟨#v[⟨some 0, some 3⟩, ⟨some 0, none⟩], #v[⟨some (-4), none⟩, ⟨some (-6), none⟩]⟩
  let S : Solver 2 2 := .ofProblem {} ⟨(MatrixStore.ofRowList (n := 2)
    [[(0, 1), (1, 2)], [(0, 2), (1, 4)]]).matrix, #v[-1, -3], bounds, none⟩
  let T : Solver 2 2 := .ofProblem { refactorInterval := 1 } ⟨(MatrixStore.ofRowList (n := 2)
    [[(1, 2), (0, 1)], [(1, 4), (0, 2)]]).matrix, #v[-1, -3], bounds, none⟩
  have hfirst : create {} (.ofRowList (n := 2) [[(0, 1), (1, 2)], [(0, 2), (1, 4)]]) [-1, -3]
      [none, none] [some 4, some 6] [some 0, some 0] [some 3, none] = .ok ⟨2, 2, S⟩ := rfl
  have hother : create { refactorInterval := 1 } (.ofRowList (n := 2) [[(1, 2), (0, 1)],
      [(1, 4), (0, 2)]]) [-1, -3] [none, none] [some 4, some 6] [some 0, some 0] [some 3, none] =
      .ok ⟨2, 2, T⟩ := rfl
  have hstore : (MatrixStore.ofRowList (n := 2) [[(0, 1), (1, 2)], [(0, 2), (1, 4)]]).Built :=
    .compressed (rfl : MatrixStore.ofCompressed [1, 2, 2, 4] [0, 1, 0, 1] [0, 2, 4] 2 = _)
  have hS : Reachable ⟨2, 2, S.optimize.solver⟩ :=
    ⟨_, _, _, _, _, _, _, _, [.optimize], hstore, by decide, hfirst, rfl⟩
  have hT : Reachable ⟨2, 2, T.setProvider [some ⟨[.basic, .basic], [.atLower, .atUpper], none⟩]⟩ :=
    ⟨_, _, _, _, _, _, _, _, [.edit (.setProvider _)],
      .compressed (rfl : MatrixStore.ofCompressed [2, 1, 4, 2] [1, 0, 1, 0] [0, 2, 4] 2 = _),
      by decide, hother, rfl⟩
  obtain ⟨_, hsolved⟩ := Solver.Sound.optimize_solved (sound_of_create hstore (by decide) hfirst)
  have hproblem : S.optimize.solver.problem = S.problem := hsolved.problem_eq
  have hray : S.optimize.solver.Rayless := by
    have hguess : S.optimize.solver.guess.isNone = true := by decide +kernel
    have hprovider : S.optimize.solver.provider.isNone = true := by decide +kernel
    refine ⟨Option.isNone_iff_eq_none.mp hguess, fun _ h => ?_⟩
    cases (Option.isNone_iff_eq_none.mp hprovider).symm.trans h
  obtain ⟨v, hv, hw, _⟩ := Reachable.answers_agree hS hT
    (by rw [hproblem]; exact ⟨by decide +kernel, rfl, rfl⟩) (by rw [hproblem]; rfl) rfl hray
    ⟨rfl, fun _ h => by cases h; simp⟩
  exact ⟨_, _, hfirst, hother, v, hv, hw⟩

end Session

end ExactSimplex
