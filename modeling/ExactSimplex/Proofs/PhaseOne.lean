import ExactSimplex.Proofs.Iterates

/-! # What phase one hands over

Under the surrogate bounds every basis is dual feasible once the boxed variables have moved, and the
origin is a feasible point, so that phase one can only end at an optimum or stall. Its reduced costs are
those of the true problem. At an optimum of zero none of them pushes against a missing bound, and putting
the variables back to the true bounds does not change them.
-/
namespace ExactSimplex
variable {n m : ℕ}

namespace State
variable {P : Problem n m} {s : State n m}

/-- Two rounds bring the boxed variables to where their reduced costs want them, and variables are moved
at most once. -/
def SettlesInTwoRounds (P : Problem n m) (s : State n m) : Prop :=
  ∃ t, (∀ rounds, settle P (rounds + 2) s = .ok t) ∧
    (t.log = s.log ∨ ∃ flips, t.log = s.log.push (.flipped flips))

/-- What can be said about phase one when it is entered with this state. -/
structure HandsOver (P : Problem n m) (cfg : Config) (s : State n m) : Prop where
  consistent : P.surrogate.contradictory? = none
  rounds : SettlesInTwoRounds P s ∧ SettlesInTwoRounds P.surrogate s
  rests : ∃ t, comeToRest P.surrogate s = .ok t ∧ t.basis = s.basis ∧
    t.isDualFeasible P.surrogate = true
  ends : ∀ mayStall, ∃ t ending, runSurrogate P cfg mayStall s = .ok (t, ending) ∧
    ending ≠ .verdict .infeasible ∧ ending ≠ .verdict .cutOff ∧
    (ending = .verdict .optimal ∨ ending = .stalled ∧ mayStall = true)
  feasible : ∀ mayStall t, runSurrogate P cfg mayStall s = .ok (t, .verdict .optimal) →
    P.objectiveValue t.values = 0 → ∃ u, comeToRest P (t.record .phaseOneFeasible) = .ok u ∧
      u.basis = t.basis ∧ u.isDualFeasible P = true

theorem Sound.settlesInTwoRounds (h : s.Sound P) (hA : P.matrix.Mirrored) : SettlesInTwoRounds P s := by
  obtain ⟨t, hsettle, _, _, _, _, hlog, _⟩ := h.settle_eq hA
  exact ⟨t, hsettle, hlog⟩

theorem Sound.handsOver (h : s.Sound P) (hA : P.matrix.Simple) (cfg : Config) : HandsOver P cfg s where
  consistent := Problem.contradictory?_eq_none_iff.mpr (consistent_surrogate P)
  rounds := ⟨h.settlesInTwoRounds hA.toMirrored,
    (h.congr (Q := P.surrogate) rfl).settlesInTwoRounds hA.toMirrored⟩
  rests := by
    obtain ⟨t, ht, hset, hcalm, hb, _⟩ :=
      (h.congr (Q := P.surrogate) rfl).comeToRest_eq hA.toMirrored
    exact ⟨t, ht, hb, (isDualFeasible_iff hset).mpr (hset.ready_surrogate hcalm)⟩
  ends mayStall := by
    obtain ⟨t, ending, ht, _, _, ⟨rfl, hstall⟩ | ⟨rfl, _⟩⟩ := h.runSurrogate_eq hA cfg mayStall
    · exact ⟨t, .stalled, ht, by simp, by simp, Or.inr ⟨rfl, hstall⟩⟩
    · exact ⟨t, .verdict .optimal, ht, by simp, by simp, Or.inl rfl⟩
  feasible mayStall t ht h0 := by
    obtain ⟨t', _, ht', hready, _⟩ := h.runSurrogate_eq hA cfg mayStall
    cases ht'.symm.trans ht
    have hnoted : (t.record .phaseOneFeasible).Ready P.surrogate := hready.of_eq rfl rfl rfl
    obtain ⟨u, hu, hfeasible, hb, _⟩ := hnoted.comeToRest_after_surrogate hA.toMirrored h0
    exact ⟨u, hu, hb, (isDualFeasible_iff hfeasible.toSettled).mpr hfeasible⟩

/-- Every nonsingular basis is the basis of a sound state, up to the order of its positions. -/
theorem exists_sound (hA : P.matrix.Simple) {point : Point n m} (hb : point.basis.Valid)
    (hu : IsUnit (P.basisMatrix point.basis)) (limit pivots : ℕ) (log : Array Event) :
    ∃ s, ofPoint P limit point pivots none none log = .ok s ∧
      (∀ v, s.basis.isBasic v = point.basis.isBasic v) ∧ s.Sound P := by
  have hw : ∀ w, (none : Option (Vec m)) = some w → ∀ i, w.get i =
      ∑ k, P.inverseRow point.basis i k * P.inverseRow point.basis i k := fun w hw => by cases hw
  rcases ofPoint_cases hA hb hw limit pivots none log with ⟨s, hs, hsound, hfactorized, _⟩ | ⟨hn, _⟩
  · exact ⟨s, hs, hfactorized.isBasic_eq, hsound⟩
  · exact absurd hu hn

end State

namespace Session
variable {s : Session} {Q : Problem s.columns s.rows} {cfg : Config}

/-- With the matrix of a session and any costs and bounds, phase one can be entered with any sound state:
so with every nonsingular basis, and with the states that a solve searches from. -/
theorem Opened.phaseOne_hands_over (h : s.Opened) (hrows : s.solver.problem.matrix.Distinct) :
    (∀ Q u, Q.matrix = s.solver.problem.matrix → u.Sound Q → State.HandsOver Q cfg u) ∧
    (∀ (Q : Problem s.columns s.rows) (point : Point s.columns s.rows) limit pivots log,
      Q.matrix = s.solver.problem.matrix → point.basis.Valid → IsUnit (Q.basisMatrix point.basis) →
      ∃ u, State.ofPoint Q limit point pivots none none log = .ok u ∧
        (∀ v, u.basis.isBasic v = point.basis.isBasic v) ∧ State.HandsOver Q cfg u) ∧
    ∀ state, s.solver.SearchesFrom state → State.HandsOver s.solver.problem cfg state := by
  have hsound := h.consistent.sound hrows
  have hsimple : ∀ Q : Problem s.columns s.rows, Q.matrix = s.solver.problem.matrix → Q.matrix.Simple :=
    fun Q hQ => by
      rw [hQ]
      exact hsound.simple
  refine ⟨fun Q u hQ hu => hu.handsOver (hsimple Q hQ) cfg,
    fun Q point limit pivots log hQ hb hregular => ?_,
    fun state hstate => (hstate.sound hsound).handsOver hsound.simple cfg⟩
  obtain ⟨u, hu, hbasic, hs⟩ := State.exists_sound (hsimple Q hQ) hb hregular limit pivots log
  exact ⟨u, hu, hbasic, hs.handsOver (hsimple Q hQ) cfg⟩

/-- The slack basis is not dual feasible, and phase one finds one that is. -/
theorem phaseOne_hands_over_of_negative_costs :
    ∃ first : Session, ∃ state t u v,
      create { refactorInterval := 1 } (.ofRowList (n := 2) [[(0, 1), (1, 1)], [(0, 2), (1, -1)]]) [-1, -2]
        [none, none] [some 5, some 2] [some 0, some 0] [none, none] = .ok first ∧
      first.solver.SearchesFrom state ∧
      State.comeToRest first.solver.problem state = .ok t ∧
      t.isDualFeasible first.solver.problem = false ∧
      State.runSurrogate first.solver.problem first.solver.config true t = .ok (u, .verdict .optimal) ∧
      first.solver.problem.objectiveValue u.values = 0 ∧
      State.comeToRest first.solver.problem (u.record .phaseOneFeasible) = .ok v ∧
      v.basis = u.basis ∧ v.isDualFeasible first.solver.problem = true := by
  have hrun : (create { refactorInterval := 1 }
      (.ofRowList (n := 2) [[(0, 1), (1, 1)], [(0, 2), (1, -1)]]) [-1, -2]
      [none, none] [some 5, some 2] [some 0, some 0] [none, none]).toOption.any
      (fun first => decide first.solver.problem.matrix.Distinct &&
        decide (first.solver.seeded.1.guess = none) &&
        (first.solver.seeded.1.startState first.solver.seeded.2.1).toOption.any fun state =>
          (State.comeToRest first.solver.problem state).toOption.any fun t =>
            !t.isDualFeasible first.solver.problem &&
            (State.runSurrogate first.solver.problem first.solver.config true t).toOption.any fun result =>
              decide (result.2 = .verdict .optimal ∧
                first.solver.problem.objectiveValue result.1.values = 0)) = true := by decide +kernel
  obtain ⟨first, hfirst, hrun⟩ := exists_of_toOption_any hrun
  obtain ⟨hstart, hrun⟩ := Bool.and_eq_true_iff.mp hrun
  obtain ⟨hrows, hguess⟩ := Bool.and_eq_true_iff.mp hstart
  obtain ⟨state, hstate, hrun⟩ := exists_of_toOption_any hrun
  obtain ⟨t, ht, hrun⟩ := exists_of_toOption_any hrun
  obtain ⟨hinfeasible, hrun⟩ := Bool.and_eq_true_iff.mp hrun
  obtain ⟨⟨u, ending⟩, hu, hrun⟩ := exists_of_toOption_any hrun
  obtain ⟨rfl, h0⟩ := of_decide_eq_true hrun
  have hstore : (MatrixStore.ofRowList (n := 2) [[(0, 1), (1, 1)], [(0, 2), (1, -1)]]).Built :=
    .compressed (rfl : MatrixStore.ofCompressed [1, 1, 2, -1] [0, 1, 0, 1] [0, 2, 4] 2 = _)
  have hopened : Opened first := ⟨_, _, _, _, _, _, _, first, [], hstore, hfirst, rfl⟩
  have hrows := of_decide_eq_true hrows
  have hsearches : first.solver.SearchesFrom state := .plain hstate (of_decide_eq_true hguess)
  have hsound := hopened.consistent.sound hrows
  obtain ⟨t', ht', hset, _⟩ := (hsearches.sound hsound).comeToRest_eq hsound.simple.toMirrored
  cases ht'.symm.trans ht
  obtain ⟨v, hv, hb, hfeasible⟩ :=
    ((hopened.phaseOne_hands_over hrows).1 _ t rfl hset.toSound).feasible true u hu h0
  exact ⟨first, state, t, u, v, hfirst, hsearches, ht, Bool.not_eq_true' _ ▸ hinfeasible, hu, h0, hv, hb,
    hfeasible⟩

end Session

end ExactSimplex
