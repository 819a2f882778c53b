import ExactSimplex.Proofs.Coefficients
import ExactSimplex.Proofs.Safety
import ExactSimplex.Proofs.Visits

/-! # What a pass finds and what a pivot does to it

Values and reduced costs are carried along from pivot to pivot and never computed anew within a loop.
At the top of every pass they are nevertheless what a computation from the basis, the costs and the
nonbasic values would give. The nonbasic variables rest where their reduced costs want them; a pivot
keeps that and never lowers the objective value.
-/
namespace ExactSimplex
open Matrix
variable {n m : ℕ}

namespace Problem
variable {P : Problem n m} {b : Basis n m}

/-- The matrix whose columns are those of the nonbasic variables. -/
def nonbasicMatrix (P : Problem n m) (b : Basis n m) : Matrix (Fin m) (Fin n) ℚ :=
  Matrix.of fun i k => P.entry i (b.nonbasic.get k)

theorem vecMul_nonbasicMatrix (P : Problem n m) (b : Basis n m) (y : Fin m → ℚ) (k : Fin n) :
    ((P.nonbasicMatrix b)ᵀ *ᵥ y) k = P.combination y (b.nonbasic.get k) := by
  rw [mulVec, dotProduct, combination]
  exact Finset.sum_congr rfl fun i _ => mul_comm _ _

/-- The multipliers that price the basic variables are those that the inverse gives. -/
theorem reducedCost_inverse (hu : IsUnit (P.basisMatrix b)) (r : Fin m) :
    P.reducedCost ((P.basisMatrix b)⁻¹ᵀ *ᵥ fun i => P.cost (b.basic.get i)) (b.basic.get r) = 0 := by
  have hone : (P.basisMatrix b)ᵀ * (P.basisMatrix b)⁻¹ᵀ = 1 := by
    rw [← transpose_mul, nonsing_inv_mul _ ((isUnit_iff_isUnit_det _).mp hu), transpose_one]
  rw [reducedCost, ← vecMul_basisMatrix, mulVec_mulVec, hone, one_mulVec, sub_self]

end Problem

namespace State
variable {P : Problem n m} {s t : State n m}

/-- Values and reduced costs are those that follow from the basis, the costs and the nonbasic values:
`B x_B + N x_N = 0` and `d_N = c_N - Nᵀ B⁻ᵀ c_B`. -/
structure Recomputed (P : Problem n m) (s : State n m) : Prop where
  primal : s.computePrimal P = some s
  dual : s.computeDual P = some s
  regular : IsUnit (P.basisMatrix s.basis)
  rows_eq : P.basisMatrix s.basis *ᵥ (fun i => s.values.get (s.basis.basic.get i)) +
    P.nonbasicMatrix s.basis *ᵥ (fun k => s.values.get (s.basis.nonbasic.get k)) = 0
  reduced_eq : ∀ k, s.reduced.get k = P.cost (s.basis.nonbasic.get k) -
    ((P.nonbasicMatrix s.basis)ᵀ *ᵥ
      ((P.basisMatrix s.basis)⁻¹ᵀ *ᵥ fun i => P.cost (s.basis.basic.get i))) k

theorem Settled.computePrimal_self (h : s.Settled P) (hA : P.matrix.Mirrored) :
    s.computePrimal P = some s := by
  obtain ⟨x, hx, hbalanced, hkeep⟩ := h.computePrimal_eq hA
  have hxs : x = s.values := by
    refine PerVar.ext_get fun v => ?_
    have heq := hbalanced.eq_of_nonbasic h.basis h.isUnit h.balanced fun k =>
      hkeep _ (h.basis.isBasic_nonbasic k)
    exact congrFun heq v
  rw [hx, hxs]

theorem Settled.computeDual_self (h : s.Settled P) : s.computeDual P = some s := by
  obtain ⟨d, hd, z, hz⟩ := h.computeDual_eq
  obtain ⟨y, hy⟩ := h.priced
  have hyz : y = z := by
    refine h.priced_unique (fun r => ?_) fun r => ?_
    · rw [hy, h.basis.spread_basic]
    · rw [hz, h.basis.spread_basic]
  have hds : d = s.reduced := by
    refine table_ext fun k => ?_
    rw [← h.basis.spread_nonbasic d, ← h.basis.spread_nonbasic s.reduced, ← hz, ← hy, hyz]
  rw [hd, hds]

theorem Settled.recomputed (h : s.Settled P) (hA : P.matrix.Mirrored) : s.Recomputed P where
  primal := h.computePrimal_self hA
  dual := h.computeDual_self
  regular := h.isUnit
  rows_eq := by
    funext i
    have hi := h.balanced i
    rw [h.basis.sum_eq] at hi
    exact hi
  reduced_eq k := by
    obtain ⟨y, hy⟩ := h.priced
    have hinverse : y = (P.basisMatrix s.basis)⁻¹ᵀ *ᵥ fun i => P.cost (s.basis.basic.get i) := by
      refine h.priced_unique (fun r => ?_) (P.reducedCost_inverse h.isUnit)
      rw [hy, h.basis.spread_basic]
    rw [← hinverse, P.vecMul_nonbasicMatrix, ← h.basis.spread_nonbasic s.reduced, ← hy]
    rfl

/-- The nonbasic variables rest at bounds, and these agree with the reduced costs. -/
def RestsFeasibly (P : Problem n m) (s : State n m) : Prop :=
  (∀ v, s.basis.isBasic v = false → (P.bounds.get v).Rests (s.values.get v)) ∧
    s.isDualFeasible P = true

theorem Ready.restsFeasibly (h : s.Ready P) : s.RestsFeasibly P :=
  ⟨h.rests, (isDualFeasible_iff h.toSettled).mpr h⟩

/-- The variable is the only one that has left the basis, and it is at the bound that it violated
before. -/
structure LeavesAtBound (P : Problem n m) (s t : State n m) (v : Var n m) : Prop where
  only : ∀ w, s.basis.isBasic w = true ∧ t.basis.isBasic w = false ↔ w = v
  bound : ∃ side, (P.bounds.get v).get side = some (t.values.get v) ∧
    0 < side.sign * (s.values.get v - t.values.get v)

theorem Pivots.leavesAtBound {bland : Bool} {μ : Move n m}
    (hp : Pivots P bland s.toPoint t.toPoint μ) : LeavesAtBound P s t μ.leaving where
  only w := by
    rw [hp.isBasic_eq]
    constructor
    · rintro ⟨hw, ht⟩
      by_contra hne
      rw [if_neg hne, hw] at ht
      simp at ht
    · rintro rfl
      rw [if_neg hp.leaving_ne_entering, if_pos rfl]
      exact ⟨hp.leaving_basic, rfl⟩
  bound := by
    rw [hp.value_leaving]
    exact ⟨μ.side, hp.bound_eq, hp.violated⟩

section Next
variable {cfg : Config} {mayStall : Bool} {p p' : Progress}

/-- A pass that hands over has chosen a leaving variable and pivots, with some notes taken. -/
theorem exists_pivot_of_pass (hn : s.pass P cfg mayStall p = .ok (t, .next p')) : ∃ log q l,
    s.chooseLeaving P q.bland = some (some l) ∧
    ({ s with log := log } : State n m).pivot P cfg q l = .ok (t, .next p') := by
  unfold pass at hn
  dsimp only at hn
  split at hn
  · cases hn
  generalize p.observe cfg.cycleThreshold (P.objectiveValue s.values) = observed at hn
  obtain ⟨q, events⟩ := observed
  obtain ⟨log, hlog⟩ := s.recordAll_eq events
  dsimp only at hn
  rw [hlog] at hn
  split at hn
  · cases hn
  obtain ⟨choice, hchoice, hn⟩ := exists_of_bind_eq_ok hn
  cases choice with
  | none => cases hn
  | some l =>
    exact ⟨log.push (.leaves q.iterations l.var.index l.row), q, l, eq_some_of_divided hchoice, hn⟩

/-- A pivot that hands over has found a variable that enters. -/
theorem Underway.pivot_next (h : s.Underway P) {l : Leaving n m} (hl : s.Leaves P l)
    (hlow : p.bland = true → ∀ i, (s.basis.basic.get i).index < l.var.index →
      (P.bounds.get (s.basis.basic.get i)).Contains (s.values.get (s.basis.basic.get i)))
    (hn : s.pivot P cfg p l = .ok (t, .next p')) : ∃ rho e, p'.bland = p.bland ∧
    s.factors.solveTransposed (Vec.unit l.row) = some rho ∧ t.Ready P ∧
    Pivots P p.bland s.toPoint t.toPoint (s.moveOf P l e) := by
  obtain ⟨rho, hrho, _⟩ := h.ready.pivotRow_eq l.row
  cases he : s.chooseEntering P p.bland l (P.nonbasicProduct s.basis.place rho) with
  | none =>
    unfold pivot at hn
    rw [hrho] at hn
    simp only [divided, bind, Except.bind, he] at hn
    cases hn
  | some e =>
    obtain ⟨_, ht, hready, _, _, hpivots⟩ :=
      h.ready.pivot_eq h.simple h.consistent cfg p hl hlow hrho he
    cases ht.symm.trans hn
    exact ⟨rho, e, rfl, hrho, hready, hpivots⟩

/-- A pass that hands over has exchanged the leaving variable of the rule that it followed. -/
theorem Underway.pass_next (h : s.Underway P) (hn : s.pass P cfg mayStall p = .ok (t, .next p')) :
    ∃ l rho e, s.chooseLeaving P p'.bland = some (some l) ∧
    s.factors.solveTransposed (Vec.unit l.row) = some rho ∧ t.Ready P ∧
    Pivots P p'.bland s.toPoint t.toPoint (s.moveOf P l e) := by
  obtain ⟨log, q, l, hchosen, hpivot⟩ := exists_pivot_of_pass hn
  -- what has been chosen does not depend on the notes
  have h' : ({ s with log := log } : State n m).Underway P :=
    ⟨h.simple, h.consistent, h.ready.of_eq rfl rfl rfl⟩
  rcases h.ready.chooseLeaving_cases q.bland with ⟨hnone, _⟩ | ⟨_, hsome, hl, hlow⟩
  · cases hnone.symm.trans hchosen
  · cases hsome.symm.trans hchosen
    obtain ⟨rho, e, hbland, hrho, hready, hpivots⟩ :=
      h'.pivot_next ⟨hl.var_eq, hl.bound_eq, hl.violated⟩ hlow hpivot
    rw [hbland]
    exact ⟨l, rho, e, hchosen, hrho, hready, hpivots⟩

/-- When all candidates have positive ratios, so have all variables that can move. -/
theorem Underway.objectiveValue_lt (h : s.Underway P) {l : Leaving n m} {rho : Vec m} {e : Entering n m}
    {bland : Bool} (hrho : s.factors.solveTransposed (Vec.unit l.row) = some rho)
    (hp : Pivots P bland s.toPoint t.toPoint (s.moveOf P l e))
    (hpos : ∀ c ∈ s.candidates P l.side (P.nonbasicProduct s.basis.place rho), 0 < c.1) :
    P.objectiveValue s.values < P.objectiveValue t.values := by
  obtain ⟨rho', hrho', _, hrow⟩ := h.ready.pivotRow_eq l.row
  cases hrho'.symm.trans hrho
  refine hp.objectiveValue_lt h.ready h.consistent fun v hv hne heligible => ?_
  obtain ⟨k, rfl⟩ := h.ready.basis.isBasic_eq_false_iff.mp hv
  rw [moveOf_row_nonbasic] at hne heligible ⊢
  have hk : Candidate P s l.side (P.nonbasicProduct s.basis.place rho) k := by
    rw [Candidate, towards_eq, hrow]
    exact ⟨hne, heligible⟩
  have hratio := hpos _ hk.mem
  rwa [ratio, towards_eq, hrow, ← h.ready.basis.spread_nonbasic s.reduced] at hratio

end Next

end State

namespace Session
variable {s : Session} {Q : Problem s.columns s.rows} {u : State s.columns s.rows}

theorem Opened.underway (h : s.Opened) (hrows : s.solver.problem.matrix.Distinct)
    (hu : s.solver.Visits Q u) : u.Underway Q :=
  hu.underway (h.consistent.sound hrows)

/-- At the top of every pass of a solve the values and the reduced costs are those that would be computed
anew, and so they are after a pivot, which leaves the variable that it takes from the basis at the bound
that was violated. -/
theorem Opened.iterates_recomputed (h : s.Opened) (hrows : s.solver.problem.matrix.Distinct)
    (hu : s.solver.Visits Q u) : u.Recomputed Q ∧
    ∀ mayStall p t p', u.pass Q s.solver.config mayStall p = .ok (t, .next p') →
      t.Recomputed Q ∧ ∃ v, State.LeavesAtBound Q u t v := by
  have hway := h.underway hrows hu
  have hmirrored := hway.simple.toMirrored
  refine ⟨hway.ready.toSettled.recomputed hmirrored, fun mayStall p t p' hn => ?_⟩
  obtain ⟨l, rho, e, _, _, hready, hpivots⟩ := hway.pass_next hn
  exact ⟨hready.toSettled.recomputed hmirrored, _, hpivots.leavesAtBound⟩

/-- The second pass of a solve: the entering variable is the only one that is passed, and the factors are
renewed. -/
theorem iterates_recomputed_of_passed_entering :
    ∃ first : Session, ∃ Q u t p',
      create { refactorInterval := 2 } (.ofRowList (n := 3) [[(0, 1), (1, 1)], [(0, 1), (2, 1)]]) [1, 3, 2]
        [some 5, some 5] [none, none] [some 0, some 0, some 0] [some 3, some 1, some 1] = .ok first ∧
      first.solver.problem.matrix.Distinct ∧ first.solver.Visits Q u ∧ u.Recomputed Q ∧
      u.pass Q first.solver.config true {} = .ok (t, .next p') ∧
      u.values.structural.toList = [3, 2, 0] ∧ t.values.structural.toList = [3, 2, 2] ∧
      t.Recomputed Q ∧ ∃ v, State.LeavesAtBound Q u t v := by
  have hrun : (create { refactorInterval := 2 }
      (.ofRowList (n := 3) [[(0, 1), (1, 1)], [(0, 1), (2, 1)]]) [1, 3, 2]
      [some 5, some 5] [none, none] [some 0, some 0, some 0] [some 3, some 1, some 1]).toOption.any
      (fun first => decide first.solver.problem.matrix.Distinct && (first.solver.firstTop? 1).any fun top =>
        (top.2.pass top.1 first.solver.config true {}).toOption.any fun result =>
          match result.2 with
          | .next _ => decide (top.2.values.structural.toList = [3, 2, 0] ∧
              result.1.values.structural.toList = [3, 2, 2])
          | .stop _ => false) = true := by decide +kernel
  obtain ⟨first, hfirst, hrun⟩ := exists_of_toOption_any hrun
  obtain ⟨hrows, hrun⟩ := Bool.and_eq_true_iff.mp hrun
  obtain ⟨⟨Q, u⟩, htop, hrun⟩ := (Option.any_eq_true _ _).mp hrun
  obtain ⟨⟨t, result⟩, hpass, hrun⟩ := exists_of_toOption_any hrun
  cases result with
  | stop ending => cases hrun
  | next p' =>
    obtain ⟨hbefore, hafter⟩ := of_decide_eq_true hrun
    have hstore : (MatrixStore.ofRowList (n := 3) [[(0, 1), (1, 1)], [(0, 1), (2, 1)]]).Built :=
      .compressed (rfl : MatrixStore.ofCompressed [1, 1, 1, 1] [0, 1, 0, 2] [0, 2, 4] 3 = _)
    have hopened : Opened first := ⟨_, _, _, _, _, _, _, first, [], hstore, hfirst, rfl⟩
    have hvisits := Solver.visits_of_firstTop? htop
    obtain ⟨hu, hnext⟩ := hopened.iterates_recomputed (of_decide_eq_true hrows) hvisits
    exact ⟨first, Q, u, t, p', hfirst, of_decide_eq_true hrows, hvisits, hu, hpass, hbefore, hafter,
      hnext _ _ _ _ hpass⟩

/-- At the top of every pass of a solve the nonbasic variables rest where their reduced costs want them.
A pivot keeps that and never lowers the objective value, and it raises it when all the ratios of the
candidates are positive. -/
theorem Opened.pivots_ascend (h : s.Opened) (hrows : s.solver.problem.matrix.Distinct)
    (hu : s.solver.Visits Q u) : u.RestsFeasibly Q ∧
    ∀ mayStall p t p', u.pass Q s.solver.config mayStall p = .ok (t, .next p') →
      t.RestsFeasibly Q ∧ Q.objectiveValue u.values ≤ Q.objectiveValue t.values ∧
      ∃ l rho, u.chooseLeaving Q p'.bland = some (some l) ∧
        u.factors.solveTransposed (Vec.unit l.row) = some rho ∧
        ((∀ c ∈ u.candidates Q l.side (Q.nonbasicProduct u.basis.place rho), 0 < c.1) →
          Q.objectiveValue u.values < Q.objectiveValue t.values) := by
  have hway := h.underway hrows hu
  refine ⟨hway.ready.restsFeasibly, fun mayStall p t p' hn => ?_⟩
  obtain ⟨l, rho, e, hl, hrho, hready, hpivots⟩ := hway.pass_next hn
  exact ⟨hready.restsFeasibly, hpivots.objectiveValue_le hway.ready, l, rho, hl, hrho,
    hway.objectiveValue_lt hrho hpivots⟩

/-- A pass of phase one that follows Bland's rule. Both candidates have positive ratios. -/
theorem pivots_ascend_of_surrogate :
    ∃ first : Session, ∃ Q u t p',
      create { refactorInterval := 1 } (.ofRowList (n := 2) [[(0, 1), (1, 1)], [(0, 1), (1, -1)]]) [-1, -2]
        [some 5, some 2] [none, none] [some 0, some 0] [none, none] = .ok first ∧
      first.solver.problem.matrix.Distinct ∧ first.solver.Visits Q u ∧ u.RestsFeasibly Q ∧
      u.pass Q first.solver.config true { bland := true } = .ok (t, .next p') ∧ t.RestsFeasibly Q ∧
      Q.objectiveValue u.values = -3 ∧ Q.objectiveValue u.values < Q.objectiveValue t.values := by
  have hrun : (create { refactorInterval := 1 }
      (.ofRowList (n := 2) [[(0, 1), (1, 1)], [(0, 1), (1, -1)]]) [-1, -2]
      [some 5, some 2] [none, none] [some 0, some 0] [none, none]).toOption.any
      (fun first => decide first.solver.problem.matrix.Distinct && (first.solver.firstTop? 0).any fun top =>
        (top.2.pass top.1 first.solver.config true { bland := true }).toOption.any fun result =>
          decide (top.1.objectiveValue top.2.values = -3) &&
          match result.2 with
          | .next p' => (top.2.chooseLeaving top.1 p'.bland).any fun choice => choice.any fun l =>
              (top.2.factors.solveTransposed (Vec.unit l.row)).any fun rho =>
                (top.2.candidates top.1 l.side (top.1.nonbasicProduct top.2.basis.place rho)).all
                  fun c => decide (0 < c.1)
          | .stop _ => false) = true := by decide +kernel
  obtain ⟨first, hfirst, hrun⟩ := exists_of_toOption_any hrun
  obtain ⟨hrows, hrun⟩ := Bool.and_eq_true_iff.mp hrun
  obtain ⟨⟨Q, u⟩, htop, hrun⟩ := (Option.any_eq_true _ _).mp hrun
  obtain ⟨⟨t, result⟩, hpass, hrun⟩ := exists_of_toOption_any hrun
  obtain ⟨hbefore, hrun⟩ := Bool.and_eq_true_iff.mp hrun
  cases result with
  | stop ending => cases hrun
  | next p' =>
    have hstore : (MatrixStore.ofRowList (n := 2) [[(0, 1), (1, 1)], [(0, 1), (1, -1)]]).Built :=
      .compressed (rfl : MatrixStore.ofCompressed [1, 1, 1, -1] [0, 1, 0, 1] [0, 2, 4] 2 = _)
    have hopened : Opened first := ⟨_, _, _, _, _, _, _, first, [], hstore, hfirst, rfl⟩
    have hvisits := Solver.visits_of_firstTop? htop
    obtain ⟨hu, hnext⟩ := hopened.pivots_ascend (of_decide_eq_true hrows) hvisits
    obtain ⟨ht, _, l, rho, hl, hrho, hlt⟩ := hnext _ _ _ _ hpass
    dsimp only at hrun
    rw [hl, Option.any_some, Option.any_some, hrho, Option.any_some, List.all_eq_true] at hrun
    exact ⟨first, Q, u, t, p', hfirst, of_decide_eq_true hrows, hvisits, hu, hpass, ht,
      of_decide_eq_true hbefore, hlt fun c hc => of_decide_eq_true (hrun c hc)⟩

end Session

end ExactSimplex
