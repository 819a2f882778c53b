import ExactSimplex.Proofs.Search.Exchange

/-! # What a pass does

Everything a pass can do to a ready state is said once, in terms of variables: it stops with a
reason, or a basic variable outside of its bounds changes places with a nonbasic one. From that
follow that the state stays ready and that the objective value never decreases.
-/
namespace ExactSimplex
open Matrix
variable {n m : ℕ}

/-- An exchange of two variables. The row is the equation of the leaving variable as seen from the
side that it violates, the step is how far the reduced costs move along it, and the change is what
the flips do to the nonbasic variables. -/
structure Move (n m : ℕ) where
  leaving : Var n m
  entering : Var n m
  side : Side
  target : ℚ
  row : Var n m → ℚ
  step : ℚ
  change : Var n m → ℚ

def Move.violation (μ : Move n m) (x : PerVar ℚ n m) : ℚ :=
  μ.side.sign * (x.get μ.leaving - μ.target)

/-- A cost that pushes towards a bound keeps the value there. -/
theorem Bounds.supports_of_get {b : Bounds} {side : Side} {x t : ℚ} (hb : b.get side = some x)
    (ht : 0 ≤ t) : b.Supports x (-(t * side.sign)) := by
  cases side with
  | lower => exact Bounds.supports_of_lower hb (Or.inl (by simpa [Side.sign] using ht))
  | upper => exact Bounds.supports_of_upper hb (Or.inl (by simpa [Side.sign] using ht))

namespace State
variable {P : Problem n m} {s t : State n m} {bland : Bool} {μ : Move n m}

structure Pivots (P : Problem n m) (bland : Bool) (s t : Point n m) (μ : Move n m) : Prop where
  leaving_basic : s.basis.isBasic μ.leaving = true
  entering_nonbasic : s.basis.isBasic μ.entering = false
  bound_eq : (P.bounds.get μ.leaving).get μ.side = some μ.target
  violated : 0 < μ.violation s.values
  row_eq : ∃ rho, ∀ v, μ.row v = P.combination rho v
  row_leaving : μ.row μ.leaving = μ.side.sign
  row_basic : ∀ v, s.basis.isBasic v = true → v ≠ μ.leaving → μ.row v = 0
  row_entering : μ.row μ.entering ≠ 0
  eligible : isEligible (P.bounds.get μ.entering) (s.values.get μ.entering) (μ.row μ.entering) = true
  step_nonneg : 0 ≤ μ.step
  step_eq : s.basis.spread s.reduced μ.entering = μ.step * μ.row μ.entering
  change_basic : ∀ v, s.basis.isBasic v = true → μ.change v = 0
  gain : ∀ v, 0 ≤ s.basis.spread s.reduced v * μ.change v
  bounded : ∑ v, μ.row v * μ.change v ≤ μ.violation s.values
  rests : ∀ v, s.basis.isBasic v = false →
    (P.bounds.get v).Rests (s.values.get v + μ.change v)
  supports : ∀ v, s.basis.isBasic v = false → (P.bounds.get v).Supports
    (s.values.get v + μ.change v) (s.basis.spread s.reduced v - μ.step * μ.row v)
  isBasic_eq : ∀ v, t.basis.isBasic v =
    if v = μ.entering then true else if v = μ.leaving then false else s.basis.isBasic v
  balanced : P.Balanced t.values.get
  value_leaving : t.values.get μ.leaving = μ.target
  value_nonbasic : ∀ v, s.basis.isBasic v = false → v ≠ μ.entering →
    t.values.get v = s.values.get v + μ.change v
  spread_eq : ∀ v, t.basis.spread t.reduced v = s.basis.spread s.reduced v - μ.step * μ.row v
  unflipped : bland = true → ∀ v, μ.change v = 0
  lowest_leaving : bland = true → ∀ v, s.basis.isBasic v = true → v.index < μ.leaving.index →
    (P.bounds.get v).Contains (s.values.get v)
  lowest_entering : bland = true → ∀ v, s.basis.isBasic v = false → μ.row v ≠ 0 →
    isEligible (P.bounds.get v) (s.values.get v) (μ.row v) = true →
    s.basis.spread s.reduced v = μ.step * μ.row v → μ.entering.index ≤ v.index

namespace Pivots

theorem sum_row (hp : Pivots P bland s.toPoint t.toPoint μ) {z : Var n m → ℚ} (hz : P.Balanced z) :
    ∑ v, μ.row v * z v = 0 := by
  obtain ⟨rho, hrho⟩ := hp.row_eq
  simp only [hrho]
  exact hz.sum_combination rho

theorem leaving_ne_entering (hp : Pivots P bland s.toPoint t.toPoint μ) : μ.leaving ≠ μ.entering := by
  intro h
  have hb := hp.leaving_basic
  rw [h, hp.entering_nonbasic] at hb
  cases hb

theorem priced (h : s.Ready P) (hp : Pivots P bland s.toPoint t.toPoint μ) :
    ∃ y, ∀ v, P.reducedCost y v = t.basis.spread t.reduced v := by
  obtain ⟨y, hy⟩ := h.priced
  obtain ⟨rho, hrho⟩ := hp.row_eq
  refine ⟨fun k => y k + μ.step * rho k, fun v => ?_⟩
  rw [hp.spread_eq, ← hy, hrho, Problem.reducedCost, Problem.reducedCost, P.combination_add,
    P.combination_smul]
  ring

/-- After a pivot the variables are where their reduced costs want them. -/
theorem supports_next (h : s.Ready P) (hp : Pivots P bland s.toPoint t.toPoint μ) (hb : t.basis.Valid)
    (v : Var n m) : (P.bounds.get v).Supports (t.values.get v) (t.basis.spread t.reduced v) := by
  by_cases hq : v = μ.entering
  · rw [hb.spread_of_isBasic _ (by rw [hp.isBasic_eq, if_pos hq])]
    exact Bounds.supports_zero
  · by_cases hl : v = μ.leaving
    · have hz := h.basis.spread_of_isBasic s.reduced hp.leaving_basic
      rw [hl, hp.spread_eq, hz, hp.row_leaving, hp.value_leaving, zero_sub]
      exact Bounds.supports_of_get hp.bound_eq hp.step_nonneg
    · cases hv : s.basis.isBasic v with
      | true =>
        rw [hb.spread_of_isBasic _ (by rw [hp.isBasic_eq, if_neg hq, if_neg hl, hv])]
        exact Bounds.supports_zero
      | false =>
        rw [hp.spread_eq, hp.value_nonbasic v hv hq]
        exact hp.supports v hv

theorem ready (h : s.Ready P) (hp : Pivots P bland s.toPoint t.toPoint μ) (ht : t.Sound P) : t.Ready P where
  toSound := ht
  balanced := hp.balanced
  priced := hp.priced h
  rests v hv := by
    rw [hp.isBasic_eq] at hv
    split at hv
    · cases hv
    · next hq =>
      split at hv
      · next hl =>
        rw [hl, hp.value_leaving]
        have hb := hp.bound_eq
        cases hs : μ.side with
        | lower =>
          rw [hs] at hb
          exact Or.inl hb
        | upper =>
          rw [hs] at hb
          exact Or.inr (Or.inl hb)
      · rw [hp.value_nonbasic v hv hq]
        exact hp.rests v hv
  supports := hp.supports_next h ht.basis

/-- The objective value grows with the step and the violation; flips take some of that back. -/
theorem objectiveValue_eq (h : s.Ready P) (hp : Pivots P bland s.toPoint t.toPoint μ) :
    P.objectiveValue t.values = P.objectiveValue s.values + μ.step * μ.violation s.values +
      ∑ v, (s.basis.spread s.reduced v - μ.step * μ.row v) * μ.change v := by
  obtain ⟨y, hy⟩ := hp.priced h
  have hterm : ∀ v, P.reducedCost y v * (t.values.get v - s.values.get v) =
      (if μ.leaving = v then μ.step * μ.violation s.values else 0) +
        (s.basis.spread s.reduced v - μ.step * μ.row v) * μ.change v := by
    intro v
    rw [hy, hp.spread_eq]
    by_cases hl : μ.leaving = v
    · have hz := h.basis.spread_of_isBasic s.reduced hp.leaving_basic
      rw [if_pos hl, ← hl, hz, hp.row_leaving, hp.value_leaving, hp.change_basic _ hp.leaving_basic,
        Move.violation]
      ring
    · rw [if_neg hl, zero_add]
      cases hv : s.basis.isBasic v with
      | true =>
        rw [h.basis.spread_of_isBasic _ hv, hp.row_basic v hv (Ne.symm hl)]
        ring
      | false =>
        by_cases hq : v = μ.entering
        · rw [hq, hp.step_eq]
          ring
        · rw [hp.value_nonbasic v hv hq, add_sub_cancel_left]
  have hdiff : ∑ v, P.reducedCost y v * (t.values.get v - s.values.get v) =
      P.objectiveValue t.values - P.objectiveValue s.values := by
    rw [P.objectiveValue_eq_sum, P.objectiveValue_eq_sum, hp.balanced.sum_cost_eq y,
      h.balanced.sum_cost_eq y, ← Finset.sum_sub_distrib]
    exact Finset.sum_congr rfl fun v _ => mul_sub _ _ _
  simp only [hterm, Finset.sum_add_distrib] at hdiff
  rw [Finset.sum_ite_eq Finset.univ μ.leaving, if_pos (Finset.mem_univ _)] at hdiff
  linarith

theorem objectiveValue_le (h : s.Ready P) (hp : Pivots P bland s.toPoint t.toPoint μ) :
    P.objectiveValue s.values ≤ P.objectiveValue t.values := by
  have hsum : -(μ.step * ∑ v, μ.row v * μ.change v) ≤
      ∑ v, (s.basis.spread s.reduced v - μ.step * μ.row v) * μ.change v := by
    rw [Finset.mul_sum, ← Finset.sum_neg_distrib]
    refine Finset.sum_le_sum fun v _ => ?_
    have hg := hp.gain v
    linarith
  have hbound := mul_le_mul_of_nonneg_left hp.bounded hp.step_nonneg
  rw [hp.objectiveValue_eq h]
  linarith

/-- When no variable that can move has a reduced cost of zero, the objective value grows: with the step
if the flips leave something of the violation, else with the flips. -/
theorem objectiveValue_lt (h : s.Ready P) (hc : ∀ v, (P.bounds.get v).Consistent)
    (hp : Pivots P bland s.toPoint t.toPoint μ)
    (hpos : ∀ v, s.basis.isBasic v = false → μ.row v ≠ 0 →
      isEligible (P.bounds.get v) (s.values.get v) (μ.row v) = true →
      0 < s.basis.spread s.reduced v / μ.row v) :
    P.objectiveValue s.values < P.objectiveValue t.values := by
  have hstep : 0 < μ.step := by
    have hd := hpos _ hp.entering_nonbasic hp.row_entering hp.eligible
    rwa [hp.step_eq, mul_div_cancel_right₀ _ hp.row_entering] at hd
  have hgain : 0 ≤ ∑ v, s.basis.spread s.reduced v * μ.change v :=
    Finset.sum_nonneg fun v _ => hp.gain v
  have hobj : P.objectiveValue t.values = P.objectiveValue s.values +
      μ.step * (μ.violation s.values - ∑ v, μ.row v * μ.change v) +
        ∑ v, s.basis.spread s.reduced v * μ.change v := by
    have hsum : ∑ v, (s.basis.spread s.reduced v - μ.step * μ.row v) * μ.change v =
        ∑ v, s.basis.spread s.reduced v * μ.change v - μ.step * ∑ v, μ.row v * μ.change v := by
      rw [Finset.mul_sum, ← Finset.sum_sub_distrib]
      exact Finset.sum_congr rfl fun v _ => by ring
    rw [hp.objectiveValue_eq h, hsum]
    ring
  rw [hobj]
  rcases hp.bounded.lt_or_eq with hlt | heq
  · have hleft := mul_pos hstep (sub_pos.mpr hlt)
    linarith
  · -- the flips have used up the violation, so one of them has made it smaller
    obtain ⟨v, _, hv⟩ : ∃ v ∈ Finset.univ, 0 < μ.row v * μ.change v :=
      Finset.exists_lt_of_sum_lt (f := fun _ => (0 : ℚ)) (by
        rw [Finset.sum_const_zero, heq]
        exact hp.violated)
    have hchange : μ.change v ≠ 0 := right_ne_zero_of_mul hv.ne'
    have hnonbasic : s.basis.isBasic v = false := by
      cases hb : s.basis.isBasic v with
      | false => rfl
      | true => exact absurd (hp.change_basic v hb) hchange
    have heligible := isEligible_of_moved (hc v) (h.rests v hnonbasic) (hp.rests v hnonbasic) hv
    have hd := hpos v hnonbasic (left_ne_zero_of_mul hv.ne') heligible
    have hvgain : 0 < s.basis.spread s.reduced v * μ.change v := by
      refine lt_of_le_of_ne (hp.gain v) (Ne.symm (mul_ne_zero ?_ hchange))
      rintro hzero
      rw [hzero, zero_div] at hd
      exact lt_irrefl 0 hd
    have hle := Finset.single_le_sum (f := fun v => s.basis.spread s.reduced v * μ.change v)
      (fun w _ => hp.gain w) (Finset.mem_univ v)
    rw [heq, sub_self, mul_zero, add_zero]
    linarith

/-- By Bland's rule the objective value stays the same only with a step of zero. -/
theorem step_eq_zero (h : s.Ready P) (hp : Pivots P true s.toPoint t.toPoint μ)
    (he : P.objectiveValue t.values = P.objectiveValue s.values) : μ.step = 0 := by
  have hobj := hp.objectiveValue_eq h
  simp only [hp.unflipped rfl, mul_zero, Finset.sum_const_zero, add_zero] at hobj
  have hz : μ.step * μ.violation s.values = 0 := by linarith
  exact (mul_eq_zero.mp hz).resolve_right hp.violated.ne'

end Pivots

/-- The variable is outside of its bounds, and no nonbasic variable can move so that the violation
shrinks. -/
def Stuck (P : Problem n m) (s : State n m) (v : Var n m) : Prop :=
  ∃ l : Leaving n m, l.var = v ∧ s.Leaves P l ∧ ∀ k,
    l.side.sign * P.tableau s.basis l.row k = 0 ∨
      isEligible (P.bounds.get (s.basis.nonbasic.get k)) (s.values.get (s.basis.nonbasic.get k))
        (l.side.sign * P.tableau s.basis l.row k) = false

noncomputable def moveOf (P : Problem n m) (s : State n m) (l : Leaving n m) (e : Entering n m) :
    Move n m where
  leaving := l.var
  entering := s.basis.nonbasic.get e.position
  side := l.side
  target := s.leavingTarget P l
  row v := l.side.sign * P.combination (P.inverseRow s.basis l.row) v
  step := s.reduced.get e.position / (l.side.sign * P.tableau s.basis l.row e.position)
  change := totalChange e.flips

theorem moveOf_row_basic (hu : IsUnit (P.basisMatrix s.basis)) (l : Leaving n m) (e : Entering n m)
    (i : Fin m) :
    (s.moveOf P l e).row (s.basis.basic.get i) = if l.row = i then l.side.sign else 0 := by
  change l.side.sign * P.combination (P.inverseRow s.basis l.row) (s.basis.basic.get i) = _
  rw [Problem.combination_inverseRow hu, mul_ite, mul_one, mul_zero]

theorem moveOf_row_nonbasic (P : Problem n m) (s : State n m) (l : Leaving n m) (e : Entering n m)
    (k : Fin n) : (s.moveOf P l e).row (s.basis.nonbasic.get k) =
      l.side.sign * P.tableau s.basis l.row k := rfl

/-- A chosen pair of variables that has been exchanged is a pivot, also after the factors have been
renewed. -/
theorem Ready.pivots_of_exchanged (h : s.Ready P) {l : Leaving n m} (hl : s.Leaves P l)
    {alphaRow : Vec n} (hrow : ∀ j, alphaRow.get j = P.tableau s.basis l.row j) {e : Entering n m}
    (he : Enters P s l.side alphaRow (s.leavingTarget P l - s.values.get l.var).abs bland e)
    (hlow : bland = true → ∀ i, (s.basis.basic.get i).index < l.var.index →
      (P.bounds.get (s.basis.basic.get i)).Contains (s.values.get (s.basis.basic.get i)))
    {u : State n m} (hu : Exchanged P s u l e) (ht : Factorized u.toPoint t) :
    Pivots P bland s.toPoint t.toPoint (s.moveOf P l e) := by
  have hb := h.basis
  have hcand := he.candidate
  have hsup := he.supports
  have hbound := he.bounded
  have hlowest := he.lowest
  simp only [Candidate, ratio, towards_eq, hrow] at hcand hsup hbound hlowest
  have hstep := h.ratio_nonneg he.candidate
  rw [ratio, towards_eq, hrow] at hstep
  constructor
  case leaving_basic => exact hb.isBasic_iff.mpr ⟨l.row, hl.var_eq⟩
  case entering_nonbasic => exact hb.isBasic_nonbasic e.position
  case bound_eq => exact hl.bound_eq
  case violated => exact hl.violated
  case row_eq =>
    exact ⟨fun k => l.side.sign * P.inverseRow s.basis l.row k, fun v => (P.combination_smul _ _ v).symm⟩
  case row_leaving =>
    have hi := moveOf_row_basic h.isUnit l e l.row
    rwa [if_pos rfl, hl.var_eq] at hi
  case row_basic =>
    intro v hv hne
    obtain ⟨i, rfl⟩ := hb.isBasic_iff.mp hv
    rw [moveOf_row_basic h.isUnit, if_neg]
    rintro rfl
    exact hne hl.var_eq
  case row_entering => exact hcand.1
  case eligible => exact hcand.2
  case step_nonneg => exact hstep
  case step_eq =>
    rw [moveOf]
    dsimp only
    rw [hb.spread_nonbasic, ← Problem.tableau, div_mul_cancel₀ _ hcand.1]
  case change_basic =>
    intro v hv
    obtain ⟨i, rfl⟩ := hb.isBasic_iff.mp hv
    exact he.change_basic i
  case gain =>
    intro v
    rcases hb.basic_or_nonbasic v with ⟨i, rfl⟩ | ⟨k, rfl⟩
    · rw [hb.spread_basic, zero_mul]
    · rw [hb.spread_nonbasic]
      exact he.gain k
  case bounded =>
    rw [hb.sum_eq, Finset.sum_eq_zero fun i _ => ?_, zero_add]
    · rw [hl.abs_sub_eq] at hbound
      exact hbound
    · change _ * totalChange e.flips (s.basis.basic.get i) = 0
      rw [he.change_basic, mul_zero]
  case rests =>
    intro v hv
    obtain ⟨k, rfl⟩ := hb.isBasic_eq_false_iff.mp hv
    exact he.rests k
  case supports =>
    intro v hv
    obtain ⟨k, rfl⟩ := hb.isBasic_eq_false_iff.mp hv
    rw [hb.spread_nonbasic, moveOf_row_nonbasic]
    exact hsup k
  case isBasic_eq =>
    intro v
    rw [ht.isBasic_eq, hu.basis_eq, hb.isBasic_exchange, hl.var_eq]
    rfl
  case balanced =>
    rw [ht.values_eq]
    exact hu.balanced
  case value_leaving =>
    rw [ht.values_eq]
    exact hu.value_leaving
  case value_nonbasic =>
    rw [ht.values_eq]
    exact hu.value_nonbasic
  case spread_eq =>
    intro v
    have hsign := l.side.sign_ne_zero
    rw [ht.spread_eq, hu.spread_eq, moveOf]
    dsimp only
    field_simp
  case unflipped =>
    intro hbl v
    change totalChange e.flips v = 0
    rw [he.flips_nil hbl]
    rfl
  case lowest_leaving =>
    intro hbl v hv hi
    obtain ⟨i, rfl⟩ := hb.isBasic_iff.mp hv
    exact hlow hbl i hi
  case lowest_entering =>
    intro hbl v hv hne hel hd
    obtain ⟨k, rfl⟩ := hb.isBasic_eq_false_iff.mp hv
    rw [moveOf_row_nonbasic] at hne hel hd
    rw [hb.spread_nonbasic] at hd
    refine hlowest hbl k ⟨hne, hel⟩ ?_
    rw [hd, mul_div_cancel_right₀ _ hne]
    rfl

/-- One pass turned a ready state into another ready one by a pivot. -/
structure Steps (P : Problem n m) (bland : Bool) (s t : State n m) : Prop where
  ready : t.Ready P
  stuck_eq : t.stuck = s.stuck
  milestones_eq : milestones t.log = milestones s.log
  pivots : ∃ μ, Pivots P bland s.toPoint t.toPoint μ

theorem Steps.of_noted {s' : State n m} (hn : Noted s s') (h : Steps P bland s' t) :
    Steps P bland s t where
  ready := h.ready
  stuck_eq := h.stuck_eq.trans hn.stuck_eq
  milestones_eq := h.milestones_eq.trans hn.milestones_eq
  pivots := by
    rw [← hn.toPoint_eq]
    exact h.pivots

/-- How a run can end, and what is known about the state then. -/
def Outcome (P : Problem n m) (mayStall : Bool) (stuck : Option (Var n m)) (t : State n m) :
    Ending → Prop
  | .verdict .optimal => t.stuck = stuck ∧
      (∀ i, (P.bounds.get (t.basis.basic.get i)).Contains (t.values.get (t.basis.basic.get i))) ∧
      ∀ bound, P.cutOff = some bound → P.objectiveValue t.values < bound
  | .verdict .infeasible => ∃ v, t.stuck = some v ∧ t.Stuck P v
  | .verdict .cutOff => t.stuck = stuck ∧
      ∃ bound, P.cutOff = some bound ∧ bound ≤ P.objectiveValue t.values
  | .verdict .unbounded => False
  | .stalled => t.stuck = stuck ∧ mayStall = true

/-- A pass that ends the run leaves the point as it is. -/
structure Stops (P : Problem n m) (mayStall : Bool) (s t : State n m) (ending : Ending) : Prop where
  ready : t.Ready P
  toPoint_eq : t.toPoint = s.toPoint
  milestones_eq : milestones t.log = milestones s.log
  outcome : Outcome P mayStall s.stuck t ending

theorem mem_observe {p : Progress} {threshold : ℕ} {objective : ℚ} {e : Event}
    (he : e ∈ (p.observe threshold objective).2) : (∃ k, e = .blandEngaged k) ∨ e = .blandReleased := by
  unfold Progress.observe at he
  dsimp only at he
  split at he
  · split at he <;> simp_all
  · split at he
    · split at he <;> simp_all
    · simp at he

theorem observe_events (p : Progress) (threshold : ℕ) (objective : ℚ) :
    ∀ e ∈ (p.observe threshold objective).2, e.isMilestone = false := by
  intro e he
  rcases mem_observe he with ⟨k, rfl⟩ | rfl <;> rfl

/-- The row of the inverse at a position, and the pivot row that it gives. -/
theorem Sound.pivotRow_eq (h : s.Sound P) (r : Fin m) :
    ∃ rho, s.factors.solveTransposed (Vec.unit r) = some rho ∧ rho.get = P.inverseRow s.basis r ∧
      ∀ k, (P.nonbasicProduct s.basis.place rho).get k = P.tableau s.basis r k := by
  obtain ⟨rho, hrho, hget⟩ := solveTransposed_unit h.factors r
  refine ⟨rho, hrho, hget, fun k => ?_⟩
  rw [P.get_nonbasicProduct h.basis, hget, Problem.tableau]

theorem get_addTo_column (hA : P.matrix.Mirrored) (v : Var n m) (i : Fin m) :
    (SparseVec.addTo (P.column v) 1 (Vec.zero m)).get i = P.entry i v := by
  rw [SparseVec.get_addTo, Vec.get_zero, P.coeff_column hA, zero_add, mul_one]

/-- The column of a nonbasic variable in terms of the basis. -/
theorem Sound.pivotColumn_eq (h : s.Sound P) (hA : P.matrix.Mirrored) (k : Fin n) :
    ∃ alphaColumn, s.factors.solve (SparseVec.addTo (P.column (s.basis.nonbasic.get k)) 1
        (Vec.zero m)) = some alphaColumn ∧
      ∀ i, (P.basisMatrix s.basis *ᵥ alphaColumn.get) i = P.entry i (s.basis.nonbasic.get k) := by
  obtain ⟨alphaColumn, hcol, hB⟩ := h.factors.solve_eq
    (SparseVec.addTo (P.column (s.basis.nonbasic.get k)) 1 (Vec.zero m))
  exact ⟨alphaColumn, hcol, fun i => (congrFun hB i).trans (get_addTo_column hA _ i)⟩

theorem Enters.tableau_ne_zero {l : Leaving n m} {alphaRow : Vec n} {distance : ℚ} {bland : Bool}
    {e : Entering n m} (h : Enters P s l.side alphaRow distance bland e)
    (hrow : ∀ k, alphaRow.get k = P.tableau s.basis l.row k) :
    P.tableau s.basis l.row e.position ≠ 0 := by
  have hcand := h.candidate.1
  rw [towards_eq, hrow] at hcand
  exact right_ne_zero_of_mul hcand

theorem Ready.enters_of_chooseEntering (h : s.Ready P) (hc : ∀ v, (P.bounds.get v).Consistent)
    {bland : Bool} {l : Leaving n m} {alphaRow : Vec n} {e : Entering n m}
    (he : s.chooseEntering P bland l alphaRow = some e) :
    Enters P s l.side alphaRow (s.leavingTarget P l - s.values.get l.var).abs bland e := by
  rcases h.chooseEntering_cases hc bland l alphaRow with ⟨hn, _⟩ | ⟨e', he', henters⟩
  · cases hn.symm.trans he
  · cases he'.symm.trans he
    exact henters

section Cases
variable (h : s.Ready P) (hA : P.matrix.Simple) (hc : ∀ v, (P.bounds.get v).Consistent)
  (cfg : Config)
include h hA hc

/-- No step of a pivot fails when a variable can enter, whatever the rule. -/
theorem Ready.pivot_exchanges (p : Progress) {l : Leaving n m} (hl : s.Leaves P l)
    {rho : Vec m} (hrho : s.factors.solveTransposed (Vec.unit l.row) = some rho) {e : Entering n m}
    (he : s.chooseEntering P p.bland l (P.nonbasicProduct s.basis.place rho) = some e) :
    ∃ t u, s.pivot P cfg p l = .ok (t, .next { p with iterations := p.iterations + 1 }) ∧ t.Sound P ∧
      t.stuck = s.stuck ∧ milestones t.log = milestones s.log ∧
      Exchanged P s u l e ∧ Factorized u.toPoint t := by
  obtain ⟨rho', hrho', hget, hrow⟩ := h.pivotRow_eq l.row
  cases hrho'.symm.trans hrho
  have hne := (h.enters_of_chooseEntering hc he).tableau_ne_zero hrow
  -- from here on the state has one more event in its log
  have h' := h.of_noted ((Noted.refl s).record (e := .enters (s.basis.nonbasic.get e.position).index
    e.flips.length) rfl)
  obtain ⟨alphaColumn, hcol, hB⟩ := h.pivotColumn_eq hA.toMirrored e.position
  have hentry := get_addTo_column hA.toMirrored (s.basis.nonbasic.get e.position)
  obtain ⟨u, hu, hex⟩ := h'.toSound.exchange_eq hA.toMirrored h'.balanced hl.var_eq e hget hrow hB hne
  obtain ⟨w, hw, hws, hwf, hwstuck, hwlog⟩ := h'.toSound.renewFactors_eq hA cfg hex hne hentry
  obtain ⟨t, ht, hts, htp, htstuck, htlog⟩ := hws.renewWeights_eq cfg (p.iterations + 1)
  have hexs : Exchanged P s u l e := hex.of_record rfl
  have hfac : Factorized u.toPoint t :=
    ⟨by rw [htp]; exact hwf.values_eq, by rw [htp]; exact hwf.isBasic_eq,
      by rw [htp]; exact hwf.spread_eq⟩
  refine ⟨t, u, ?_, hts, htstuck.trans (hwstuck.trans hexs.stuck_eq),
    htlog.trans (hwlog.trans hexs.milestones_eq), hexs, hfac⟩
  unfold pivot
  rw [hrho]
  simp only [divided, bind, Except.bind, he, factors_record, hcol, hu, hw, ht]
  rfl

/-- A pivot for which a variable can enter exchanges it with the leaving one. -/
theorem Ready.pivot_eq (p : Progress) {l : Leaving n m} (hl : s.Leaves P l)
    (hlow : p.bland = true → ∀ i, (s.basis.basic.get i).index < l.var.index →
      (P.bounds.get (s.basis.basic.get i)).Contains (s.values.get (s.basis.basic.get i)))
    {rho : Vec m} (hrho : s.factors.solveTransposed (Vec.unit l.row) = some rho) {e : Entering n m}
    (he : s.chooseEntering P p.bland l (P.nonbasicProduct s.basis.place rho) = some e) :
    ∃ t, s.pivot P cfg p l = .ok (t, .next { p with iterations := p.iterations + 1 }) ∧ t.Ready P ∧
      t.stuck = s.stuck ∧ milestones t.log = milestones s.log ∧
      Pivots P p.bland s.toPoint t.toPoint (s.moveOf P l e) := by
  obtain ⟨rho', hrho', _, hrow⟩ := h.pivotRow_eq l.row
  cases hrho'.symm.trans hrho
  obtain ⟨t, u, ht, hts, hstuck, hmile, hex, hfac⟩ := h.pivot_exchanges hA hc cfg p hl hrho he
  have hpivots := h.pivots_of_exchanged hl hrow (h.enters_of_chooseEntering hc he) hlow hex hfac
  exact ⟨t, ht, hpivots.ready h hts, hstuck, hmile, hpivots⟩

/-- A pivot either finds that nothing can enter or exchanges two variables. -/
theorem Ready.pivot_cases (p : Progress) {l : Leaving n m} (hl : s.Leaves P l)
    (hlow : p.bland = true → ∀ i, (s.basis.basic.get i).index < l.var.index →
      (P.bounds.get (s.basis.basic.get i)).Contains (s.values.get (s.basis.basic.get i))) :
    (s.pivot P cfg p l = .ok ({ s.record (.noneEnters l.var.index) with stuck := some l.var },
      .stop (.verdict .infeasible)) ∧ s.Stuck P l.var) ∨
    ∃ t, s.pivot P cfg p l = .ok (t, .next { p with iterations := p.iterations + 1 }) ∧
      Steps P p.bland s t := by
  obtain ⟨rho, hrho, _, hrow⟩ := h.pivotRow_eq l.row
  rcases h.chooseEntering_cases hc p.bland l (P.nonbasicProduct s.basis.place rho) with
    ⟨hn, hblocked⟩ | ⟨e, he, _⟩
  · refine Or.inl ⟨?_, l, rfl, hl, fun k => ?_⟩
    · unfold pivot
      rw [hrho]
      simp only [divided, hn, bind, Except.bind]
      rfl
    · have hk := hblocked k
      rw [Candidate, not_and_or, not_not, Bool.not_eq_true, towards_eq, hrow] at hk
      exact hk
  · obtain ⟨t, ht, hready, hstuck, hmile, hpivots⟩ := h.pivot_eq hA hc cfg p hl hlow hrho he
    exact Or.inr ⟨t, ht, hready, hstuck, hmile, _, hpivots⟩

/-- A pass of a ready state never fails: it stops with a reason or pivots. -/
theorem Ready.pass_cases (mayStall : Bool) (p : Progress) :
    (∃ t ending, s.pass P cfg mayStall p = .ok (t, .stop ending) ∧ Stops P mayStall s t ending) ∨
    ∃ t, s.pass P cfg mayStall p = .ok (t, .next
        { (p.observe cfg.cycleThreshold (P.objectiveValue s.values)).1 with
          iterations := (p.observe cfg.cycleThreshold (P.objectiveValue s.values)).1.iterations + 1 }) ∧
      Steps P (p.observe cfg.cycleThreshold (P.objectiveValue s.values)).1.bland s t := by
  unfold pass
  dsimp only
  cases hcut : P.cutOff.filter fun bound => bound ≤ P.objectiveValue s.values with
  | some bound =>
    obtain ⟨hb, hle⟩ := Option.filter_eq_some_iff.mp hcut
    have hn := (Noted.refl s).record (e := .cutOffReached (P.objectiveValue s.values) bound) rfl
    exact Or.inl ⟨_, _, rfl, h.of_noted hn, rfl, hn.milestones_eq, rfl, bound, hb,
      of_decide_eq_true hle⟩
  | none =>
    have hbelow : ∀ bound, P.cutOff = some bound → P.objectiveValue s.values < bound := by
      simpa using Option.filter_eq_none_iff.mp hcut
    dsimp only
    generalize hobs : p.observe cfg.cycleThreshold (P.objectiveValue s.values) = observed
    obtain ⟨p', events⟩ := observed
    have hev := observe_events p cfg.cycleThreshold (P.objectiveValue s.values)
    rw [hobs] at hev
    have hn := (Noted.refl s).recordAll hev
    have h' := h.of_noted hn
    dsimp only
    by_cases hstall : (mayStall && decide (cfg.perturbationThreshold < p'.repeated)) = true
    · rw [if_pos hstall]
      exact Or.inl ⟨_, _, rfl, h', hn.toPoint_eq, hn.milestones_eq, hn.stuck_eq,
        (Bool.and_eq_true_iff.mp hstall).1⟩
    · rw [if_neg hstall]
      rcases h'.chooseLeaving_cases p'.bland with ⟨hnone, hcontains⟩ | ⟨l, hsome, hl, hlow⟩
      · rw [hnone]
        refine Or.inl ⟨_, _, rfl, h', hn.toPoint_eq, hn.milestones_eq, hn.stuck_eq, hcontains, ?_⟩
        rw [hn.toPoint_eq]
        exact hbelow
      · rw [hsome]
        have hn' := hn.record (e := .leaves p'.iterations l.var.index l.row) rfl
        have hl' : ((s.recordAll events).record (.leaves p'.iterations l.var.index l.row)).Leaves P l :=
          ⟨hl.var_eq, hl.bound_eq, hl.violated⟩
        rcases (h.of_noted hn').pivot_cases hA hc cfg p' hl' hlow with ⟨hstop, hstuck⟩ | ⟨t, hnext, hsteps⟩
        · refine Or.inl ⟨_, _, hstop, ?_, hn'.toPoint_eq, ?_, l.var, rfl, ?_⟩
          · exact h.of_eq hn'.toPoint_eq hn'.factors_eq hn'.weights_eq
          · exact (logged_push _ rfl).trans hn'.milestones_eq
          · obtain ⟨l', hvar, hleaves, hblocked⟩ := hstuck
            exact ⟨l', hvar, ⟨hleaves.var_eq, hleaves.bound_eq, hleaves.violated⟩, hblocked⟩
        · exact Or.inr ⟨t, hnext, hsteps.of_noted hn'⟩

end Cases

end State

end ExactSimplex
