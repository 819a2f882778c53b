import ExactSimplex.Proofs.Answers

/-! # Dual feasible multipliers and recession directions

Multipliers are dual feasible if no reduced cost pushes a variable or a row without limit. A
recession direction can be followed from every feasible point for ever. Dual feasible multipliers
leave no recession direction that lowers the costs. A ready state has dual feasible multipliers, and
the optimum of the surrogate problem at which a run ends unbounded is a recession direction that
lowers the costs.
-/
namespace ExactSimplex
variable {n m : ℕ}

namespace Bounds
variable {b : Bounds} {d r x : ℚ}

/-- The cost pushes towards a finite end, if it pushes at all. -/
def Attracts (b : Bounds) (d : ℚ) : Prop := (0 < d → b.lower ≠ none) ∧ (d < 0 → b.upper ≠ none)

/-- No end is in the way of the direction. -/
def Recedes (b : Bounds) (r : ℚ) : Prop := (b.lower ≠ none → 0 ≤ r) ∧ (b.upper ≠ none → r ≤ 0)

theorem Attracts.zero_le_mul (hd : b.Attracts d) (hr : b.Recedes r) : 0 ≤ d * r := by
  rcases lt_trichotomy d 0 with h | rfl | h
  · exact mul_nonneg_of_nonpos_of_nonpos h.le (hr.2 (hd.2 h))
  · simp
  · exact mul_nonneg h.le (hr.1 (hd.1 h))

theorem Supports.attracts (h : b.Supports x d) : b.Attracts d := by
  constructor
  · intro hd hn
    cases hn.symm.trans (h.1 hd)
  · intro hd hn
    cases hn.symm.trans (h.2 hd)

theorem attracts_slack {b : Bounds} : b.slack.Attracts (-d) ↔ b.Attracts d := by
  rcases b with ⟨_ | l, _ | u⟩ <;> simp [slack, Bound.negated, Attracts, and_comm]

theorem recedes_slack {b : Bounds} : b.slack.Recedes (-r) ↔ b.Recedes r := by
  rcases b with ⟨_ | l, _ | u⟩ <;> simp [slack, Bound.negated, Recedes, and_comm]

/-- The surrogate interval ends at zero where the true one is finite. -/
theorem recedes_of_surrogate (h : b.surrogate.Contains x) : b.Recedes x := by
  rcases b with ⟨_ | l, _ | u⟩ <;> simp_all [surrogate, Contains, Recedes]

theorem Contains.add_mul (h : b.Contains x) (hr : b.Recedes r) {t : ℚ} (ht : 0 ≤ t) :
    b.Contains (x + t * r) := by
  constructor
  · intro l hl
    have hr := hr.1 (by simp [hl])
    have hx := h.1 l hl
    have htr := mul_nonneg ht hr
    linarith
  · intro u hu
    have hr := hr.2 (by simp [hu])
    have hx := h.2 u hu
    have htr := mul_nonpos_of_nonneg_of_nonpos ht hr
    linarith

theorem Crossed.not_consistent (h : b.Crossed) : ¬b.Consistent := by
  obtain ⟨l, u, hl, hu, hlt⟩ := h
  exact fun hc => absurd (hc l u hl hu) (not_le.mpr hlt)

end Bounds

namespace Problem
variable {P : Problem n m} {y : Fin m → ℚ} {r z : Fin n → ℚ}

/-- Reduced costs and multipliers that are not zero belong to finite bounds and sides. -/
structure DualFeasible (P : Problem n m) (y : Fin m → ℚ) : Prop where
  lower : ∀ j, 0 < P.objective.get j - ∑ i, y i * P.matrix.entry i j →
    (P.bounds.structural.get j).lower ≠ none
  upper : ∀ j, P.objective.get j - ∑ i, y i * P.matrix.entry i j < 0 →
    (P.bounds.structural.get j).upper ≠ none
  rowLower : ∀ i, 0 < y i → (P.sides i).lower ≠ none
  rowUpper : ∀ i, y i < 0 → (P.sides i).upper ≠ none

/-- No finite bound and no finite side is in the way of the direction. -/
structure Recession (P : Problem n m) (r : Fin n → ℚ) : Prop where
  lower : ∀ j, (P.bounds.structural.get j).lower ≠ none → 0 ≤ r j
  upper : ∀ j, (P.bounds.structural.get j).upper ≠ none → r j ≤ 0
  rowLower : ∀ i, (P.sides i).lower ≠ none → 0 ≤ P.rowValue r i
  rowUpper : ∀ i, (P.sides i).upper ≠ none → P.rowValue r i ≤ 0

/-- What holds for the bounds of all variables holds for the bounds of the structural ones and for
the sides of the rows, if it does not change between a side and the bound of a slack. -/
theorem forall_bounds_iff {holds : Bounds → ℚ → Prop}
    (hslack : ∀ b x, holds (Bounds.slack b) (-x) ↔ holds b x) (x : Var n m → ℚ) :
    (∀ v, holds (P.bounds.get v) (x v)) ↔
      (∀ j, holds (P.bounds.structural.get j) (x (.structural j))) ∧
        ∀ i, holds (P.sides i) (-x (.slack i)) := by
  constructor
  · intro h
    exact ⟨fun j => h (.structural j), fun i => (hslack _ _).mpr (h (.slack i))⟩
  · rintro ⟨hstructural, hsides⟩ v
    cases v with
    | structural j => exact hstructural j
    | slack i => exact (hslack _ _).mp (hsides i)

theorem dualFeasible_iff :
    P.DualFeasible y ↔ ∀ v, (P.bounds.get v).Attracts (P.reducedCost y v) := by
  rw [forall_bounds_iff (fun _ _ => Bounds.attracts_slack)]
  simp only [reducedCost_slack, neg_neg]
  constructor
  · intro h
    exact ⟨fun j => ⟨h.lower j, h.upper j⟩, fun i => ⟨h.rowLower i, h.rowUpper i⟩⟩
  · rintro ⟨hstructural, hsides⟩
    exact ⟨fun j => (hstructural j).1, fun j => (hstructural j).2, fun i => (hsides i).1,
      fun i => (hsides i).2⟩

theorem recession_iff : P.Recession r ↔ ∀ v, (P.bounds.get v).Recedes (P.extended r v) := by
  rw [forall_bounds_iff (fun _ _ => Bounds.recedes_slack)]
  simp only [extended, neg_neg]
  constructor
  · intro h
    exact ⟨fun j => ⟨h.lower j, h.upper j⟩, fun i => ⟨h.rowLower i, h.rowUpper i⟩⟩
  · rintro ⟨hstructural, hsides⟩
    exact ⟨fun j => (hstructural j).1, fun j => (hstructural j).2, fun i => (hsides i).1,
      fun i => (hsides i).2⟩

/-- Dual feasible multipliers exclude recession directions that lower the costs. -/
theorem Recession.not_dualFeasible (hr : P.Recession r) (hneg : P.value r < 0) :
    ¬∃ y, P.DualFeasible y := by
  rintro ⟨y, hy⟩
  refine absurd ?_ (not_le.mpr hneg)
  rw [← P.sum_cost_extended, (P.balanced_extended r).sum_cost_eq y]
  apply Finset.sum_nonneg
  intro v _
  exact (dualFeasible_iff.mp hy v).zero_le_mul (recession_iff.mp hr v)

theorem sum_mul_add_mul (a z r : Fin n → ℚ) (t : ℚ) :
    ∑ j, a j * (z j + t * r j) = ∑ j, a j * z j + t * ∑ j, a j * r j := by
  rw [Finset.mul_sum, ← Finset.sum_add_distrib]
  exact Finset.sum_congr rfl fun j _ => by ring

theorem Admits.add_mul (hz : P.Admits z) (hr : P.Recession r) {t : ℚ} (ht : 0 ≤ t) :
    P.Admits fun j => z j + t * r j := by
  constructor
  · intro j
    exact (hz.1 j).add_mul ⟨hr.lower j, hr.upper j⟩ ht
  · intro i
    rw [rowValue, sum_mul_add_mul]
    exact (hz.2 i).add_mul ⟨hr.rowLower i, hr.rowUpper i⟩ ht

/-- Along a recession direction that lowers the costs they fall below every bound. -/
theorem Recession.exists_value_lt (hr : P.Recession r) (hneg : P.value r < 0) (hz : P.Admits z)
    (bound : ℚ) : ∃ t, 0 ≤ t ∧ (P.Admits fun j => z j + t * r j) ∧
      P.value (fun j => z j + t * r j) < bound := by
  -- the step at which the costs would reach the bound, and one more
  refine ⟨max 0 ((bound - P.value z) / P.value r) + 1, by positivity, ?_, ?_⟩
  · exact hz.add_mul hr (by positivity)
  · have hstep : (bound - P.value z) / P.value r ≤ max 0 ((bound - P.value z) / P.value r) :=
      le_max_right _ _
    rw [div_le_iff_of_neg hneg] at hstep
    calc P.value (fun j => z j + (max 0 ((bound - P.value z) / P.value r) + 1) * r j)
        = P.value z + (max 0 ((bound - P.value z) / P.value r) + 1) * P.value r :=
          sum_mul_add_mul _ _ _ _
      _ < bound := by linarith

theorem objectiveValue_eq_value (P : Problem n m) (x : PerVar ℚ n m) :
    P.objectiveValue x = P.value fun j => x.get (.structural j) := by
  rw [objectiveValue, foldl_finRange_add, zero_add]
  rfl

theorem not_hasCrossed_iff : ¬P.HasCrossed ↔ P.contradictory? = none := by
  rw [contradictory?_eq_none_iff]
  constructor
  · intro h v
    rw [← Bounds.isContradictory_eq_false_iff, ← Bool.not_eq_true]
    exact fun hv => h (hasCrossed_of_isContradictory hv)
  · rintro h (⟨j, hj⟩ | ⟨i, hi⟩)
    · exact hj.not_consistent (h (.structural j))
    · exact (Bounds.crossed_of_slack hi).not_consistent (h (.slack i))

end Problem

namespace State
variable {P : Problem n m} {s : State n m} {mayStall : Bool}

theorem Ready.exists_dualFeasible (h : s.Ready P) : ∃ y, P.DualFeasible y := by
  obtain ⟨y, hy⟩ := h.priced
  refine ⟨y, Problem.dualFeasible_iff.mpr fun v => ?_⟩
  rw [hy]
  exact (h.supports v).attracts

/-- The objective value of a ready state is a lower bound on the costs of the feasible points. -/
theorem Ready.objectiveValue_le (h : s.Ready P) {z : Fin n → ℚ} (hz : P.Admits z) :
    P.objectiveValue s.values ≤ P.value z := by
  obtain ⟨y, hy⟩ := h.priced
  have hle := h.balanced.sum_cost_le (P.balanced_extended z) (y := y)
    (fun v => by rw [hy]; exact h.supports v) hz.contains
  rwa [← P.objectiveValue_eq_sum, P.sum_cost_extended] at hle

theorem admits_zero_surrogate (P : Problem n m) : P.surrogate.Admits fun _ => 0 := by
  have hbalanced : P.surrogate.Balanced fun _ => 0 := fun i => by simp
  apply hbalanced.admits
  intro v
  rw [bounds_surrogate]
  exact Bounds.contains_zero_surrogate _

/-- A run that ends unbounded ends at a recession direction that lowers the costs. -/
theorem Concludes.recession (h : Concludes P mayStall s (.verdict .unbounded)) :
    P.Recession (fun j => s.values.get (.structural j)) ∧
      P.value (fun j => s.values.get (.structural j)) < 0 := by
  obtain ⟨_, hready, ⟨_, hbasic, _⟩, hne⟩ := h
  have hin : ∀ v, (P.bounds.get v).surrogate.Contains (s.values.get v) := by
    intro v
    rw [← bounds_surrogate]
    exact hready.toSettled.contains (consistent_surrogate P) hbasic v
  have hx : P.extended (fun j => s.values.get (.structural j)) = s.values.get := by
    funext v
    cases v with
    | structural j => rfl
    | slack i => exact ((P.surrogate.balanced_iff_slack _).mp hready.balanced i).symm
  rw [P.objectiveValue_eq_value] at hne
  refine ⟨?_, lt_of_le_of_ne ?_ hne⟩
  · rw [Problem.recession_iff, hx]
    exact fun v => Bounds.recedes_of_surrogate (hin v)
  · rw [← P.objectiveValue_eq_value]
    calc P.objectiveValue s.values ≤ P.surrogate.value fun _ => 0 :=
          hready.objectiveValue_le (admits_zero_surrogate P)
      _ = 0 := by simp [Problem.value]

theorem Concludes.admits (h : Concludes P mayStall s (.verdict .optimal))
    (hc : ∀ v, (P.bounds.get v).Consistent) :
    P.Admits fun j => s.values.get (.structural j) := by
  obtain ⟨hready, _, hbasic, _⟩ := h
  exact hready.balanced.admits (hready.toSettled.contains hc hbasic)

theorem Concludes.not_admits (h : Concludes P mayStall s (.verdict .infeasible))
    (z : Fin n → ℚ) : ¬P.Admits z := by
  obtain ⟨hready, v, _, hstuck⟩ := h
  intro hz
  exact hstuck.not_contains hready.toSettled (P.balanced_extended z) hz.contains

end State

end ExactSimplex
