import ExactSimplex.Search.Pricing
import ExactSimplex.Proofs.Choice
import ExactSimplex.Proofs.Search.State

/-! # The leaving variable and the weights

A leaving variable is chosen exactly when some basic variable violates a bound, and by Bland's rule
no violated variable has a lower index. The weights stay the squared norms of the rows of the
inverse when two variables are exchanged, so that no score needs a division by zero.
-/
namespace ExactSimplex
open Matrix
variable {n m : ℕ}

/-- The direction in which a bound is violated. -/
def Side.sign : Side → ℚ
  | .lower => -1
  | .upper => 1

theorem Side.sign_ne_zero (side : Side) : side.sign ≠ 0 := by
  cases side <;> simp [sign]

namespace Bounds
variable {b : Bounds} {x : ℚ}

theorem violation?_eq_none_iff : b.violation? x = none ↔ b.Contains x := by
  unfold violation? Contains
  cases hl : b.lower.filter fun l => x < l with
  | some l =>
    obtain ⟨hb, hx⟩ := Option.filter_eq_some_iff.mp hl
    have hx : x < l := by simpa using hx
    exact iff_of_false (by simp) fun h => absurd (h.1 l hb) (not_le.mpr hx)
  | none =>
    have hl : ∀ l, b.lower = some l → l ≤ x := by simpa using Option.filter_eq_none_iff.mp hl
    have hu : ((b.upper.filter fun u => u < x).map fun u => (Side.upper, x - u)) = none ↔
        ∀ u, b.upper = some u → x ≤ u := by simp
    exact hu.trans ⟨fun h => ⟨hl, h⟩, fun h => h.2⟩

theorem violation?_eq_some {side : Side} {distance : ℚ} (h : b.violation? x = some (side, distance)) :
    ∃ target, b.get side = some target ∧ distance = side.sign * (x - target) ∧ 0 < distance := by
  unfold violation? at h
  cases hl : b.lower.filter fun l => x < l with
  | some l =>
    rw [hl] at h
    obtain ⟨hb, hx⟩ := Option.filter_eq_some_iff.mp hl
    cases h
    refine ⟨l, hb, by simp [Side.sign], ?_⟩
    have hx : x < l := by simpa using hx
    linarith
  | none =>
    rw [hl] at h
    obtain ⟨u, hu, he⟩ := Option.map_eq_some_iff.mp h
    obtain ⟨hb, hx⟩ := Option.filter_eq_some_iff.mp hu
    cases he
    refine ⟨u, hb, by simp [Side.sign], ?_⟩
    have hx : u < x := by simpa using hx
    linarith

end Bounds

namespace Basis

theorem basic_exchange (b : Basis n m) (r : Fin m) (k : Fin n) (i : Fin m) :
    (b.exchange r k).basic.get i = if r = i then b.nonbasic.get k else b.basic.get i :=
  get_put _ _ _ _

theorem nonbasic_exchange (b : Basis n m) (r : Fin m) (k l : Fin n) :
    (b.exchange r k).nonbasic.get l = if k = l then b.basic.get r else b.nonbasic.get l :=
  get_put _ _ _ _

end Basis

namespace Problem
variable {P : Problem n m} {b : Basis n m}

theorem combination_smul (P : Problem n m) (c : ℚ) (y : Fin m → ℚ) (v : Var n m) :
    P.combination (fun k => c * y k) v = c * P.combination y v := by
  simp only [combination, Finset.mul_sum, mul_assoc]

theorem combination_sub (P : Problem n m) (y z : Fin m → ℚ) (v : Var n m) :
    P.combination (fun k => y k - z k) v = P.combination y v - P.combination z v := by
  simp only [combination, sub_mul, Finset.sum_sub_distrib]

theorem combination_add (P : Problem n m) (y z : Fin m → ℚ) (v : Var n m) :
    P.combination (fun k => y k + z k) v = P.combination y v + P.combination z v := by
  simp only [combination, add_mul, Finset.sum_add_distrib]

theorem combination_eq_of_mulVec (hu : IsUnit (P.basisMatrix b)) {w c : Fin m → ℚ}
    (hw : P.basisMatrix b *ᵥ w = c) (i : Fin m) : w i = ∑ k, P.inverseRow b i k * c k := by
  have h : (P.basisMatrix b)⁻¹ *ᵥ c = w := by
    rw [← hw, mulVec_mulVec, nonsing_inv_mul _ ((isUnit_iff_isUnit_det _).mp hu), one_mulVec]
  rw [← h]
  rfl

noncomputable def tableau (P : Problem n m) (b : Basis n m) (i : Fin m) (k : Fin n) : ℚ :=
  P.combination (P.inverseRow b i) (b.nonbasic.get k)

/-- The rows of the inverse after an exchange: a multiple of the row of the pivot is taken off the
others. -/
noncomputable def exchangedRow (P : Problem n m) (b : Basis n m) (r : Fin m) (k : Fin n)
    (i : Fin m) : Fin m → ℚ :=
  if i = r then fun l => (P.tableau b r k)⁻¹ * P.inverseRow b r l
  else fun l => P.inverseRow b i l - P.tableau b i k * (P.tableau b r k)⁻¹ * P.inverseRow b r l

section Exchange
variable (hu : IsUnit (P.basisMatrix b)) {r : Fin m} {k : Fin n}
  (ha : P.tableau b r k ≠ 0)
include hu ha

theorem combination_exchangedRow (i j : Fin m) :
    P.combination (P.exchangedRow b r k i) ((b.exchange r k).basic.get j) = if i = j then 1 else 0 := by
  rw [Basis.basic_exchange]
  by_cases hi : i = r
  · subst hi
    rw [exchangedRow, if_pos rfl, combination_smul]
    by_cases hj : i = j
    · rw [if_pos hj, if_pos hj]
      exact inv_mul_cancel₀ ha
    · rw [if_neg hj, if_neg hj, combination_inverseRow hu, if_neg hj, mul_zero]
  · rw [exchangedRow, if_neg hi, combination_sub, combination_smul]
    by_cases hj : r = j
    · rw [if_pos hj, if_neg fun h => hi (h.trans hj.symm), mul_assoc]
      change P.tableau b i k - P.tableau b i k * ((P.tableau b r k)⁻¹ * P.tableau b r k) = 0
      rw [inv_mul_cancel₀ ha, mul_one, sub_self]
    · rw [if_neg hj, combination_inverseRow hu, combination_inverseRow hu, if_neg hj, mul_zero,
        sub_zero]

theorem isUnit_exchange : IsUnit (P.basisMatrix (b.exchange r k)) := by
  have h : Matrix.of (P.exchangedRow b r k) * P.basisMatrix (b.exchange r k) = 1 := by
    ext i j
    rw [mul_apply, one_apply]
    exact combination_exchangedRow hu ha i j
  exact (isUnit_iff_isUnit_det _).mpr (isUnit_det_of_left_inverse h)

theorem inverseRow_exchange (i : Fin m) :
    P.inverseRow (b.exchange r k) i = P.exchangedRow b r k i :=
  (eq_inverseRow (isUnit_exchange hu ha) (combination_exchangedRow hu ha i)).symm

end Exchange

end Problem

namespace State
variable {P : Problem n m} {s : State n m}

section Weights

theorem Sound.weight_pos (h : s.Sound P) {w : Vec m} (hw : s.weights = some w) (i : Fin m) :
    0 < w.get i := by
  rw [h.weights w hw i]
  refine lt_of_le_of_ne (Finset.sum_nonneg fun k _ => mul_self_nonneg _) fun hz => ?_
  have hz := (Finset.sum_eq_zero_iff_of_nonneg fun k _ => mul_self_nonneg _).mp hz.symm
  have hi := Problem.combination_inverseRow h.isUnit i i
  rw [if_pos rfl, Problem.combination, Finset.sum_eq_zero fun k hk => by
    rw [mul_self_eq_zero.mp (hz k hk), zero_mul]] at hi
  exact zero_ne_one hi

theorem divide?_eq (a : ℚ) {b : ℚ} (hb : b ≠ 0) : divide? a b = some (a / b) := if_neg hb

/-- The updated weights are the squared norms of the rows of the inverse after the exchange. -/
theorem updateWeights_eq {b : Basis n m} (hu : IsUnit (P.basisMatrix b)) {r : Fin m} {k : Fin n}
    {alpha tau weights rho : Vec m}
    (halpha : ∀ i, alpha.get i = P.tableau b i k)
    (hne : alpha.get r ≠ 0) (hrho : rho.get = P.inverseRow b r)
    (htau : P.basisMatrix b *ᵥ tau.get = rho.get)
    (hw : ∀ i, weights.get i = ∑ l, P.inverseRow b i l * P.inverseRow b i l) :
    ∃ w, updateWeights r alpha tau weights = some w ∧
      ∀ i, w.get i = ∑ l, P.inverseRow (b.exchange r k) i l * P.inverseRow (b.exchange r k) i l := by
  have ha : P.tableau b r k ≠ 0 := by
    rw [← halpha]
    exact hne
  refine ⟨_, by rw [updateWeights, divide?_eq 1 hne]; rfl, fun i => ?_⟩
  rw [get_ofFn, Problem.inverseRow_exchange hu ha, Problem.exchangedRow, ← halpha, ← halpha,
    one_div]
  by_cases hi : i = r
  · subst hi
    rw [if_pos rfl, if_pos rfl, hw, Finset.sum_mul]
    exact Finset.sum_congr rfl fun l _ => by ring
  · have ht := Problem.combination_eq_of_mulVec hu htau i
    rw [hrho] at ht
    rw [if_neg hi, if_neg hi, hw, hw, ht, Finset.mul_sum, Finset.mul_sum, ← Finset.sum_sub_distrib,
      ← Finset.sum_add_distrib]
    exact Finset.sum_congr rfl fun l _ => by ring

theorem solveTransposed_unit {F : Factorization m} {b : Basis n m}
    (hF : F.Represents (P.basisMatrix b)) (i : Fin m) :
    ∃ row, F.solveTransposed (Vec.unit i) = some row ∧ row.get = P.inverseRow b i := by
  obtain ⟨row, hs, heq⟩ := hF.solveTransposed_eq (Vec.unit i)
  refine ⟨row, hs, Problem.eq_inverseRow hF.isUnit fun r => ?_⟩
  rw [← P.vecMul_basisMatrix, heq, Vec.get_unit]

theorem exactWeights_eq {F : Factorization m} {b : Basis n m}
    (hF : F.Represents (P.basisMatrix b)) :
    ∃ w, exactWeights F = some w ∧
      ∀ i, w.get i = ∑ k, P.inverseRow b i k * P.inverseRow b i k := by
  have hfold : ∀ (l : List (Fin m)) (w : Vec m), ∃ w',
      l.foldlM (fun weights i => (F.solveTransposed (Vec.unit i)).map fun row =>
        put weights i (Vec.normSq row)) w = some w' ∧
      ∀ i, w'.get i = if i ∈ l then ∑ k, P.inverseRow b i k * P.inverseRow b i k else w.get i := by
    intro l
    induction l with
    | nil => exact fun w => ⟨w, rfl, by simp⟩
    | cons j l ih =>
      intro w
      obtain ⟨row, hs, heq⟩ := solveTransposed_unit hF j
      obtain ⟨w', hw', hget⟩ := ih (put w j (Vec.normSq row))
      refine ⟨w', ?_, fun i => ?_⟩
      · rw [List.foldlM_cons, hs]
        exact hw'
      · rw [hget, get_put, Vec.normSq_eq_sum, heq]
        by_cases hj : j = i
        · simp [hj]
        · simp [hj, Ne.symm hj]
  obtain ⟨w, hw, hget⟩ := hfold (List.finRange m) (Vec.zero m)
  exact ⟨w, hw, fun i => by rw [hget, if_pos (List.mem_finRange i)]⟩

end Weights

/-- The chosen variable is basic in its row and violates the bound of its side. -/
structure Leaves (P : Problem n m) (s : State n m) (l : Leaving n m) : Prop where
  var_eq : s.basis.basic.get l.row = l.var
  bound_eq : (P.bounds.get l.var).get l.side = some (s.leavingTarget P l)
  violated : 0 < l.side.sign * (s.values.get l.var - s.leavingTarget P l)

theorem Leaves.abs_sub_eq {l : Leaving n m} (hl : s.Leaves P l) :
    (s.leavingTarget P l - s.values.get l.var).abs =
      l.side.sign * (s.values.get l.var - s.leavingTarget P l) := by
  have hv := hl.violated
  cases hs : l.side with
  | lower =>
    rw [hs, Side.sign] at hv
    rw [Side.sign, Rat.abs_of_nonneg (by linarith)]
    ring
  | upper =>
    rw [hs, Side.sign] at hv
    rw [Side.sign, Rat.abs_of_nonpos (by linarith)]
    ring

theorem mem_violations {distance : ℚ} {l : Leaving n m} :
    (distance, l) ∈ s.violations P ↔ s.basis.basic.get l.row = l.var ∧
      (P.bounds.get l.var).violation? (s.values.get l.var) = some (l.side, distance) := by
  simp only [violations, List.mem_filterMap, List.mem_finRange, true_and, Option.map_eq_some_iff]
  constructor
  · rintro ⟨i, ⟨side, distance'⟩, hv, he⟩
    cases he
    exact ⟨rfl, hv⟩
  · rintro ⟨hvar, hv⟩
    refine ⟨l.row, (l.side, distance), ?_, ?_⟩
    · rw [hvar]
      exact hv
    · rw [hvar]

theorem leaves_of_mem_violations {distance : ℚ} {l : Leaving n m}
    (h : (distance, l) ∈ s.violations P) : s.Leaves P l := by
  obtain ⟨hvar, hv⟩ := mem_violations.mp h
  obtain ⟨target, hb, hd, hpos⟩ := Bounds.violation?_eq_some hv
  have ht : s.leavingTarget P l = target := by rw [leavingTarget, hb, Option.getD_some]
  exact ⟨hvar, by rw [ht]; exact hb, by rw [ht, ← hd]; exact hpos⟩

theorem contains_of_violations_eq_nil (h : s.violations P = []) (i : Fin m) :
    (P.bounds.get (s.basis.basic.get i)).Contains (s.values.get (s.basis.basic.get i)) := by
  apply Bounds.violation?_eq_none_iff.mp
  cases hv : (P.bounds.get (s.basis.basic.get i)).violation? (s.values.get (s.basis.basic.get i)) with
  | none => rfl
  | some v =>
    have hm : (v.2, (⟨i, s.basis.basic.get i, v.1⟩ : Leaving n m)) ∈ s.violations P :=
      mem_violations.mpr ⟨rfl, hv⟩
    rw [h] at hm
    cases hm

theorem mapM_eq_map {α β : Type} {f : α → Option β} {g : α → β} {l : List α}
    (h : ∀ a ∈ l, f a = some (g a)) : l.mapM f = some (l.map g) := by
  induction l with
  | nil => rfl
  | cons a l ih =>
    rw [List.mapM_cons, h a List.mem_cons_self, ih fun b hb => h b (List.mem_cons_of_mem a hb)]
    rfl

theorem firstBest_leaves (better : ℚ × Leaving n m → ℚ × Leaving n m → Bool)
    {l : List (ℚ × Leaving n m)} (hl : l.map Prod.snd = (s.violations P).map Prod.snd) :
    (firstBest better l = none ∧ s.violations P = []) ∨
      ∃ best, firstBest better l = some best ∧ s.Leaves P best.2 := by
  cases hf : firstBest better l with
  | none =>
    rw [firstBest_eq_none_iff.mp hf] at hl
    exact Or.inl ⟨rfl, List.map_eq_nil_iff.mp hl.symm⟩
  | some best =>
    have hm : best.2 ∈ (s.violations P).map Prod.snd := by
      rw [← hl]
      exact List.mem_map_of_mem (mem_of_firstBest hf)
    obtain ⟨e, he, hs⟩ := List.mem_map.mp hm
    exact Or.inr ⟨best, rfl, hs ▸ leaves_of_mem_violations he⟩

theorem Sound.scores_eq (h : s.Sound P) {w : Vec m} (hw : s.weights = some w)
    (violations : List (ℚ × Leaving n m)) :
    scores w violations = some (violations.map fun e => (e.1 * e.1 / w.get e.2.row, e.2)) := by
  refine mapM_eq_map fun e _ => ?_
  obtain ⟨distance, leaving⟩ := e
  simp only [divide?_eq _ (h.weight_pos hw leaving.row).ne', Option.map_some]

/-- By Bland's rule all violated variables have at least the index of the chosen one. -/
theorem lowest_of_firstBest {best : ℚ × Leaving n m}
    (hf : firstBest (fun a b => decide (a.2.var.index < b.2.var.index)) (s.violations P) = some best)
    (i : Fin m) (hi : (s.basis.basic.get i).index < best.2.var.index) :
    (P.bounds.get (s.basis.basic.get i)).Contains (s.values.get (s.basis.basic.get i)) := by
  apply Bounds.violation?_eq_none_iff.mp
  cases hv : (P.bounds.get (s.basis.basic.get i)).violation? (s.values.get (s.basis.basic.get i)) with
  | none => rfl
  | some v =>
    have hm : (v.2, (⟨i, s.basis.basic.get i, v.1⟩ : Leaving n m)) ∈ s.violations P :=
      mem_violations.mpr ⟨rfl, hv⟩
    have hu := firstBest_unbeaten (fun a => by simp)
      (fun a b c hab hbc => by simp only [decide_eq_true_eq] at hab hbc ⊢; omega) hf _ hm
    simp only [decide_eq_false_iff_not] at hu
    exact absurd hi hu

/-- The choice of a leaving variable has a result: none if all basic variables are within their
bounds, else one that is not, by Bland's rule the lowest. -/
theorem Sound.chooseLeaving_cases (h : s.Sound P) (bland : Bool) :
    (s.chooseLeaving P bland = some none ∧
      ∀ i, (P.bounds.get (s.basis.basic.get i)).Contains (s.values.get (s.basis.basic.get i))) ∨
    ∃ l, s.chooseLeaving P bland = some (some l) ∧ s.Leaves P l ∧
      (bland = true → ∀ i, (s.basis.basic.get i).index < l.var.index →
        (P.bounds.get (s.basis.basic.get i)).Contains (s.values.get (s.basis.basic.get i))) := by
  unfold chooseLeaving
  dsimp only
  split
  · next w hw =>
    rw [h.scores_eq hw]
    have hsnd : ((s.violations P).map fun e => (e.1 * e.1 / w.get e.2.row, e.2)).map Prod.snd =
        (s.violations P).map Prod.snd := by simp
    rcases firstBest_leaves (fun a b => decide (b.1 < a.1)) hsnd with ⟨hn, hv⟩ | ⟨best, hf, hl⟩
    · exact Or.inl ⟨by rw [Option.map_some, hn]; rfl, contains_of_violations_eq_nil hv⟩
    · exact Or.inr ⟨best.2, by rw [Option.map_some, hf]; rfl, hl, fun hb => by cases hb⟩
  · have hself : (s.violations P).map Prod.snd = (s.violations P).map Prod.snd := rfl
    rcases firstBest_leaves (fun a b => decide (a.2.var.index < b.2.var.index)) hself with
      ⟨hn, hv⟩ | ⟨best, hf, hl⟩
    · exact Or.inl ⟨by rw [hn]; rfl, contains_of_violations_eq_nil hv⟩
    · exact Or.inr ⟨best.2, by rw [hf]; rfl, hl, fun _ => lowest_of_firstBest hf⟩

end State

end ExactSimplex
