import ExactSimplex.Solver.Basic
import ExactSimplex.Proofs.Search.Run

/-! # Certificates

The form of a certificate vanishes on balanced points and is positive on all points within the
bounds, so a certified problem has no feasible point. The row of a stuck variable is a certificate:
its form is least at the point that has the violated bound in place of the stuck value.
-/
namespace ExactSimplex
variable {n m : ℕ}

namespace Bounds
variable {b : Bounds} {d t x z : ℚ}

theorem least?_le (h : b.least? d = some t) (hz : d ≠ 0 → b.Contains z) : t ≤ d * z := by
  unfold least? at h
  split at h
  · next hd =>
    obtain ⟨l, hl, rfl⟩ := Option.map_eq_some_iff.mp h
    exact mul_le_mul_of_nonneg_left ((hz hd.ne').1 l hl) hd.le
  · split at h
    · next hd =>
      obtain ⟨u, hu, rfl⟩ := Option.map_eq_some_iff.mp h
      exact mul_le_mul_of_nonpos_left ((hz hd.ne).2 u hu) hd.le
    · next hn hp =>
      cases h
      rw [le_antisymm (not_lt.mp hn) (not_lt.mp hp), zero_mul]

theorem least?_of_supports (h : b.Supports x d) : b.least? d = some (d * x) := by
  unfold least?
  split
  · next hd => rw [h.1 hd, Option.map_some]
  · split
    · next hd => rw [h.2 hd, Option.map_some]
    · next hn hp => rw [le_antisymm (not_lt.mp hn) (not_lt.mp hp), zero_mul]

end Bounds

theorem Var.sum_all (f : Var n m → ℚ) : ((Var.all n m).map f).sum = ∑ v, f v := by
  rw [all, List.map_append, List.sum_append, List.map_map, List.map_map, sum_eq, Fin.sum_univ_def,
    Fin.sum_univ_def]
  rfl

namespace Problem
variable {P : Problem n m}

theorem get_form (P : Problem n m) (y : Vec m) (v : Var n m) :
    (P.form y).get v = -P.combination y.get v := by
  cases v with
  | structural j =>
    simp only [form, PerVar.get, get_map, SparseMatrix.get_rowCombination]
    rfl
  | slack i =>
    simp [form, PerVar.get, combination, entry]

theorem least?_le {d : PerVar ℚ n m} {t : ℚ} (h : P.least? d = some t) {z : Var n m → ℚ}
    (hz : ∀ v, d.get v ≠ 0 → (P.bounds.get v).Contains (z v)) : t ≤ ∑ v, d.get v * z v := by
  have hfold : ∀ (l : List (Var n m)) (a : ℚ), l.foldlM (fun total v =>
      ((P.bounds.get v).least? (d.get v)).map fun t => total + t) a = some t →
      t ≤ a + (l.map fun v => d.get v * z v).sum := by
    intro l
    induction l with
    | nil =>
      intro a ha
      cases ha
      simp
    | cons v l ih =>
      intro a ha
      rw [List.foldlM_cons] at ha
      cases hl : (P.bounds.get v).least? (d.get v) with
      | none =>
        rw [hl] at ha
        cases ha
      | some c =>
        rw [hl] at ha
        have hle := ih _ ha
        have hc := Bounds.least?_le hl (hz v)
        rw [List.map_cons, List.sum_cons]
        linarith
  have hle := hfold _ _ h
  rwa [zero_add, Var.sum_all] at hle

theorem least?_of_supports {d : PerVar ℚ n m} {x : Var n m → ℚ}
    (h : ∀ v, (P.bounds.get v).Supports (x v) (d.get v)) :
    P.least? d = some (∑ v, d.get v * x v) := by
  have hfold : ∀ (l : List (Var n m)) (a : ℚ), l.foldlM (fun total v =>
      ((P.bounds.get v).least? (d.get v)).map fun t => total + t) a =
      some (a + (l.map fun v => d.get v * x v).sum) := by
    intro l
    induction l with
    | nil => simp
    | cons v l ih =>
      intro a
      rw [List.foldlM_cons, Bounds.least?_of_supports (h v), List.map_cons, List.sum_cons, ← add_assoc]
      exact ih _
  rw [least?, hfold, zero_add, Var.sum_all]

theorem isCertificate_iff {y : Vec m} :
    P.isCertificate y = true ↔ ∃ t, P.least? (P.form y) = some t ∧ 0 < t := by
  unfold isCertificate
  cases P.least? (P.form y) <;> simp

/-- A certified problem has no balanced point within its bounds. -/
theorem not_contains_of_isCertificate {y : Vec m} (h : P.isCertificate y = true) {z : Var n m → ℚ}
    (hz : P.Balanced z) : ¬∀ v, (P.bounds.get v).Contains (z v) := by
  intro hc
  obtain ⟨t, ht, hpos⟩ := isCertificate_iff.mp h
  have hle := least?_le ht fun v _ => hc v
  have hsum := hz.sum_combination y.get
  simp only [get_form, neg_mul, Finset.sum_neg_distrib, hsum] at hle
  linarith

end Problem

namespace State
variable {P : Problem n m} {s : State n m}

/-- The linear form of the row of a stuck variable is least at the violated bound. -/
theorem supports_stuck_row (h : s.Settled P) {l : Leaving n m} (hl : s.Leaves P l)
    (hblocked : ∀ k, l.side.sign * P.tableau s.basis l.row k = 0 ∨
      isEligible (P.bounds.get (s.basis.nonbasic.get k)) (s.values.get (s.basis.nonbasic.get k))
        (l.side.sign * P.tableau s.basis l.row k) = false) (v : Var n m) :
    (P.bounds.get v).Supports ((s.values.set l.var (s.leavingTarget P l)).get v)
      (-(l.side.sign * P.combination (P.inverseRow s.basis l.row) v)) := by
  rw [PerVar.get_set]
  by_cases hv : l.var = v
  · subst hv
    have hcomb := Problem.combination_inverseRow h.isUnit l.row l.row
    rw [hl.var_eq, if_pos rfl] at hcomb
    rw [if_pos rfl, hcomb]
    have hb := hl.bound_eq
    cases hs : l.side with
    | lower =>
      rw [hs] at hb
      exact Bounds.supports_of_lower hb (Or.inl (by norm_num [Side.sign]))
    | upper =>
      rw [hs] at hb
      exact Bounds.supports_of_upper hb (Or.inl (by norm_num [Side.sign]))
  · rw [if_neg hv]
    rcases h.basis.basic_or_nonbasic v with ⟨i, rfl⟩ | ⟨k, rfl⟩
    · rw [Problem.combination_inverseRow h.isUnit, if_neg, mul_zero, neg_zero]
      · exact Bounds.supports_zero
      · rintro rfl
        exact hv hl.var_eq.symm
    · exact supports_of_blocked (h.rests _ (h.basis.isBasic_nonbasic k)) (hblocked k)

theorem Stuck.isCertificate (h : s.Settled P) {l : Leaving n m} (hl : s.Leaves P l)
    (hblocked : ∀ k, l.side.sign * P.tableau s.basis l.row k = 0 ∨
      isEligible (P.bounds.get (s.basis.nonbasic.get k)) (s.values.get (s.basis.nonbasic.get k))
        (l.side.sign * P.tableau s.basis l.row k) = false) {y : Vec m}
    (hy : ∀ k, y.get k = l.side.sign * P.inverseRow s.basis l.row k) : P.isCertificate y = true := by
  have hform : ∀ v, (P.form y).get v =
      -(l.side.sign * P.combination (P.inverseRow s.basis l.row) v) := by
    intro v
    rw [P.get_form, ← P.combination_smul, Problem.combination, Problem.combination]
    simp only [hy]
  have hsup : ∀ v, (P.bounds.get v).Supports ((s.values.set l.var (s.leavingTarget P l)).get v)
      ((P.form y).get v) := by
    intro v
    rw [hform]
    exact supports_stuck_row h hl hblocked v
  refine Problem.isCertificate_iff.mpr ⟨_, Problem.least?_of_supports hsup, ?_⟩
  have hterm : ∀ v, (P.form y).get v * (s.values.set l.var (s.leavingTarget P l)).get v =
      (if l.var = v then l.side.sign * (s.values.get v - s.leavingTarget P l) else 0) -
        l.side.sign * (P.combination (P.inverseRow s.basis l.row) v * s.values.get v) := by
    intro v
    rw [hform, PerVar.get_set]
    by_cases hv : l.var = v
    · subst hv
      have hcomb := Problem.combination_inverseRow h.isUnit l.row l.row
      rw [hl.var_eq, if_pos rfl] at hcomb
      rw [if_pos rfl, if_pos rfl, hcomb]
      ring
    · rw [if_neg hv, if_neg hv]
      ring
  simp only [hterm, Finset.sum_sub_distrib]
  rw [← Finset.mul_sum, h.balanced.sum_combination, Finset.sum_ite_eq Finset.univ l.var,
    if_pos (Finset.mem_univ _), mul_zero, sub_zero]
  exact hl.violated

/-- The ray of a stuck variable is found, and it is a certificate. -/
theorem Stuck.stuckRay_eq (h : s.Settled P) (hc : ∀ v, (P.bounds.get v).Consistent) {v : Var n m}
    (hs : s.Stuck P v) : ∃ y, Solver.stuckRay P s v = some (some y) ∧ P.isCertificate y = true := by
  obtain ⟨l, rfl, hl, hblocked⟩ := hs
  have hplace : s.basis.place.get l.var = .basic l.row := h.basis.place_eq_basic.mpr hl.var_eq
  have hsign : (if (P.bounds.get l.var).lower.any fun b => s.values.get l.var < b then (-1 : ℚ)
      else 1) = l.side.sign := by
    have hb := hl.bound_eq
    have hv := hl.violated
    cases hs : l.side with
    | lower =>
      rw [hs, Bounds.get] at hb
      rw [hs, Side.sign] at hv
      rw [hb, Option.any_some, if_pos (decide_eq_true (by linarith))]
      rfl
    | upper =>
      rw [hs, Bounds.get] at hb
      rw [hs, Side.sign] at hv
      rw [if_neg]
      · rfl
      · cases hlow : (P.bounds.get l.var).lower with
        | none => simp
        | some b =>
          have hle := hc l.var b _ hlow hb
          simp only [Option.any_some, decide_eq_true_eq, not_lt]
          linarith
  obtain ⟨y, hy, heq⟩ := h.factors.solveTransposed_eq (put (Vec.zero m) l.row l.side.sign)
  have hyrow : ∀ k, y.get k = l.side.sign * P.inverseRow s.basis l.row k := by
    have hrow : y.get = fun k => l.side.sign * P.inverseRow s.basis l.row k := by
      refine Problem.eq_of_combination_basic h.isUnit fun r => ?_
      rw [← P.vecMul_basisMatrix, heq, get_put, Vec.get_zero, P.combination_smul,
        Problem.combination_inverseRow h.isUnit]
      split <;> simp
    exact congrFun hrow
  refine ⟨y, ?_, Stuck.isCertificate h hl hblocked hyrow⟩
  unfold Solver.stuckRay
  rw [hplace]
  simp only [hsign, hy, Option.map_some]

end State

namespace Problem
variable {P : Problem n m} {s : State n m}

/-- Checking a guess has a result, and a guess that is accepted is a certificate. -/
theorem checkGuess_cases (h : s.Sound P) (cfg : Config) (guess : Vector Double m) :
    (∃ e, P.checkGuess cfg s guess = some (.error e) ∧ e.isMilestone = false) ∨
      ∃ y, P.checkGuess cfg s guess = some (.ok y) ∧ P.isCertificate y = true := by
  unfold checkGuess
  split
  · exact Or.inl ⟨_, rfl, rfl⟩
  · split
    · next ray tolerance _ _ =>
      dsimp only
      split
      · exact Or.inl ⟨_, rfl, rfl⟩
      · obtain ⟨y, hy, _⟩ := h.factors.solveTransposed_eq (s.basis.basic.map fun v =>
          snap tolerance (SparseVec.dot (P.column v) ray))
        rw [hy, Option.map_some]
        split
        · next hcert => exact Or.inr ⟨y, rfl, hcert⟩
        · exact Or.inl ⟨_, rfl, rfl⟩
    · exact Or.inl ⟨_, rfl, rfl⟩

/-- The reasons for not using a guess. -/
theorem checkGuess_error {cfg : Config} {guess : Vector Double m} {e : Event}
    (h : P.checkGuess cfg s guess = some (.error e)) :
    e = .guessInvalid ∨ e = .guessInexact ∨ e = .guessZero ∨ e = .guessRefuted := by
  unfold checkGuess at h
  split at h
  · cases h
    simp
  · split at h
    · dsimp only at h
      split at h
      · cases h
        simp
      · obtain ⟨y, _, h⟩ := Option.map_eq_some_iff.mp h
        split at h
        · cases h
        · cases h
          simp
    · cases h
      simp

end Problem

end ExactSimplex
