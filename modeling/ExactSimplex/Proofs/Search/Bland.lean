import Mathlib.Data.Finset.Max
import ExactSimplex.Proofs.Search.Pass

/-! # Bland's rule does not cycle

While the objective value stays the same, every step along the reduced costs is zero, so the reduced
costs stay the same too. Suppose that a run of such pivots returns to where it began. Of all variables
that moved, take the one with the highest index: when it leaves, all other moved variables are within
their bounds, and when it enters, none of them can. The equation of the pivot at which it enters,
applied to the difference of these two points, then has only terms of one sign.
-/
namespace ExactSimplex
variable {n m : ℕ}

theorem Bounds.Contains.sign_mul_nonpos {b : Bounds} {x target : ℚ} {side : Side}
    (h : b.Contains x) (hb : b.get side = some target) : side.sign * (x - target) ≤ 0 := by
  cases side with
  | lower =>
    have hx := h.1 target hb
    simp only [Side.sign]
    linarith
  | upper =>
    have hx := h.2 target hb
    simp only [Side.sign]
    linarith

namespace State
variable {P : Problem n m}

/-- Pivots by Bland's rule that leave the objective value as it is. -/
structure BlandRun (P : Problem n m) (length : ℕ) (s : ℕ → State n m) (μ : ℕ → Move n m) : Prop where
  consistent : ∀ v, (P.bounds.get v).Consistent
  ready : ∀ k ≤ length, (s k).Ready P
  pivots : ∀ k < length, Pivots P true (s k).toPoint (s (k + 1)).toPoint (μ k)
  constant : ∀ k < length, P.objectiveValue (s (k + 1)).values = P.objectiveValue (s k).values

namespace BlandRun
variable {length : ℕ} {s : ℕ → State n m} {μ : ℕ → Move n m} (h : BlandRun P length s μ)
include h

theorem step_eq_zero {k : ℕ} (hk : k < length) : (μ k).step = 0 :=
  (h.pivots k hk).step_eq_zero (h.ready k hk.le) (h.constant k hk)

theorem spread_eq {k : ℕ} (hk : k ≤ length) (v : Var n m) :
    (s k).basis.spread (s k).reduced v = (s 0).basis.spread (s 0).reduced v := by
  induction k with
  | zero => rfl
  | succ k ih =>
    rw [(h.pivots k hk).spread_eq, h.step_eq_zero hk, zero_mul, sub_zero, ih (Nat.le_of_succ_le hk)]

/-- A variable that is basic at some point has no reduced cost at any point. -/
theorem spread_eq_zero {j k : ℕ} (hj : j ≤ length) (hk : k ≤ length) {v : Var n m}
    (hv : (s j).basis.isBasic v = true) : (s k).basis.spread (s k).reduced v = 0 := by
  rw [h.spread_eq hk, ← h.spread_eq hj]
  exact (h.ready j hj).basis.spread_of_isBasic _ hv

theorem entering_eq {k : ℕ} (hk : k < length) {v : Var n m}
    (hv : (s k).basis.isBasic v = false) (hv' : (s (k + 1)).basis.isBasic v = true) :
    (μ k).entering = v := by
  by_contra hne
  rw [(h.pivots k hk).isBasic_eq, if_neg (Ne.symm hne)] at hv'
  split at hv'
  · cases hv'
  · rw [hv] at hv'
    cases hv'

theorem leaving_eq {k : ℕ} (hk : k < length) {v : Var n m}
    (hv : (s k).basis.isBasic v = true) (hv' : (s (k + 1)).basis.isBasic v = false) :
    (μ k).leaving = v := by
  by_contra hne
  rw [(h.pivots k hk).isBasic_eq] at hv'
  split at hv'
  · cases hv'
  · rw [if_neg (Ne.symm hne), hv] at hv'
    cases hv'

theorem value_eq {k : ℕ} (hk : k < length) {v : Var n m} (hv : (s k).basis.isBasic v = false)
    (hv' : (s (k + 1)).basis.isBasic v = false) : (s (k + 1)).values.get v = (s k).values.get v := by
  have hne : v ≠ (μ k).entering := by
    rintro rfl
    rw [(h.pivots k hk).isBasic_eq, if_pos rfl] at hv'
    cases hv'
  rw [(h.pivots k hk).value_nonbasic v hv hne, (h.pivots k hk).unflipped rfl, add_zero]

/-- A variable that is basic first and nonbasic later has left, for the place where it is then. -/
theorem exists_leaving {i j : ℕ} (hij : i ≤ j) (hj : j ≤ length) {v : Var n m}
    (hi : (s i).basis.isBasic v = true) (hv : (s j).basis.isBasic v = false) :
    ∃ k, k < length ∧ (μ k).leaving = v ∧ (s (k + 1)).values.get v = (s j).values.get v := by
  induction j, hij using Nat.le_induction with
  | base =>
    rw [hi] at hv
    cases hv
  | succ j hij ih =>
    cases hb : (s j).basis.isBasic v with
    | true => exact ⟨j, hj, h.leaving_eq hj hb hv, rfl⟩
    | false =>
      obtain ⟨k, hk, hl, hval⟩ := ih (Nat.le_of_succ_le hj) hb
      exact ⟨k, hk, hl, hval.trans (h.value_eq hj hb hv).symm⟩

theorem exists_entering {i j : ℕ} (hij : i ≤ j) (hj : j ≤ length) {v : Var n m}
    (hi : (s i).basis.isBasic v = false) (hv : (s j).basis.isBasic v = true) :
    ∃ k, k < length ∧ (μ k).entering = v := by
  induction j, hij using Nat.le_induction with
  | base =>
    rw [hi] at hv
    cases hv
  | succ j hij ih =>
    cases hb : (s j).basis.isBasic v with
    | false => exact ⟨j, hj, h.entering_eq hj hb hv⟩
    | true => exact ih (Nat.le_of_succ_le hj) hb

theorem value_eq_of_nonbasic {j : ℕ} (hj : j ≤ length) {v : Var n m}
    (hv : ∀ k ≤ j, (s k).basis.isBasic v = false) : (s j).values.get v = (s 0).values.get v := by
  induction j with
  | zero => rfl
  | succ j ih =>
    rw [h.value_eq hj (hv j (Nat.le_succ j)) (hv (j + 1) le_rfl)]
    exact ih (Nat.le_of_succ_le hj) fun k hk => hv k (hk.trans (Nat.le_succ j))

omit h in
def Moved (length : ℕ) (μ : ℕ → Move n m) (v : Var n m) : Prop :=
  ∃ k < length, (μ k).leaving = v ∨ (μ k).entering = v

theorem exists_basic_of_moved {v : Var n m} (hv : Moved length μ v) :
    ∃ k ≤ length, (s k).basis.isBasic v = true := by
  obtain ⟨k, hk, rfl | rfl⟩ := hv
  · exact ⟨k, hk.le, (h.pivots k hk).leaving_basic⟩
  · exact ⟨k + 1, hk, by rw [(h.pivots k hk).isBasic_eq, if_pos rfl]⟩

theorem exists_nonbasic_of_moved {v : Var n m} (hv : Moved length μ v) :
    ∃ k ≤ length, (s k).basis.isBasic v = false := by
  obtain ⟨k, hk, rfl | rfl⟩ := hv
  · refine ⟨k + 1, hk, ?_⟩
    rw [(h.pivots k hk).isBasic_eq, if_neg (h.pivots k hk).leaving_ne_entering, if_pos rfl]
  · exact ⟨k, hk.le, (h.pivots k hk).entering_nonbasic⟩

theorem value_eq_of_not_moved {v : Var n m} (hv : ¬Moved length μ v) {j k : ℕ} (hj : j ≤ length)
    (hk : k ≤ length) (hb : (s j).basis.isBasic v = false) :
    (s k).values.get v = (s j).values.get v := by
  have hsame : ∀ i ≤ length, (s i).basis.isBasic v = (s 0).basis.isBasic v := by
    intro i hi
    induction i with
    | zero => rfl
    | succ i ih =>
      rw [(h.pivots i hi).isBasic_eq, if_neg fun he => hv ⟨i, hi, Or.inr he.symm⟩,
        if_neg fun he => hv ⟨i, hi, Or.inl he.symm⟩, ih (Nat.le_of_succ_le hi)]
  have hnon : ∀ i ≤ length, (s i).basis.isBasic v = false :=
    fun i hi => (hsame i hi).trans ((hsame j hj).symm.trans hb)
  rw [h.value_eq_of_nonbasic hk fun i hi => hnon i (hi.trans hk),
    h.value_eq_of_nonbasic hj fun i hi => hnon i (hi.trans hj)]

section Return
variable (hbasic : ∀ v, (s length).basis.isBasic v = (s 0).basis.isBasic v)
include hbasic

/-- In a run that returns, every variable that moves enters. -/
theorem exists_entering_of_moved {v : Var n m} (hv : Moved length μ v) :
    ∃ k, k < length ∧ (μ k).entering = v := by
  obtain ⟨i, hi, hib⟩ := h.exists_basic_of_moved hv
  obtain ⟨j, hj, hjn⟩ := h.exists_nonbasic_of_moved hv
  rcases le_total j i with hji | hij
  · exact h.exists_entering hji hi hjn hib
  · cases hl : (s length).basis.isBasic v with
    | true => exact h.exists_entering hj le_rfl hjn hl
    | false =>
      rw [hbasic] at hl
      exact h.exists_entering (Nat.zero_le i) hi hl hib

variable (hvalue : ∀ v, (s 0).basis.isBasic v = false →
  (s length).values.get v = (s 0).values.get v)
include hvalue

/-- It leaves for the place from which it enters. -/
theorem exists_leaving_of_entering {j : ℕ} (hj : j < length) :
    ∃ k, k < length ∧ (μ k).leaving = (μ j).entering ∧
      (s (k + 1)).values.get (μ j).entering = (s j).values.get (μ j).entering := by
  have hn := (h.pivots j hj).entering_nonbasic
  by_cases hi : ∃ i ≤ j, (s i).basis.isBasic (μ j).entering = true
  · obtain ⟨i, hij, hib⟩ := hi
    exact h.exists_leaving hij hj.le hib hn
  · -- it has rested since the beginning, so it leaves for that place before the end
    have hrest : ∀ i ≤ j, (s i).basis.isBasic (μ j).entering = false := by
      intro i hij
      cases hb : (s i).basis.isBasic (μ j).entering with
      | false => rfl
      | true => exact absurd ⟨i, hij, hb⟩ hi
    have h0 := hrest 0 (Nat.zero_le j)
    have hend : (s length).basis.isBasic (μ j).entering = false := (hbasic _).trans h0
    have hb : (s (j + 1)).basis.isBasic (μ j).entering = true := by
      rw [(h.pivots j hj).isBasic_eq, if_pos rfl]
    obtain ⟨k, hk, hl, hval⟩ := h.exists_leaving hj le_rfl hb hend
    exact ⟨k, hk, hl, hval.trans ((hvalue _ h0).trans (h.value_eq_of_nonbasic hj.le hrest).symm)⟩

end Return

theorem contains_of_lower {k : ℕ} (hk : k < length) {v : Var n m}
    (hv : v.index < (μ k).leaving.index) : (P.bounds.get v).Contains ((s k).values.get v) := by
  cases hb : (s k).basis.isBasic v with
  | true => exact (h.pivots k hk).lowest_leaving rfl v hb hv
  | false => exact ((h.ready k hk.le).rests v hb).contains (h.consistent v)

/-- A variable that leaves for the place from which it enters pulls the equation of that pivot to
the negative side. -/
theorem row_mul_entering_nonpos {j k : ℕ} (hj : j < length) (hk : k < length)
    (hl : (μ k).leaving = (μ j).entering)
    (hval : (s (k + 1)).values.get (μ j).entering = (s j).values.get (μ j).entering) :
    (μ j).row (μ j).entering *
      ((s k).values.get (μ j).entering - (s j).values.get (μ j).entering) ≤ 0 := by
  have hviol := (h.pivots k hk).violated
  have hbound := (h.pivots k hk).bound_eq
  rw [Move.violation, ← (h.pivots k hk).value_leaving, hl, hval] at hviol
  rw [← (h.pivots k hk).value_leaving, hl, hval] at hbound
  rcases isEligible_iff.mp (h.pivots j hj).eligible with hf | ⟨hlow, hupp, hpos⟩ | ⟨hupp, hlow, hneg⟩
  · cases hs : (μ k).side with
    | lower =>
      rw [hs, Bounds.get, hf.1] at hbound
      cases hbound
    | upper =>
      rw [hs, Bounds.get, hf.2] at hbound
      cases hbound
  · cases hs : (μ k).side with
    | lower =>
      rw [hs, Side.sign] at hviol
      exact mul_nonpos_of_nonneg_of_nonpos hpos.le (by linarith)
    | upper =>
      rw [hs] at hbound
      exact absurd hbound hupp
  · cases hs : (μ k).side with
    | lower =>
      rw [hs] at hbound
      exact absurd hbound hlow
    | upper =>
      rw [hs, Side.sign] at hviol
      exact mul_nonpos_of_nonpos_of_nonneg hneg.le (by linarith)

/-- So do the other moved variables, because none of them could enter. -/
theorem row_mul_moved_nonpos {j : ℕ} (hj : j < length) {v : Var n m} (hv : Moved length μ v)
    (hn : (s j).basis.isBasic v = false) (hlt : v.index < (μ j).entering.index) {z : ℚ}
    (hz : (P.bounds.get v).Contains z) : (μ j).row v * (z - (s j).values.get v) ≤ 0 := by
  have hblocked : (μ j).row v = 0 ∨
      isEligible (P.bounds.get v) ((s j).values.get v) ((μ j).row v) = false := by
    by_contra hcon
    rw [not_or, Bool.not_eq_false] at hcon
    obtain ⟨i, hi, hib⟩ := h.exists_basic_of_moved hv
    have hle := (h.pivots j hj).lowest_entering rfl v hn hcon.1 hcon.2 (by
      rw [h.spread_eq_zero hi hj.le hib, h.step_eq_zero hj, zero_mul])
    exact absurd hlt (not_lt.mpr hle)
  have hs := (supports_of_blocked ((h.ready j hj.le).rests v hn) hblocked).mul_le hz
  linarith

/-- The leaving variable of the pivot pulls it there for certain. -/
theorem row_mul_leaving_neg {j : ℕ} (hj : j < length) {z : ℚ}
    (hz : (P.bounds.get (μ j).leaving).Contains z) :
    (μ j).row (μ j).leaving * (z - (s j).values.get (μ j).leaving) < 0 := by
  have hx := hz.sign_mul_nonpos (h.pivots j hj).bound_eq
  have hviol := (h.pivots j hj).violated
  rw [Move.violation] at hviol
  rw [(h.pivots j hj).row_leaving]
  linarith

/-- A run of pivots by Bland's rule with a constant objective value does not return to the places of
its variables. -/
theorem not_returns (hpos : 0 < length)
    (hbasic : ∀ v, (s length).basis.isBasic v = (s 0).basis.isBasic v)
    (hvalue : ∀ v, (s 0).basis.isBasic v = false →
      (s length).values.get v = (s 0).values.get v) : False := by
  classical
  -- the highest variable that moves, where it enters and where it leaves
  obtain ⟨v, hv, hmax⟩ := Finset.exists_max_image (Finset.univ.filter (Moved length μ)) Var.index
    ⟨(μ 0).leaving, by simpa using ⟨0, hpos, Or.inl rfl⟩⟩
  obtain ⟨j, hj, rfl⟩ := h.exists_entering_of_moved hbasic (Finset.mem_filter.mp hv).2
  obtain ⟨k, hk, hl, hval⟩ := h.exists_leaving_of_entering hbasic hvalue hj
  have hlower : ∀ v, Moved length μ v → v ≠ (μ j).entering → v.index < (μ j).entering.index := by
    intro v hm hne
    refine lt_of_le_of_ne (hmax v (Finset.mem_filter.mpr ⟨Finset.mem_univ v, hm⟩)) fun he => hne ?_
    exact Var.index_injective he
  have hcontains : ∀ v, Moved length μ v → v ≠ (μ j).entering →
      (P.bounds.get v).Contains ((s k).values.get v) := by
    intro v hm hne
    refine h.contains_of_lower hk ?_
    rw [hl]
    exact hlower v hm hne
  have hp := h.pivots j hj
  have hsum := hp.sum_row ((h.ready k hk.le).balanced.sub (h.ready j hj.le).balanced)
  have hle : ∀ v, (μ j).row v * ((s k).values.get v - (s j).values.get v) ≤ 0 := by
    intro v
    by_cases hm : Moved length μ v
    · by_cases he : v = (μ j).entering
      · rw [he]
        exact h.row_mul_entering_nonpos hj hk hl hval
      · cases hb : (s j).basis.isBasic v with
        | false => exact h.row_mul_moved_nonpos hj hm hb (hlower v hm he) (hcontains v hm he)
        | true =>
          by_cases hv : v = (μ j).leaving
          · subst hv
            exact (h.row_mul_leaving_neg hj (hcontains _ hm he)).le
          · rw [hp.row_basic v hb hv, zero_mul]
    · cases hb : (s j).basis.isBasic v with
      | false => rw [h.value_eq_of_not_moved hm hj.le hk.le hb, sub_self, mul_zero]
      | true => rw [hp.row_basic v hb fun hv => hm ⟨j, hj, Or.inl hv.symm⟩, zero_mul]
  have hz := (Finset.sum_eq_zero_iff_of_nonpos fun v _ => hle v).mp hsum (μ j).leaving
    (Finset.mem_univ _)
  have hneg := h.row_mul_leaving_neg hj (hcontains _ ⟨j, hj, Or.inl rfl⟩ hp.leaving_ne_entering)
  exact hneg.ne hz

end BlandRun

end State

end ExactSimplex
