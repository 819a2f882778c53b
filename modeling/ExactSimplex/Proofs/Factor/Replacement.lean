import Mathlib.LinearAlgebra.Matrix.Adjugate
import ExactSimplex.Proofs.Factor.Safety

/-! # Which columns can be replaced

The displaced row is cleared by a combination of rows of the triangular factor that takes it to a multiple
of a unit vector. Read on the solved column instead of the spike, this combination gives the new diagonal
value: the old one times the component of the solved column at the pivot. By Cramer's rule that component
decides whether the matrix with the new column is nonsingular.
-/
namespace ExactSimplex
open Matrix
variable {m : ℕ}

/-- A column that is a combination of all columns takes the determinant to the multiple that it has of the
column in its place. -/
theorem det_updateCol_mulVec (B : Matrix (Fin m) (Fin m) ℚ) (p : Fin m) (x : Fin m → ℚ) :
    (B.updateCol p (B *ᵥ x)).det = B.det * x p := by
  rw [← cramer_apply, cramer_eq_adjugate_mulVec, mulVec_mulVec, adjugate_mul, smul_mulVec, one_mulVec]
  rfl

namespace Factorization
variable {F G : Factorization m} {B : Matrix (Fin m) (Fin m) ℚ}

/-- No row after the pivot reaches back to it. -/
theorem Represents.lineMatrix_after (h : F.Represents B) {p i : Fin m} (hi : i ∈ F.after p) :
    lineMatrix F.rows i p = 0 := by
  obtain ⟨_, hp, hafter, _⟩ := h.after_spec p
  have hip : i ≠ p := fun he => hp (he ▸ hi)
  have hk : p ∉ SparseVec.keys (F.rows.get i).others := fun hk =>
    hp ((hafter i hi p (h.rows_before i p hk)).subset (by simp))
  rw [lineMatrix, of_apply, if_neg hip, SparseVec.coeff_eq_zero hk, add_zero]

theorem Represents.upper_mulVec (h : F.Represents B) {a alpha : Vec m} (ha : B *ᵥ alpha.get = a.get) :
    lineMatrix F.rows *ᵥ alpha.get = (F.applyEtas a).get := by
  rw [← h.factored, ← mulVec_mulVec, ha, get_applyEtas]

/-- The value that is left of the displaced row is the old diagonal value times the component of the solved
column at the pivot. -/
theorem Represents.cleared_eq (h : F.Represents B) {p : Fin m} {a alpha w : Vec m}
    {multipliers : SparseVec m} (ha : B *ᵥ alpha.get = a.get)
    (hk : ∀ i ∈ SparseVec.keys multipliers, i ∈ F.after p) (hz : ∀ j, j ≠ p → w.get j = 0)
    (hw : ∀ j, w.get j = (lineMatrix F.rows).updateCol p (F.applyEtas a).get p j +
      ∑ i, SparseVec.coeff multipliers i *
        (lineMatrix F.rows).updateCol p (F.applyEtas a).get i j) :
    w.get p = alpha.get p * (F.rows.get p).diagonal := by
  let combination : Fin m → ℚ := Pi.single p 1 + SparseVec.coeff multipliers
  have hsum : ∀ f : Fin m → ℚ,
      combination ⬝ᵥ f = f p + ∑ i, SparseVec.coeff multipliers i * f i := by
    intro f
    rw [add_dotProduct, single_dotProduct, one_mul]
    rfl
  -- apart from column `p` the factor with the spike is the old one, and there the old one is triangular
  have hrow : combination ᵥ* lineMatrix F.rows = Pi.single p (F.rows.get p).diagonal := by
    funext j
    change combination ⬝ᵥ (fun i => lineMatrix F.rows i j) = _
    rw [hsum]
    by_cases hj : j = p
    · subst hj
      rw [Pi.single_eq_same, h.lineMatrix_diagonal, Finset.sum_eq_zero, add_zero]
      intro i _
      by_cases hi : i ∈ SparseVec.keys multipliers
      · rw [h.lineMatrix_after (hk i hi), mul_zero]
      · rw [SparseVec.coeff_eq_zero hi, zero_mul]
    · have hwj := hw j
      simp only [updateCol_ne hj, hz j hj] at hwj
      rw [Pi.single_eq_of_ne hj, ← hwj]
  have hwp := hw p
  simp only [updateCol_self] at hwp
  calc w.get p = combination ⬝ᵥ (F.applyEtas a).get := by rw [hwp, hsum]
    _ = (combination ᵥ* lineMatrix F.rows) ⬝ᵥ alpha.get := by
      rw [← h.upper_mulVec ha, dotProduct_mulVec]
    _ = alpha.get p * (F.rows.get p).diagonal := by rw [hrow, single_dotProduct, mul_comm]

theorem Represents.isUnit_updateCol_iff (h : F.Represents B) {p : Fin m} {a alpha : Vec m}
    (ha : B *ᵥ alpha.get = a.get) : IsUnit (B.updateCol p a.get) ↔ alpha.get p ≠ 0 := by
  have hB := (isUnit_iff_isUnit_det B).mp h.isUnit
  rw [isUnit_iff_isUnit_det, ← ha, det_updateCol_mulVec, isUnit_iff_ne_zero, mul_ne_zero_iff]
  exact and_iff_right (isUnit_iff_ne_zero.mp hB)

/-- A replacement is refused when the solved column vanishes at the pivot, and otherwise multiplies the
diagonal value there by its component. -/
theorem Represents.replaceColumn_exact (h : F.Represents B) (p : Fin m) {a alpha : Vec m}
    (ha : B *ᵥ alpha.get = a.get) :
    alpha.get p = 0 ∧ F.replaceColumn p a = .error (.refused (.singularBasis 1)) ∨
    alpha.get p ≠ 0 ∧ ∃ G, F.replaceColumn p a = .ok G ∧
      (G.rows.get p).diagonal = alpha.get p * (F.rows.get p).diagonal ∧
      (G.columns.get p).diagonal = alpha.get p * (F.columns.get p).diagonal := by
  obtain ⟨w, multipliers, _, hk, hz, hw, hinsert⟩ := h.insertSpike_cases p (F.applyEtas a)
  have hcleared := h.cleared_eq ha hk hz hw
  have hiff : w.get p = 0 ↔ alpha.get p = 0 := by
    rw [hcleared, mul_eq_zero, or_iff_left (h.diagonal_ne_zero p)]
  rw [Factorization.replaceColumn, hinsert]
  by_cases hp : alpha.get p = 0
  · exact Or.inl ⟨hp, if_pos (hiff.mpr hp)⟩
  · refine Or.inr ⟨hp, _, if_neg (mt hiff.mp hp), ?_, ?_⟩
    · rw [Coherent.get_rows_withSpike, if_pos rfl]
      exact hcleared
    · rw [h.get_columns_withSpike, if_pos rfl, h.columns_diagonal]
      exact hcleared

/-- After any run of replacements exactly those columns can be replaced that leave the matrix nonsingular,
which shows in the solved column. A replacement that is refused is reported as singular, and one that is
accepted multiplies the diagonal value. -/
theorem replacement_exact (columns : Vector (SparseVec m) m) (limit : ℕ)
    (hc : ∀ j, ∀ e ∈ columns.get j, e.2 ≠ 0) (F : Factorization m) (order : Vector (Fin m) m)
    (hF : ofColumns columns limit = .ok (F, order)) (replacements : List (Fin m × Vec m))
    (G : Factorization m) (hG : F.replaceColumns replacements = .ok G) (p : Fin m) (a : Vec m) :
    ∃ alpha, G.solve a = some alpha ∧
      ((∃ H, G.replaceColumn p a = .ok H) ↔ alpha.get p ≠ 0) ∧
      ((∃ H, G.replaceColumn p a = .ok H) ↔ IsUnit ((overwritten
        ((columnMatrix columns).submatrix id order.get) replacements).updateCol p a.get)) ∧
      ((¬∃ H, G.replaceColumn p a = .ok H) →
        G.replaceColumn p a = .error (.refused (.singularBasis 1))) ∧
      ∀ H, G.replaceColumn p a = .ok H →
        (H.rows.get p).diagonal = alpha.get p * (G.rows.get p).diagonal ∧
        (H.columns.get p).diagonal = alpha.get p * (G.columns.get p).diagonal := by
  have hr := (represents_of_ofColumns hc hF).2.replaceColumns hG
  obtain ⟨alpha, hsolve, ha⟩ := hr.solve_eq a
  refine ⟨alpha, hsolve, ?_⟩
  rw [hr.isUnit_updateCol_iff ha]
  rcases hr.replaceColumn_exact p ha with ⟨hp, hrefused⟩ | ⟨hp, H, hH, hdiagonal⟩
  · rw [hrefused]
    simp [hp]
  · rw [hH]
    refine ⟨⟨fun _ => hp, fun _ => ⟨H, rfl⟩⟩, ⟨fun _ => hp, fun _ => ⟨H, rfl⟩⟩,
      fun hn => absurd ⟨H, rfl⟩ hn, fun K hK => ?_⟩
    cases hK
    exact hdiagonal

/-- After one replacement, a column that the matrix already has elsewhere is refused, and another one is
accepted. -/
theorem replacement_exact_of_repeated_column :
    ∃ (F G H : Factorization 3) (order : Vector (Fin 3) 3) (alpha beta : Vec 3),
      ofColumns #v[[(0, 2), (2, 1)], [(0, 5), (0, 1), (1, 3)], [(1, 1), (2, 4)]] 4 = .ok (F, order) ∧
      F.replaceColumns [(1, #v[1, 0, 1])] = .ok G ∧
      G.solve #v[1, 1, 1] = some alpha ∧ alpha.get 0 ≠ 0 ∧ G.replaceColumn 0 #v[1, 1, 1] = .ok H ∧
      (H.rows.get 0).diagonal = alpha.get 0 * (G.rows.get 0).diagonal ∧
      G.solve #v[1, 0, 1] = some beta ∧ beta.get 0 = 0 ∧
      ¬IsUnit ((overwritten ((columnMatrix
        #v[[(0, 2), (2, 1)], [(0, 5), (0, 1), (1, 3)], [(1, 1), (2, 4)]]).submatrix id order.get)
        [(1, #v[1, 0, 1])]).updateCol 0 (#v[1, 0, 1] : Vec 3).get) ∧
      G.replaceColumn 0 #v[1, 0, 1] = .error (.refused (.singularBasis 1)) := by
  have hrun : (match ofColumns (m := 3)
        #v[[(0, 2), (2, 1)], [(0, 5), (0, 1), (1, 3)], [(1, 1), (2, 4)]] 4 with
      | .ok (F, _) =>
        match F.replaceColumns [(1, #v[1, 0, 1])] with
        | .ok G => (G.replaceColumn 0 #v[1, 1, 1]).isOk && !(G.replaceColumn 0 #v[1, 0, 1]).isOk
        | .error _ => false
      | .error _ => false) = true := by decide +kernel
  split at hrun
  · next F order hF =>
    split at hrun
    · next G hG =>
      obtain ⟨haccepted, hrefused⟩ := Bool.and_eq_true_iff.mp hrun
      have hexact := replacement_exact _ 4 (by decide) F order hF _ G hG 0
      obtain ⟨alpha, halpha, hiff, _, _, hdiagonal⟩ := hexact #v[1, 1, 1]
      obtain ⟨beta, hbeta, hiff', hunit, herror, _⟩ := hexact #v[1, 0, 1]
      cases hH : G.replaceColumn 0 #v[1, 1, 1] with
      | error failure =>
        rw [hH] at haccepted
        cases haccepted
      | ok H =>
        have hnone : ¬∃ K, G.replaceColumn 0 #v[1, 0, 1] = .ok K := by
          rintro ⟨K, hK⟩
          rw [hK] at hrefused
          cases hrefused
        exact ⟨F, G, H, order, alpha, beta, hF, hG, halpha, hiff.mp ⟨H, hH⟩, hH, (hdiagonal H hH).1,
          hbeta, not_ne_iff.mp (mt hiff'.mpr hnone), mt hunit.mpr hnone, herror hnone⟩
    · cases hrun
  · cases hrun

end Factorization

end ExactSimplex
