import Mathlib.LinearAlgebra.Matrix.Rank
import ExactSimplex.Proofs.Factor.Elimination

/-! # The rank and the number of pivots

Eliminations keep the rank. The rows that have been pivoted on, in the order of their pivots, are
triangular in the columns that they were pivoted on, so there are never more pivots than the rank. When no
pivot is found any more the other rows are zero, so there are just as many.
-/
namespace ExactSimplex
open Matrix
variable {m : ℕ}

namespace Elimination
variable {e : Elimination m} {B : Matrix (Fin m) (Fin m) ℚ}

/-- The values of the pivot rows in the pivot columns, both in the order of the pivots. -/
def pivotMatrix (e : Elimination m) : Matrix (Fin e.order.length) (Fin e.order.length) ℚ :=
  (Matrix.of e.active.value).submatrix e.order.get fun k => e.columnOf.get (e.order.get k)

theorem Valid.rank_value (he : e.Valid B) : (Matrix.of e.active.value).rank = B.rank := by
  rw [← he.factored]
  exact rank_mul_eq_right_of_isUnit_det _ _ ((isUnit_iff_isUnit_det _).mp he.isUnit_etas)

theorem lt_of_before {α : Type} {l : List α} (hl : l.Nodup) {a b : Fin l.length}
    (h : [l.get a, l.get b].Sublist l) : a < b := by
  obtain ⟨f, hf⟩ := List.sublist_iff_exists_fin_orderEmbedding_get_eq.mp h
  have ha : a = f 0 := hl.injective_get (hf 0)
  have hb : b = f 1 := hl.injective_get (hf 1)
  rw [ha, hb]
  exact f.strictMono (show (0 : Fin 2) < 1 by decide)

/-- A pivot row does not reach back to the columns of the pivots before it. -/
theorem Valid.isUpperTriangular_pivotMatrix (he : e.Valid B) : e.pivotMatrix.IsUpperTriangular := by
  intro a b hba
  by_contra hne
  have ha := List.get_mem e.order a
  obtain ⟨hinactive, hrow⟩ := he.columnOf_spec _ (List.get_mem e.order b)
  have hsome : ((e.active.rows.get (e.order.get a)).get (e.columnOf.get (e.order.get b))).isSome := by
    refine Option.isSome_iff_ne_none.mpr fun hnone => hne ?_
    rw [pivotMatrix, submatrix_apply, of_apply, Active.value, hnone, Option.getD_none]
  have hcolumn : e.columnOf.get (e.order.get b) ≠ e.columnOf.get (e.order.get a) := by
    intro h
    have hsame : e.order.get b = e.order.get a := by
      rw [← hrow, h, (he.columnOf_spec _ ha).2]
    exact hba.ne (he.order_nodup.injective_get hsame)
  rcases he.reaches _ ha _ hsome hcolumn with hactive | hbefore
  · rw [hinactive] at hactive
    cases hactive
  · rw [hrow] at hbefore
    exact absurd (lt_of_before he.order_nodup hbefore) (not_lt.mpr hba.le)

theorem Valid.det_pivotMatrix_ne_zero (he : e.Valid B) : e.pivotMatrix.det ≠ 0 := by
  rw [det_of_isUpperTriangular he.isUpperTriangular_pivotMatrix]
  refine Finset.prod_ne_zero_iff.mpr fun k _ => ?_
  obtain ⟨v, hv⟩ := Option.isSome_iff_exists.mp (he.pivot_isSome _ (List.get_mem e.order k))
  rw [pivotMatrix, submatrix_apply, of_apply, Active.value, hv, Option.getD_some]
  exact he.active.ne_zero _ _ v hv

theorem Valid.length_order_le_rank (he : e.Valid B) : e.order.length ≤ B.rank := by
  have hrank := rank_of_det_ne_zero he.det_pivotMatrix_ne_zero
  rw [Fintype.card_fin] at hrank
  rw [← hrank, ← he.rank_value]
  exact rank_submatrix_le _ _ _

/-- When no pivot is left, the rank is the number of pivots that there have been. -/
theorem Exhausted.rank_eq (he : e.Exhausted B) : B.rank = e.order.length := by
  refine le_antisymm ?_ he.length_order_le_rank
  rw [← he.rank_value, ← List.toFinset_card_of_nodup he.order_nodup]
  refine rank_le_card_of_support_subset _ _ (Function.support_subset_iff'.mpr fun i hi => ?_)
  funext j
  exact he.zero i (fun hm => hi (Finset.mem_coe.mpr (List.mem_toFinset.mpr hm))) j

end Elimination

namespace Factorization
variable {columns : Vector (SparseVec m) m}

/-- The columns in another order. -/
def reordered (columns : Vector (SparseVec m) m) (σ : Equiv.Perm (Fin m)) : Vector (SparseVec m) m :=
  Vector.ofFn fun j => columns.get (σ j)

theorem columnMatrix_reordered (columns : Vector (SparseVec m) m) (σ : Equiv.Perm (Fin m)) :
    columnMatrix (reordered columns σ) = (columnMatrix columns).submatrix id σ := by
  ext i j
  simp [columnMatrix, reordered]

theorem isUnit_of_ofColumns (hc : ∀ j, ∀ e ∈ columns.get j, e.2 ≠ 0) {limit : ℕ} {F : Factorization m}
    {order : Vector (Fin m) m} (h : ofColumns columns limit = .ok (F, order)) :
    IsUnit (columnMatrix columns) := by
  obtain ⟨hb, hr⟩ := represents_of_ofColumns hc h
  exact (isUnit_submatrix_equiv (Equiv.refl _) (Equiv.ofBijective _ hb)).mp hr.isUnit

theorem ofColumns_exact (hc : ∀ j, ∀ e ∈ columns.get j, e.2 ≠ 0) (limit : ℕ) :
    (IsUnit (columnMatrix columns) ∧ ∃ F order, ofColumns columns limit = .ok (F, order)) ∨
    (columnMatrix columns).rank < m ∧ ofColumns columns limit =
      .error (.refused (.singularBasis (m - (columnMatrix columns).rank))) := by
  rcases (Elimination.valid_start hc).run limit (Nat.zero_add m) with ⟨final, hrun, _⟩ | ⟨last, he, hrun⟩
  · have hok : ofColumns columns limit = .ok (final.factors, final.columnOf) := by
      rw [ofColumns, hrun]
      rfl
    exact Or.inl ⟨isUnit_of_ofColumns hc hok, _, _, hok⟩
  · rw [he.rank_eq]
    refine Or.inr ⟨he.unfinished, ?_⟩
    rw [ofColumns, hrun]
    rfl

/-- What is reported apart from the factors depends on the rank only. -/
theorem ofColumns_verdict (hc : ∀ j, ∀ e ∈ columns.get j, e.2 ≠ 0) (limit : ℕ) :
    (ofColumns columns limit).map (fun _ => ()) = if (columnMatrix columns).rank = m then .ok ()
      else .error (.refused (.singularBasis (m - (columnMatrix columns).rank))) := by
  rcases ofColumns_exact hc limit with ⟨hu, F, order, hok⟩ | ⟨hlt, herr⟩
  · have hrank := rank_of_isUnit _ hu
    rw [Fintype.card_fin] at hrank
    rw [hok, if_pos hrank]
    rfl
  · rw [herr, if_neg hlt.ne]
    rfl

/-- A matrix is factorized exactly if it is nonsingular. Otherwise what its rank lacks is reported. Neither
depends on the search limit or on the order of the columns. -/
theorem singularity_detected (columns : Vector (SparseVec m) m)
    (hc : ∀ j, ∀ e ∈ columns.get j, e.2 ≠ 0) (limit : ℕ) :
    ((∃ F order, ofColumns columns limit = .ok (F, order)) ↔ IsUnit (columnMatrix columns)) ∧
    (¬IsUnit (columnMatrix columns) → (columnMatrix columns).rank < m ∧ ofColumns columns limit =
      .error (.refused (.singularBasis (m - (columnMatrix columns).rank)))) ∧
    ∀ otherLimit σ, (ofColumns (reordered columns σ) otherLimit).map (fun _ => ()) =
      (ofColumns columns limit).map fun _ => () := by
  refine ⟨⟨fun ⟨F, order, hok⟩ => isUnit_of_ofColumns hc hok, fun hu => ?_⟩, fun hs => ?_,
    fun otherLimit σ => ?_⟩
  · rcases ofColumns_exact hc limit with ⟨_, hok⟩ | ⟨hlt, _⟩
    · exact hok
    · rw [rank_of_isUnit _ hu, Fintype.card_fin] at hlt
      exact absurd hlt (lt_irrefl m)
  · rcases ofColumns_exact hc limit with ⟨hu, _⟩ | hsingular
    · exact absurd hu hs
    · exact hsingular
  · have hreordered : ∀ j, ∀ e ∈ (reordered columns σ).get j, e.2 ≠ 0 := fun j => by
      rw [reordered, get_ofFn]
      exact hc (σ j)
    have hrank : (columnMatrix (reordered columns σ)).rank = (columnMatrix columns).rank := by
      rw [columnMatrix_reordered]
      exact rank_submatrix _ (Equiv.refl _) σ
    rw [ofColumns_verdict hreordered, ofColumns_verdict hc, hrank]

/-- Four columns of rank two: the third one repeats a row and is twice the first one, and the last one is the
sum of the first two. They are also given in another order, and searched with another limit. -/
theorem singularity_detected_of_rank_two :
    ∃ columns : Vector (SparseVec 4) 4,
      columns = #v[[(0, 1), (2, 2)], [(1, 1), (2, 1)], [(0, 3), (0, 2), (2, 4)], [(0, 1), (1, 1), (2, 3)]] ∧
      (∀ j, ∀ e ∈ columns.get j, e.2 ≠ 0) ∧ ¬IsUnit (columnMatrix columns) ∧
      (columnMatrix columns).rank = 2 ∧
      (ofColumns columns 0).map (fun _ => ()) = .error (.refused (.singularBasis 2)) ∧
      (ofColumns (reordered columns (Equiv.swap 0 3)) 4).map (fun _ => ()) =
        .error (.refused (.singularBasis 2)) := by
  have hc : ∀ j, ∀ e ∈ (#v[[(0, 1), (2, 2)], [(1, 1), (2, 1)], [(0, 3), (0, 2), (2, 4)],
      [(0, 1), (1, 1), (2, 3)]] : Vector (SparseVec 4) 4).get j, e.2 ≠ 0 := by decide +kernel
  have hrun : (ofColumns (m := 4) #v[[(0, 1), (2, 2)], [(1, 1), (2, 1)], [(0, 3), (0, 2), (2, 4)],
      [(0, 1), (1, 1), (2, 3)]] 0).map (fun _ => ()) = .error (.refused (.singularBasis 2)) := by decide +kernel
  obtain ⟨hiff, hsingular, horder⟩ := singularity_detected _ hc 0
  have hs : ¬IsUnit _ := fun hu => by
    obtain ⟨F, order, hok⟩ := hiff.mpr hu
    rw [hok] at hrun
    cases hrun
  obtain ⟨hlt, hreported⟩ := hsingular hs
  have hrank := hrun
  rw [hreported] at hrank
  simp only [Except.map, Except.error.injEq, Failure.refused.injEq, Error.singularBasis.injEq] at hrank
  exact ⟨_, rfl, hc, hs, by omega, hrun, (horder 4 (Equiv.swap 0 3)).trans hrun⟩

end Factorization

end ExactSimplex
