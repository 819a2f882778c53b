import ExactSimplex.Proofs.Factor.Elimination

/-! # Factorizations without a failing step

Whatever elimination a factorization passes through, the pivot search compares lines that have values,
and it points at an active position whose value is not zero. Pivoting there only changes the counts of
lines that are still active, and notes multiples that are not zero. A column can be replaced whenever the
matrix stays nonsingular.
-/
namespace ExactSimplex
open Matrix
variable {m : ℕ}

namespace Active
variable {A B : Active m}

theorem rowCount_pos {p q : Fin m} (h : ((A.rows.get p).get q).isSome) : 0 < A.rowCount p := by
  apply Vector.countP_pos_iff.mpr
  exact ⟨(A.rows.get p).get q, Vector.getElem_mem q.isLt, h⟩

theorem Valid.counts_pos (hA : A.Valid) {position : Pivot m} (h : A.Holds position) :
    0 < A.rowCount position.row ∧ 0 < A.columnCount position.column := by
  obtain ⟨hrow, hcolumn, hvalue⟩ := h
  exact ⟨rowCount_pos hvalue, memberCount_pos ((hA.mirrored _ _ hcolumn).mpr ⟨hrow, hvalue⟩)⟩

end Active

namespace Elimination
variable {e : Elimination m} {columns : Vector (SparseVec m) m} {limit : ℕ}

/-- The eliminations that a factorization passes through. -/
inductive Visited (columns : Vector (SparseVec m) m) (limit : ℕ) : Elimination m → Prop
  | start : Visited columns limit (start columns)
  | step {e next : Elimination m} {position : Pivot m} (he : Visited columns limit e)
      (hp : e.active.choosePivot limit = some position) (hs : e.step position = some next) :
      Visited columns limit next

/-- What the search for a pivot and the pivot itself rely on: counts from which one is taken off are
positive, the position is active and has a value, the lines whose counts change are still there once
the pivot row and column have been taken out, and the eta is proper. -/
structure Checks (limit : ℕ) (e : Elimination m) : Prop where
  counts : ∀ k line, (k, line) ∈ e.active.lines → 0 < k ∧ ∀ offer ∈ e.active.offers k line,
    0 < e.active.rowCount offer.2.row ∧ 0 < e.active.columnCount offer.2.column
  position : ∀ position, e.active.choosePivot limit = some position →
    e.active.Holds position ∧
    (∃ value, (e.active.rows.get position.row).get position.column = some value ∧ value ≠ 0) ∧
    (∀ i ∈ e.active.rowsIn position.column, i ≠ position.row →
      (e.active.rowGroups.remove position.row).contains i = true) ∧
    (∀ j ∈ e.active.columnsIn position.row, j ≠ position.column →
      (e.active.columnGroups.remove position.column).contains j = true) ∧
    ∃ active multipliers, e.active.pivot position = some (active, multipliers) ∧
      Eta.Proper ⟨position.row, multipliers⟩

theorem Visited.valid (h : Visited columns limit e)
    (hc : ∀ j, ∀ entry ∈ columns.get j, entry.2 ≠ 0) : e.Valid (columnMatrix columns) := by
  induction h with
  | start => exact valid_start hc
  | step _ hp hs ih =>
    obtain ⟨next, hnext, hvalid, _⟩ := ih.step (ih.active.holds_choosePivot hp)
    cases hnext.symm.trans hs
    exact hvalid

theorem Valid.checks {B : Matrix (Fin m) (Fin m) ℚ} (he : e.Valid B) (limit : ℕ) :
    e.Checks limit where
  counts k line hl := ⟨(he.active.mem_lines.mp hl).1,
    fun offer ho => he.active.counts_pos (he.active.holds_offer hl ho)⟩
  position position hp := by
    have hholds := he.active.holds_choosePivot hp
    obtain ⟨hrow, hcolumn, hvalue⟩ := hholds
    obtain ⟨value, hv⟩ := Option.isSome_iff_exists.mp hvalue
    obtain ⟨active, multipliers, hpivot, hdone⟩ := he.active.pivot hrow hcolumn hvalue
    refine ⟨⟨hrow, hcolumn, hvalue⟩, ⟨value, hv, he.active.ne_zero _ _ _ hv⟩, fun i hi hne => ?_,
      fun j hj hne => ?_, active, multipliers, hpivot, hdone.pivot_not_mem,
      hdone.ne_zero he.active hcolumn hvalue⟩
    · rw [CountGroups.contains_remove, if_neg (Ne.symm hne)]
      exact (he.active.holds_of_mem_rowsIn hcolumn hi).1
    · rw [CountGroups.contains_remove, if_neg (Ne.symm hne)]
      exact he.active.column_active _ _ hrow (List.mem_filter.mp hj).2

end Elimination

namespace Factorization
variable {F : Factorization m} {B : Matrix (Fin m) (Fin m) ℚ}

/-- A column can be replaced if the matrix stays nonsingular: a diagonal value of zero would make a
row of the new factor vanish. -/
theorem Represents.replaceColumn_eq (h : F.Represents B) {p : Fin m} {a : Vec m}
    (hu : IsUnit (B.updateCol p a.get)) :
    ∃ G multipliers, F.replaceColumn p a = .ok G ∧ G.Represents (B.updateCol p a.get) ∧
      G.updateEtas = Eta.append F.updateEtas ⟨p, multipliers⟩ ∧ Eta.Proper ⟨p, multipliers⟩ := by
  obtain ⟨w, multipliers, hm, _, hz, hw, hinsert⟩ := h.insertSpike_cases p (F.applyEtas a)
  have hne : w.get p ≠ 0 := by
    intro h0
    have hunit : IsUnit (lineMatrix (F.withSpike p (F.applyEtas a) (w.get p) multipliers).rows) := by
      rw [← h.factored_withSpike hz hw, transform_withSpike]
      exact (((isUnit_transpose _).mpr (Eta.isUnit_toMatrix hm.1)).mul h.isUnit_transform).mul hu
    have hrow : ∀ j, lineMatrix (F.withSpike p (F.applyEtas a) (w.get p) multipliers).rows p j = 0 := by
      intro j
      rw [h.lineMatrix_rows_withSpike, if_pos rfl, h0, Pi.single_zero]
      rfl
    rw [isUnit_iff_isUnit_det, det_eq_zero_of_row_eq_zero p hrow] at hunit
    exact not_isUnit_zero hunit
  rw [if_neg hne] at hinsert
  exact ⟨_, multipliers, hinsert, h.represents_withSpike hne hm hz hw, rfl, hm⟩

end Factorization

end ExactSimplex
