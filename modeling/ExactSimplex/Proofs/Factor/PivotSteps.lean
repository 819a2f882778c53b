import ExactSimplex.Proofs.Factor.Elimination

/-! # Sequences of pivots

Whatever stored values are pivoted on one after the other, the active part stays mirrored and counted: its
sets of columns and its groups can be read off the stored values. A pivot adds multiples of its row to the
other active rows that have a value in its column and leaves all other rows alone, which is the
multiplication with the matrix of the recorded eta.
-/
namespace ExactSimplex
open Matrix
variable {m : ℕ}

namespace Active
variable {A B : Active m} {p q : Fin m} {multipliers : SparseVec m}

/-- The sets of the active columns and the groups of the active lines agree with the stored values. -/
structure Counted (A : Active m) : Prop where
  ne_zero : ∀ i j v, (A.rows.get i).get j = some v → v ≠ 0
  column_active : ∀ i, A.rowGroups.contains i = true → ∀ j ∈ A.columnsIn i,
    A.columnGroups.contains j = true
  mirrored : ∀ j, A.columnGroups.contains j = true → ∀ i,
    i ∈ A.rowsIn j ↔ A.rowGroups.contains i = true ∧ j ∈ A.columnsIn i
  row_group : ∀ i k, i ∈ A.rowGroups.withCount k ↔
    A.rowGroups.contains i = true ∧ (A.columnsIn i).length = k
  column_group : ∀ j k, j ∈ A.columnGroups.withCount k ↔
    A.columnGroups.contains j = true ∧ (A.rowsIn j).length = k

/-- A pivot on a position, with the multiples of its row that were added to others. -/
structure Eliminates (A : Active m) (position : Pivot m) (B : Active m) (multipliers : SparseVec m) :
    Prop where
  targets : SparseVec.keys multipliers =
    (A.rowsIn position.column).filter fun i => i ≠ position.row
  ratio : ∀ e ∈ multipliers,
    e.2 = -A.value e.1 position.column / A.value position.row position.column
  added : ∀ e ∈ multipliers, ∀ j, B.value e.1 j = A.value e.1 j + e.2 * A.value position.row j
  kept : ∀ i, i ∉ SparseVec.keys multipliers → B.rows.get i = A.rows.get i
  product : Matrix.of B.value = Eta.toMatrix ⟨position.row, multipliers⟩ * Matrix.of A.value
  row_left : ∀ i, B.rowGroups.contains i = true ↔ A.rowGroups.contains i = true ∧ i ≠ position.row
  column_left : ∀ j, B.columnGroups.contains j = true ↔
    A.columnGroups.contains j = true ∧ j ≠ position.column

theorem length_columnsIn (A : Active m) (i : Fin m) : (A.columnsIn i).length = A.rowCount i := by
  rw [columnsIn, ← List.countP_eq_length_filter]
  exact (countP_eq_finRange _ _).symm

theorem length_rowsIn (A : Active m) (j : Fin m) : (A.rowsIn j).length = A.columnCount j := by
  rw [rowsIn, ← List.countP_eq_length_filter]
  exact (countP_eq_finRange id _).symm

theorem Valid.counted (hA : A.Valid) : A.Counted where
  ne_zero := hA.ne_zero
  column_active i hi j hj := hA.column_active i j hi (mem_columnsIn.mp hj)
  mirrored j hj i := by rw [mem_rowsIn, mem_columnsIn, hA.mirrored i j hj]
  row_group i k := by rw [hA.mem_rowGroup, length_columnsIn]
  column_group j k := by rw [hA.mem_columnGroup, length_rowsIn]

/-- What is stored in a row is known from its values, because no zero is stored. -/
theorem Valid.row_eq (hA : A.Valid) (hB : B.Valid) {i : Fin m} (h : ∀ j, B.value i j = A.value i j) :
    B.rows.get i = A.rows.get i := by
  refine table_ext fun j => ?_
  have hj := h j
  rw [value, value] at hj
  cases ha : (A.rows.get i).get j with
  | none =>
    cases hb : (B.rows.get i).get j with
    | none => rfl
    | some w =>
      rw [ha, hb] at hj
      exact absurd hj (hB.ne_zero i j w hb)
  | some v =>
    cases hb : (B.rows.get i).get j with
    | none =>
      rw [ha, hb] at hj
      exact absurd hj.symm (hA.ne_zero i j v ha)
    | some w =>
      rw [ha, hb] at hj
      exact congrArg some hj

theorem Pivoted.keys_eq (h : Pivoted A p q B multipliers) :
    SparseVec.keys multipliers = (A.rowsIn q).filter fun i => i ≠ p := by
  rw [h.multipliers_eq, SparseVec.keys, List.map_map]
  exact List.map_id _

theorem Pivoted.keys_nodup (h : Pivoted A p q B multipliers) : (SparseVec.keys multipliers).Nodup := by
  rw [h.keys_eq]
  exact ((List.nodup_finRange m).filter _).filter _

theorem Pivoted.product_eq (h : Pivoted A p q B multipliers) :
    Matrix.of B.value = Eta.toMatrix ⟨p, multipliers⟩ * Matrix.of A.value := by
  ext i j
  rw [Eta.toMatrix_mul_apply]
  exact h.value_eq i j

theorem Pivoted.eliminates (hA : A.Valid) (h : Pivoted A p q B multipliers) :
    A.Eliminates ⟨p, q⟩ B multipliers where
  targets := h.keys_eq
  ratio e he := by
    rw [h.multipliers_eq] at he
    obtain ⟨i, _, rfl⟩ := List.mem_map.mp he
    rfl
  added e he j := by rw [h.value_eq, SparseVec.coeff_of_mem h.keys_nodup he]
  kept i hi := hA.row_eq h.valid fun j => by
    rw [h.value_eq, SparseVec.coeff_eq_zero hi, zero_mul, add_zero]
  product := h.product_eq
  row_left i := by
    rw [h.contains_row]
    by_cases hi : p = i
    · simp [hi]
    · simp [hi, Ne.symm hi]
  column_left j := by
    rw [h.contains_column]
    by_cases hj : q = j
    · simp [hj]
    · simp [hj, Ne.symm hj]

end Active

namespace Elimination
variable {columns : Vector (SparseVec m) m} {e : Elimination m}

/-- The eliminations that lead through any pivots on stored values of active rows and columns. -/
inductive Reached (columns : Vector (SparseVec m) m) : Elimination m → Prop
  | start : Reached columns (start columns)
  | step {e next : Elimination m} {position : Pivot m} (he : Reached columns e)
      (hp : e.active.Holds position) (hs : e.step position = some next) : Reached columns next

theorem Reached.valid (h : Reached columns e) (hc : ∀ j, ∀ entry ∈ columns.get j, entry.2 ≠ 0) :
    e.Valid (columnMatrix columns) := by
  induction h with
  | start => exact valid_start hc
  | step _ hp hs ih =>
    obtain ⟨next, hnext, hvalid, _⟩ := ih.step hp
    cases hnext.symm.trans hs
    exact hvalid

/-- After any pivots on stored values the active part is mirrored and counted, and a further pivot eliminates
its column from the other active rows, as its eta records. -/
theorem Reached.counted_and_eliminates (h : Reached columns e)
    (hc : ∀ j, ∀ entry ∈ columns.get j, entry.2 ≠ 0) :
    e.active.Counted ∧ ∀ position, e.active.Holds position →
      ∃ next multipliers, e.step position = some next ∧
        e.active.Eliminates position next.active multipliers ∧
        next.etas = Eta.append e.etas ⟨position.row, multipliers⟩ := by
  have he := h.valid hc
  refine ⟨he.active.counted, fun position hp => ?_⟩
  obtain ⟨B, multipliers, hs, hB⟩ := he.active.pivot hp.1 hp.2.1 hp.2.2
  exact ⟨_, multipliers, by rw [Elimination.step, hs]; rfl, hB.eliminates he.active, rfl⟩

/-- A pivot that cancels a value of one row and fills in one of another, and a further pivot that clears the
second row. -/
theorem Reached.counted_and_eliminates_of_fill :
    ∃ (e next : Elimination 3) (multipliers : SparseVec 3),
      (Elimination.start #v[[(0, 1), (1, 1), (2, 2)], [(0, 1), (1, 1)], [(1, 1), (2, 1)]]).step ⟨0, 0⟩ =
        some e ∧
      e.active.Counted ∧ e.active.columnsIn 1 = [2] ∧ e.active.columnsIn 2 = [1, 2] ∧
      1 ∈ e.active.rowGroups.withCount 1 ∧ 2 ∈ e.active.rowGroups.withCount 2 ∧
      e.active.Holds ⟨1, 2⟩ ∧ e.step ⟨1, 2⟩ = some next ∧
      e.active.Eliminates ⟨1, 2⟩ next.active multipliers ∧ SparseVec.keys multipliers = [2] ∧
      next.etas = Eta.append e.etas ⟨1, multipliers⟩ := by
  let columns : Vector (SparseVec 3) 3 :=
    #v[[(0, 1), (1, 1), (2, 2)], [(0, 1), (1, 1)], [(1, 1), (2, 1)]]
  have hstep : (Elimination.start columns).step ⟨0, 0⟩ ≠ none := by decide +kernel
  obtain ⟨e, he⟩ := Option.ne_none_iff_exists'.mp hstep
  have hvalues : ((Elimination.start columns).step ⟨0, 0⟩).any (fun e =>
      e.active.columnsIn 1 = [2] ∧ e.active.columnsIn 2 = [1, 2] ∧ e.active.rowsIn 2 = [1, 2] ∧
      e.active.rowGroups.contains 1 = true ∧ e.active.rowGroups.contains 2 = true ∧
      e.active.columnGroups.contains 2 = true) = true := by decide +kernel
  rw [he, Option.any_some, decide_eq_true_iff] at hvalues
  obtain ⟨hone, htwo, hrows, hrow, hrow', hcolumn⟩ := hvalues
  have hreached : Reached columns e :=
    .step .start ⟨by decide +kernel, by decide +kernel, by decide +kernel⟩ he
  obtain ⟨hcounted, heliminates⟩ := hreached.counted_and_eliminates (by decide)
  have hholds : e.active.Holds ⟨1, 2⟩ :=
    ⟨hrow, hcolumn, Active.mem_columnsIn.mp (hone ▸ List.mem_singleton_self 2)⟩
  obtain ⟨next, multipliers, hnext, hdone, hetas⟩ := heliminates _ hholds
  refine ⟨e, next, multipliers, he, hcounted, hone, htwo,
    (hcounted.row_group 1 1).mpr ⟨hrow, by rw [hone]; rfl⟩,
    (hcounted.row_group 2 2).mpr ⟨hrow', by rw [htwo]; rfl⟩, hholds, hnext, hdone, ?_, hetas⟩
  rw [hdone.targets, hrows]
  decide

end Elimination

end ExactSimplex
