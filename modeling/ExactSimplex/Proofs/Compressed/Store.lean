import ExactSimplex.Proofs.Compressed.Rows

/-! # Sparse matrices in compressed storage

A sparse matrix of known size is stored by its rows, and its columns are then the stored ones. Every
compressed matrix that can be made is such a storage, so what holds of the built matrices carries over.
-/
namespace ExactSimplex
variable {m n : ℕ}

/-- A matrix as it is stored. -/
def SparseMatrix.compressed (A : SparseMatrix m n) : CompressedMatrix :=
  .ofRows n (A.rows.toList.map SparseVec.entries)

namespace SparseMatrix
variable {A : SparseMatrix m n}

@[simp] theorem rowCount_compressed (A : SparseMatrix m n) : A.compressed.rowCount = m := by
  simp [compressed]

theorem row_compressed (A : SparseMatrix m n) (i : Fin m) :
    A.compressed.row i = .ok (SparseVec.entries (A.rows.get i)) := by
  rw [compressed, CompressedMatrix.row_ofRows, read_eq_ok_iff]
  simp [get_eq_getElem]

theorem columnFrom_entries (rows : Vector (SparseVec n) m) (j : Fin n) (l : List (Fin m)) (k : ℕ)
    (hl : ∀ t (h : t < l.length), (l[t] : ℕ) = k + t) :
    CompressedMatrix.columnFrom k j (l.map fun i => SparseVec.entries (rows.get i)) =
      SparseVec.entries (l.flatMap fun i => ((rows.get i).filter fun e => e.1 = j).map fun e => (i, e.2)) := by
  induction l generalizing k with
  | nil => rfl
  | cons i l ih =>
    have hi : (i : ℕ) = k := hl 0 (Nat.succ_pos _)
    rw [List.map_cons, CompressedMatrix.columnFrom, ih (k + 1) fun t h => ?_]
    · rw [List.flatMap_cons, SparseVec.entries, SparseVec.entries, SparseVec.entries, List.map_append,
        List.filter_map, List.map_map, List.map_map]
      refine congrArg₂ _ ?_ rfl
      rw [hi.symm]
      refine congrArg _ (List.filter_congr fun e _ => ?_)
      simp [Fin.ext_iff]
    · have := hl (t + 1) (Nat.succ_lt_succ h)
      rw [List.getElem_cons_succ] at this
      omega

theorem Mirrored.column_compressed (hA : A.Mirrored) (j : Fin n) :
    A.compressed.column j = .ok (SparseVec.entries (A.columns.get j)) := by
  rw [compressed, CompressedMatrix.column_ofRows j.isLt, hA.columns_eq, columnOf, toList_eq_map_get,
    List.map_map]
  exact congrArg _ (columnFrom_entries A.rows j (List.finRange m) 0 fun t h => by simp)

end SparseMatrix

/-- A matrix store in compressed form. -/
def MatrixStore.compressed (S : MatrixStore) : CompressedMatrix := S.matrix.compressed

namespace CompressedMatrix
variable {A : CompressedMatrix}

theorem compressed_eq (S : MatrixStore) : S.compressed = ofRows S.columnCount S.rowLists := rfl

theorem inRange_rowLists (S : MatrixStore) : InRange S.columnCount S.rowLists := by
  intro row hrow e he
  obtain ⟨line, -, rfl⟩ := List.mem_map.mp hrow
  obtain ⟨a, -, rfl⟩ := List.mem_map.mp he
  exact a.1.isLt

/-- Every compressed matrix that can be made is the storage of a matrix that can be built. -/
theorem Built.exists_store (h : A.Built) : ∃ S : MatrixStore, S.Built ∧ A = S.compressed := by
  induction h with
  | @created values columns ks n A h =>
    rcases create_cases values columns ks n with ⟨hfit, hok⟩ | ⟨_, _, hrefused⟩
    · cases hok.symm.trans h
      obtain ⟨S, hS⟩ := (MatrixStore.exists_ofCompressed_iff values columns ks n).mpr hfit
      obtain ⟨hn, hrows⟩ := MatrixStore.rowLists_of_ofCompressed hS
      exact ⟨S, .compressed hS, by rw [compressed_eq, hn, hrows]⟩
    · cases hrefused.symm.trans h
  | @edited e A B outcome hA h ih =>
    obtain ⟨S, hS, rfl⟩ := ih
    have hrange := inRange_rowLists S
    rw [compressed_eq] at h
    rcases S.edit_cases e with ⟨T, hT, hn, hrows⟩ | ⟨_, hnone, hrows⟩
    · rcases edit_ofRows hrange e with ⟨next, hnext, hrun⟩ | ⟨hnone, _⟩
      · cases hrun.symm.trans h
        cases hrows.symm.trans hnext
        exact ⟨T, hS.edit hT, by rw [compressed_eq, hn]⟩
      · cases hrows.symm.trans hnone
    · rcases edit_ofRows hrange e with ⟨next, hnext, _⟩ | ⟨_, _, hrun⟩
      · cases hrows.symm.trans hnext
      · cases hrun.symm.trans h
        exact ⟨S, hS, rfl⟩

theorem Built.size_of_pushRow (h : A.Built) {row : List ℚ} {B : CompressedMatrix}
    (hB : (pushRow row).run A = .ok (.ok (), B)) :
    B.Built ∧ B.columnCount = A.columnCount ∧ B.rowCount = A.rowCount + 1 := by
  refine ⟨h.edited (e := .push row) hB, ?_⟩
  obtain ⟨S, -, rfl⟩ := h.exists_store
  rw [compressed_eq] at hB ⊢
  rcases pushRow_ofRows (inRange_rowLists S) row with ⟨-, hrun⟩ | ⟨-, _, hrun⟩
  · cases hrun.symm.trans hB
    simp
  · cases hrun.symm.trans hB

theorem Built.size_of_removeRow (h : A.Built) {i : ℕ} {B : CompressedMatrix}
    (hB : (removeRow i).run A = .ok (.ok (), B)) :
    B.Built ∧ B.columnCount = A.columnCount ∧ B.rowCount + 1 = A.rowCount := by
  refine ⟨h.edited (e := .remove i) hB, ?_⟩
  obtain ⟨S, -, rfl⟩ := h.exists_store
  rw [compressed_eq] at hB ⊢
  rcases removeRow_ofRows (inRange_rowLists S) i with ⟨hi, hrun⟩ | ⟨-, _, hrun⟩
  · cases hrun.symm.trans hB
    simp only [columnCount_ofRows, rowCount_ofRows, List.length_eraseIdx, if_pos hi, true_and]
    omega
  · cases hrun.symm.trans hB

theorem Built.ne_zero_of_column (h : A.Built) {j : ℕ} (hj : j < A.columnCount)
    {column : List (ℕ × ℚ)} (hc : A.column j = .ok column) : ∀ e ∈ column, e.2 ≠ 0 := by
  obtain ⟨S, hS, rfl⟩ := h.exists_store
  cases (hS.mirrored.column_compressed ⟨j, hj⟩).symm.trans hc
  intro e he
  obtain ⟨a, ha, rfl⟩ := List.mem_map.mp he
  exact hS.mirrored.column_ne_zero _ a ha

end CompressedMatrix

end ExactSimplex
