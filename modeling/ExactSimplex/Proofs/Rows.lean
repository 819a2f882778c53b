import ExactSimplex.Proofs.Matrix

/-! # The rows of a matrix store

The rows of a store are written as lists of columns with their values. Compressed data are read by
positions, and appending and removing rows are the same operations on these lists.
-/
namespace ExactSimplex
variable {n : ℕ}

/-- The rows that compressed data describe: between two starts stand the entries of one row, and the
zeros are left out. -/
def compressedRows (values : List ℚ) (columns starts : List ℕ) : List (List (ℕ × ℚ)) :=
  (starts.zip starts.tail).map fun r =>
    ((columns.zip values).zipIdx.filter fun e => r.1 ≤ e.2 ∧ e.2 < r.2 ∧ e.1.2 ≠ 0).map Prod.fst

/-- The nonzero coefficients of a row that is written out. -/
def denseEntries (row : List ℚ) : List (ℕ × ℚ) :=
  (row.zipIdx.filter fun e => e.1 ≠ 0).map Prod.swap

/-- A row comes at the end or goes. -/
inductive RowEdit where
  | push (row : List ℚ)
  | remove (index : ℕ)

namespace RowEdit

/-- What an edit makes of rows over `n` columns, if it is not refused. -/
def perform? (n : ℕ) (rows : List (List (ℕ × ℚ))) : RowEdit → Option (List (List (ℕ × ℚ)))
  | push row => if row.length = n then some (rows ++ [denseEntries row]) else none
  | remove index => if index < rows.length then some (rows.eraseIdx index) else none

/-- The rows after some edits, of which the refused ones change nothing. -/
def performAll (n : ℕ) (rows : List (List (ℕ × ℚ))) (edits : List RowEdit) : List (List (ℕ × ℚ)) :=
  edits.foldl (fun rows e => (e.perform? n rows).getD rows) rows

end RowEdit

section Positions
variable {α : Type}

/-- A piece of a list consists of the entries at its positions. -/
theorem drop_take_eq_filter_zipIdx (xs : List α) (k a b : ℕ) :
    (xs.drop (a - k)).take (b - max a k) =
      ((xs.zipIdx k).filter fun e => a ≤ e.2 ∧ e.2 < b).map Prod.fst := by
  induction xs generalizing k with
  | nil => simp
  | cons x xs ih =>
    rw [List.zipIdx_cons, List.filter_cons]
    by_cases hak : a ≤ k
    · have ih := ih (k + 1)
      rw [Nat.sub_eq_zero_of_le (by omega : a ≤ k + 1), max_eq_right (by omega : a ≤ k + 1)] at ih
      rw [Nat.sub_eq_zero_of_le hak, max_eq_right hak, List.drop_zero]
      by_cases hkb : k < b
      · rw [if_pos (by simpa using ⟨hak, hkb⟩), List.map_cons, ← ih, List.drop_zero,
          show b - k = (b - (k + 1)) + 1 by omega, List.take_succ_cons]
      · rw [if_neg (by simp; omega), ← ih, show b - k = 0 by omega, show b - (k + 1) = 0 by omega,
          List.take_zero, List.take_zero]
    · have ih := ih (k + 1)
      rw [max_eq_left (by omega : k + 1 ≤ a)] at ih
      rw [if_neg (by simp; omega), max_eq_left (by omega : k ≤ a), ← ih,
        show a - k = (a - (k + 1)) + 1 by omega, List.drop_succ_cons]

theorem slices_eq (xs : List α) (starts : List ℕ) :
    MatrixStore.slices xs starts = (starts.zip starts.tail).map fun r =>
      (xs.zipIdx.filter fun e => r.1 ≤ e.2 ∧ e.2 < r.2).map Prod.fst := by
  unfold MatrixStore.slices
  refine List.map_congr_left fun r _ => ?_
  have h := drop_take_eq_filter_zipIdx xs 0 r.1 r.2
  rwa [Nat.sub_zero, Nat.max_zero] at h

end Positions

/-- The entries of a sparse vector with plain indices. -/
def SparseVec.entries (s : SparseVec n) : List (ℕ × ℚ) := s.map fun e => (e.1.val, e.2)

theorem Vec.entries_support (w : Vec n) : SparseVec.entries (Vec.support w) = denseEntries w.toList := by
  have hzip : w.toList.zipIdx = (List.finRange n).map fun i => (w.get i, i.val) := by
    refine List.ext_getElem (by simp) fun k _ _ => ?_
    simp [get_eq_getElem]
  rw [denseEntries, hzip, SparseVec.entries, Vec.support, List.filter_map, List.filter_map,
    List.map_map, List.map_map]
  rfl

namespace MatrixStore
variable {S T : MatrixStore}

/-- The rows, each with its columns and their values. -/
def rowLists (S : MatrixStore) : List (List (ℕ × ℚ)) := S.matrix.rows.toList.map SparseVec.entries

def edit (S : MatrixStore) : RowEdit → Except Error MatrixStore
  | .push row => S.pushRow row
  | .remove index => S.removeRow index

@[simp] theorem length_rowLists (S : MatrixStore) : S.rowLists.length = S.rowCount := by
  simp [rowLists]

theorem isSorted_iff (starts : List ℕ) : isSorted starts = true ↔ starts.Pairwise (· ≤ ·) := by
  rw [← List.isChain_iff_pairwise]
  fun_induction isSorted starts with
  | case1 a b rest ih => simp [ih]
  | case2 starts h =>
    match starts with
    | [] => simp
    | [a] => simp
    | a :: b :: rest => exact absurd rfl (h a b rest)

/-- Indices that pass the check are kept, and one that is too large is refused. -/
theorem mapM_expectIndex_eq_ok_iff (what : Entity) (columns : List ℕ) (indices : List (Fin n)) :
    columns.mapM (expectIndex what n) = .ok indices ↔ indices.map Fin.val = columns := by
  induction columns generalizing indices with
  | nil =>
    rw [List.mapM_nil, List.map_eq_nil_iff]
    exact ⟨fun h => (Except.ok.inj h).symm, fun h => h ▸ rfl⟩
  | cons c columns ih =>
    rw [List.mapM_cons]
    constructor
    · intro h
      obtain ⟨j, hj, h⟩ := exists_of_bind_eq_ok h
      obtain ⟨rest, hrest, h⟩ := exists_of_bind_eq_ok h
      cases h
      unfold expectIndex at hj
      split at hj
      · cases hj
        rw [List.map_cons, (ih rest).mp hrest]
      · cases hj
    · intro h
      cases indices with
      | nil => cases h
      | cons j rest =>
        obtain ⟨rfl, hrest⟩ := List.cons.inj h
        rw [(ih rest).mpr hrest, expectIndex, dif_pos j.isLt]
        rfl

/-- A computation behind a check succeeds if the check is passed and the rest succeeds. -/
theorem guarded_eq_ok_iff {ε α : Type} (p : Prop) [Decidable p] (e : ε) (f : Unit → Except ε α) (a : α) :
    (if p then throw e >>= f else f ()) = .ok a ↔ ¬ p ∧ f () = .ok a := by
  split
  · next hp =>
    constructor
    · intro h
      cases h
    · exact fun h => absurd hp h.1
  · next hp => simp [hp]

theorem ofCompressed_eq_ok_iff (values : List ℚ) (columns starts : List ℕ) (n : ℕ) (S : MatrixStore) :
    ofCompressed values columns starts n = .ok S ↔
      columns.length = values.length ∧ starts.head? = some 0 ∧
        starts.getLast? = some values.length ∧ starts.Pairwise (· ≤ ·) ∧
        ∃ indices : List (Fin n), indices.map Fin.val = columns ∧
          ofRowList ((slices (indices.zip values) starts).map fun row => row.filter fun e => e.2 ≠ 0) = S := by
  have hrest : ∀ f : List (Fin n) → MatrixStore,
      (columns.mapM (expectIndex .column n) >>= fun indices => pure (f indices)) = .ok S ↔
        ∃ indices : List (Fin n), indices.map Fin.val = columns ∧ f indices = S := by
    intro f
    constructor
    · intro h
      obtain ⟨indices, hindices, h⟩ := exists_of_bind_eq_ok h
      exact ⟨indices, (mapM_expectIndex_eq_ok_iff ..).mp hindices, Except.ok.inj h⟩
    · rintro ⟨indices, hindices, rfl⟩
      rw [(mapM_expectIndex_eq_ok_iff ..).mpr hindices]
      rfl
  unfold ofCompressed
  simp only [guarded_eq_ok_iff, hrest, not_not, ← isSorted_iff, Bool.not_eq_true', Bool.not_eq_false]

/-- Compressed data are accepted if their parts fit together. -/
theorem exists_ofCompressed_iff (values : List ℚ) (columns starts : List ℕ) (n : ℕ) :
    (∃ S, ofCompressed values columns starts n = .ok S) ↔
      columns.length = values.length ∧ starts.head? = some 0 ∧ starts.Pairwise (· ≤ ·) ∧
        starts.getLast? = some values.length ∧ ∀ c ∈ columns, c < n := by
  simp only [ofCompressed_eq_ok_iff]
  constructor
  · rintro ⟨S, hlength, hhead, hlast, hsorted, indices, rfl, -⟩
    refine ⟨hlength, hhead, hsorted, hlast, fun c hc => ?_⟩
    obtain ⟨j, _, rfl⟩ := List.mem_map.mp hc
    exact j.isLt
  · rintro ⟨hlength, hhead, hsorted, hlast, hcolumns⟩
    refine ⟨_, hlength, hhead, hlast, hsorted, columns.attach.map fun c => ⟨c.1, hcolumns c.1 c.2⟩, ?_, rfl⟩
    rw [List.map_map]
    exact List.attach_map_subtype_val columns

theorem rowLists_ofRowList (rows : List (SparseVec n)) :
    (ofRowList rows).rowLists = rows.map SparseVec.entries := rfl

/-- The rows of a new matrix are those that its data describe. -/
theorem rowLists_of_ofCompressed {values : List ℚ} {columns starts : List ℕ}
    (h : ofCompressed values columns starts n = .ok S) :
    S.columnCount = n ∧ S.rowLists = compressedRows values columns starts := by
  obtain ⟨-, -, -, -, indices, rfl, rfl⟩ := (ofCompressed_eq_ok_iff ..).mp h
  refine ⟨rfl, ?_⟩
  rw [rowLists_ofRowList, slices_eq, compressedRows, List.map_map, List.map_map]
  refine List.map_congr_left fun r _ => ?_
  have hzip : (indices.map Fin.val).zip values = SparseVec.entries (indices.zip values) := by
    rw [SparseVec.entries, List.zip_map_left]
    rfl
  rw [hzip, SparseVec.entries, List.zipIdx_map]
  simp only [Function.comp_apply, SparseVec.entries, List.filter_map, List.map_map, List.filter_filter]
  refine congrArg _ (List.filter_congr fun e _ => ?_)
  simp only [Function.comp_apply, Prod.map_fst, Prod.map_snd, id_eq, ← Bool.decide_and, and_comm, and_assoc]

/-- A row is appended if it has the right length. -/
theorem rowLists_pushRow (S : MatrixStore) (row : List ℚ) :
    (S.pushRow row).toOption.map rowLists = (RowEdit.push row).perform? S.columnCount S.rowLists := by
  rw [pushRow, RowEdit.perform?, expectLength, tableOf?]
  by_cases hrow : row.length = S.columnCount
  · rw [if_pos hrow, dif_pos hrow]
    have hrows : ((S.matrix.pushRow (tableOf row hrow)).rows.toList.map SparseVec.entries) =
        S.rowLists ++ [denseEntries row] := by
      rw [SparseMatrix.pushRow, SparseMatrix.ofRows, Vector.toList_push, List.map_append,
        List.map_singleton, Vec.entries_support]
      rfl
    exact congrArg some hrows
  · rw [if_neg hrow, dif_neg hrow]
    rfl

/-- A row is taken out if it is there. -/
theorem rowLists_removeRow (S : MatrixStore) (index : ℕ) :
    (S.removeRow index).toOption.map rowLists =
      (RowEdit.remove index).perform? S.columnCount S.rowLists := by
  rw [removeRow, RowEdit.perform?, expectIndex, length_rowLists]
  by_cases hindex : index < S.rowCount
  · rw [if_pos hindex, dif_pos hindex]
    have hrows : ((S.matrix.removeRow ⟨index, hindex⟩).rows.toList.map SparseVec.entries) =
        S.rowLists.eraseIdx index := by
      rw [SparseMatrix.removeRow, SparseMatrix.ofRows, Vector.toList_eraseIdx, rowLists,
        List.eraseIdx_map]
    exact congrArg some hrows
  · rw [if_neg hindex, dif_neg hindex]
    rfl

/-- Every call is the edit of the list of rows, and it is refused for what the list shows. -/
theorem rowLists_edit (S : MatrixStore) (e : RowEdit) :
    (S.edit e).toOption.map rowLists = e.perform? S.columnCount S.rowLists := by
  cases e with
  | push row => exact S.rowLists_pushRow row
  | remove index => exact S.rowLists_removeRow index

theorem columnCount_edit {e : RowEdit} (h : S.edit e = .ok T) : T.columnCount = S.columnCount := by
  cases e <;>
  · obtain ⟨_, _, h⟩ := exists_of_bind_eq_ok h
    cases h
    rfl

theorem Built.edit {e : RowEdit} (hS : S.Built) (h : S.edit e = .ok T) : T.Built := by
  cases e with
  | push row => exact hS.pushRow h
  | remove index => exact hS.removeRow h

/-- A call gives the edited rows, or it is refused and the rows refuse the edit too. -/
theorem edit_cases (S : MatrixStore) (e : RowEdit) :
    (∃ T, S.edit e = .ok T ∧ T.columnCount = S.columnCount ∧
      e.perform? S.columnCount S.rowLists = some T.rowLists) ∨
    (∃ cause, S.edit e = .error cause ∧ e.perform? S.columnCount S.rowLists = none) := by
  have h := S.rowLists_edit e
  cases hT : S.edit e with
  | ok T =>
    rw [hT] at h
    exact .inl ⟨T, rfl, columnCount_edit hT, h.symm⟩
  | error cause =>
    rw [hT] at h
    exact .inr ⟨cause, rfl, h.symm⟩

end MatrixStore

end ExactSimplex
