import ExactSimplex.Matrix
import ExactSimplex.Proofs.Vectors

/-! # Matrices

In every matrix that can be built the columns are those of the rows and no zero is stored. Appending
and removing rows keeps that, and also that no row repeats a column.
-/
namespace ExactSimplex
variable {n m : ℕ}

namespace SparseMatrix

/-- The coefficient of a column in a row, repeated entries added up. -/
def entry (A : SparseMatrix m n) (i : Fin m) (j : Fin n) : ℚ := SparseVec.coeff (A.rows.get i) j

/-- The columns are those of the rows, and no zero is stored. -/
structure Mirrored (A : SparseMatrix m n) : Prop where
  columns_eq : ∀ j, A.columns.get j = columnOf A.rows j
  ne_zero : ∀ i, ∀ e ∈ A.rows.get i, e.2 ≠ 0

/-- A mirrored matrix in which no row repeats a column. -/
structure Simple (A : SparseMatrix m n) : Prop extends A.Mirrored where
  nodup : ∀ i, (SparseVec.keys (A.rows.get i)).Nodup

variable {A : SparseMatrix m n}

theorem Mirrored.coeff_column (h : A.Mirrored) (j : Fin n) (i : Fin m) :
    SparseVec.coeff (A.columns.get j) i = A.entry i j := by
  rw [h.columns_eq, columnOf]
  exact SparseVec.coeff_column A.rows.get j i

theorem Mirrored.column_ne_zero (h : A.Mirrored) (j : Fin n) : ∀ e ∈ A.columns.get j, e.2 ≠ 0 := by
  intro e he
  rw [h.columns_eq, columnOf] at he
  obtain ⟨i, _, hi⟩ := List.mem_flatMap.mp he
  obtain ⟨a, ha, rfl⟩ := List.mem_map.mp hi
  exact h.ne_zero i a (List.mem_filter.mp ha).1

theorem Simple.keys_column_nodup (h : A.Simple) (j : Fin n) :
    (SparseVec.keys (A.columns.get j)).Nodup := by
  rw [h.columns_eq, columnOf]
  exact SparseVec.keys_column_nodup h.nodup j

theorem get_rowCombination (A : SparseMatrix m n) (y : Vec m) (j : Fin n) :
    (A.rowCombination y).get j = ∑ i, y.get i * A.entry i j := by
  have h : ∀ (l : List (Fin m)) (d : Vec n), (l.foldl (fun d i => if y.get i = 0 then d
      else SparseVec.addTo (A.rows.get i) (y.get i) d) d).get j =
        d.get j + (l.map fun i => y.get i * A.entry i j).sum := by
    intro l
    induction l with
    | nil => simp
    | cons i l ih =>
      intro d
      rw [List.foldl_cons, ih, List.map_cons, List.sum_cons]
      split
      · next hi => rw [hi]; ring
      · rw [SparseVec.get_addTo, entry]; ring
  rw [rowCombination, h, Vec.get_zero, zero_add, ← Fin.sum_univ_def]

theorem mirrored_ofRows {rows : Vector (SparseVec n) m} (h : ∀ i, ∀ e ∈ rows.get i, e.2 ≠ 0) :
    (ofRows rows).Mirrored where
  columns_eq j := get_ofFn _ j
  ne_zero := h

section Rows
variable {α : Type} {v : Vector α m} (p : α → Prop)

theorem forall_get_iff : (∀ i, p (v.get i)) ↔ ∀ a ∈ v.toList, p a := by
  rw [toList_eq_map_get]
  simp

theorem forall_get_push (h : ∀ i, p (v.get i)) {a : α} (ha : p a) : ∀ i, p ((v.push a).get i) := by
  rw [forall_get_iff p] at h ⊢
  intro c hc
  rw [Vector.toList_push, List.mem_append, List.mem_singleton] at hc
  rcases hc with hc | rfl
  · exact h c hc
  · exact ha

theorem forall_get_eraseIdx (h : ∀ i, p (v.get i)) (k : Fin m) :
    ∀ i, p ((v.eraseIdx k k.isLt).get i) := by
  rw [forall_get_iff p] at h ⊢
  intro c hc
  rw [Vector.toList_eraseIdx] at hc
  exact h c (List.mem_of_mem_eraseIdx hc)

end Rows

theorem Mirrored.pushRow (h : A.Mirrored) (row : Vec n) : (A.pushRow row).Mirrored := by
  refine mirrored_ofRows (forall_get_push (fun row : SparseVec n => ∀ e ∈ row, e.2 ≠ 0) h.ne_zero fun e he => ?_)
  rw [(Vec.mem_support.mp he).1]
  exact (Vec.mem_support.mp he).2

theorem Simple.pushRow (h : A.Simple) (row : Vec n) : (A.pushRow row).Simple where
  toMirrored := h.toMirrored.pushRow row
  nodup := forall_get_push (fun row => (SparseVec.keys row).Nodup) h.nodup (Vec.keys_support_nodup row)

theorem Mirrored.removeRow (h : A.Mirrored) (i : Fin m) : (A.removeRow i).Mirrored :=
  mirrored_ofRows (forall_get_eraseIdx (fun row : SparseVec n => ∀ e ∈ row, e.2 ≠ 0) h.ne_zero i)

theorem Simple.removeRow (h : A.Simple) (i : Fin m) : (A.removeRow i).Simple where
  toMirrored := h.toMirrored.removeRow i
  nodup := forall_get_eraseIdx (fun row => (SparseVec.keys row).Nodup) h.nodup i

end SparseMatrix

theorem exists_of_bind_eq_ok {ε α β : Type} {x : Except ε α} {f : α → Except ε β} {b : β}
    (h : x >>= f = .ok b) : ∃ a, x = .ok a ∧ f a = .ok b := by
  cases x with
  | error e => cases h
  | ok a => exact ⟨a, rfl, h⟩

theorem exists_of_toOption_any {ε α : Type} {x : Except ε α} {p : α → Bool}
    (h : x.toOption.any p = true) : ∃ a, x = .ok a ∧ p a = true := by
  cases x with
  | error e => cases h
  | ok a => exact ⟨a, rfl, h⟩

theorem expectLength_toList {α : Type} (what : Quantity) (v : Vector α m) : expectLength what m v.toList = .ok v := by
  have htable : tableOf v.toList v.length_toList = v := rfl
  rw [expectLength, tableOf?, dif_pos v.length_toList, htable]

theorem toList_of_expectLength {α : Type} {what : Quantity} {xs : List α} {v : Vector α m}
    (h : expectLength what m xs = .ok v) : v.toList = xs := by
  unfold expectLength tableOf? at h
  split at h
  · next table ht =>
    split at ht
    · cases ht
      cases h
      rfl
    · cases ht
  · cases h

namespace MatrixStore

/-- The matrices that can be built: from compressed rows or empty, followed by rows that are
appended and removed. -/
inductive Built : MatrixStore → Prop
  | compressed {values : List ℚ} {columns starts : List ℕ} {n : ℕ} {S : MatrixStore}
      (h : ofCompressed values columns starts n = .ok S) : Built S
  | empty (n : ℕ) : Built (empty n)
  | pushRow {S T : MatrixStore} {row : List ℚ} (hS : Built S) (h : S.pushRow row = .ok T) : Built T
  | removeRow {S T : MatrixStore} {index : ℕ} (hS : Built S) (h : S.removeRow index = .ok T) : Built T

theorem mirrored_ofRowList {rows : List (SparseVec n)} (h : ∀ row ∈ rows, ∀ e ∈ row, e.2 ≠ 0) :
    (ofRowList rows).matrix.Mirrored :=
  SparseMatrix.mirrored_ofRows
    ((SparseMatrix.forall_get_iff fun row : SparseVec n => ∀ e ∈ row, e.2 ≠ 0).mpr h)

theorem mirrored_of_ofCompressed {values : List ℚ} {columns starts : List ℕ} {n : ℕ}
    {S : MatrixStore} (h : ofCompressed values columns starts n = .ok S) : S.matrix.Mirrored := by
  unfold ofCompressed at h
  simp only [bind, Except.bind, pure, Except.pure] at h
  repeat'
    split at h
    · cases h
  cases h
  refine mirrored_ofRowList fun row hrow => ?_
  obtain ⟨row, _, rfl⟩ := List.mem_map.mp hrow
  intro e he
  simpa using (List.mem_filter.mp he).2

theorem Built.mirrored {S : MatrixStore} (h : S.Built) : S.matrix.Mirrored := by
  induction h with
  | compressed h => exact mirrored_of_ofCompressed h
  | empty n => exact mirrored_ofRowList fun row hrow => by cases hrow
  | pushRow _ h ih =>
    obtain ⟨coefficients, _, h⟩ := exists_of_bind_eq_ok h
    cases h
    exact ih.pushRow coefficients
  | removeRow _ h ih =>
    obtain ⟨i, _, h⟩ := exists_of_bind_eq_ok h
    cases h
    exact ih.removeRow i

end MatrixStore

end ExactSimplex
