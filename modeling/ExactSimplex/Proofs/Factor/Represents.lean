import Mathlib.LinearAlgebra.Matrix.NonsingularInverse
import Mathlib.Tactic.FieldSimp
import ExactSimplex.Proofs.Factor.Lines

/-! # What a factorization stands for

Etas are elementary matrices, and a stored line of the triangular factor is a row of a matrix. In a coherent
factorization the two stores of the factor mirror each other and no entry is below the diagonal. It represents a
matrix `B` when its eliminations turn `B` into the factor. Then the two solves are total and give the
unique solutions of `B x = b` and `Bᵀ y = c`.
-/
namespace ExactSimplex
open Matrix
variable {m : ℕ}

namespace Eta

/-- The matrix of an eta that is scattered: the identity plus the multipliers in the pivot column. -/
def toMatrix (e : Eta m) : Matrix (Fin m) (Fin m) ℚ :=
  1 + vecMulVec (SparseVec.coeff e.multipliers) (Pi.single e.pivot 1)

theorem get_scatter (e : Eta m) (w : Vec m) : (e.scatter w).get = e.toMatrix *ᵥ w.get := by
  funext i
  have h : (e.toMatrix *ᵥ w.get) i = w.get i + SparseVec.coeff e.multipliers i * w.get e.pivot := by
    simp [toMatrix, add_mulVec, vecMulVec_mulVec, mul_comm]
  rw [h, scatter]
  by_cases hw : w.get e.pivot = 0
  · rw [if_pos hw, hw, mul_zero, add_zero]
  · rw [if_neg hw, SparseVec.get_addTo]

theorem get_gather (e : Eta m) (w : Vec m) : (e.gather w).get = e.toMatrixᵀ *ᵥ w.get := by
  funext i
  have h : (e.toMatrixᵀ *ᵥ w.get) i =
      w.get i + (if e.pivot = i then SparseVec.dot e.multipliers w else 0) := by
    rw [SparseVec.dot_eq_sum]
    simp [toMatrix, add_mulVec, transpose_add, transpose_vecMulVec, vecMulVec_mulVec, dotProduct,
      Pi.single_apply, eq_comm]
  rw [h, gather, Vec.get_addAt]
  split <;> simp

theorem toMatrix_of_isEmpty {e : Eta m} (h : e.multipliers.isEmpty) : e.toMatrix = 1 := by
  have hc : SparseVec.coeff e.multipliers = 0 := by
    funext i
    rw [List.isEmpty_iff.mp h]
    rfl
  rw [toMatrix, hc, zero_vecMulVec, add_zero]

theorem toMatrix_mul_apply (e : Eta m) (M : Matrix (Fin m) (Fin m) ℚ) (i j : Fin m) :
    (e.toMatrix * M) i j = M i j + SparseVec.coeff e.multipliers i * M e.pivot j := by
  simp [toMatrix, Matrix.add_mul, vecMulVec_mul, vecMulVec_apply]

theorem isUnit_toMatrix {e : Eta m} (h : e.pivot ∉ SparseVec.keys e.multipliers) :
    IsUnit e.toMatrix := by
  have hz : Pi.single e.pivot 1 ⬝ᵥ SparseVec.coeff e.multipliers = 0 := by
    rw [single_dotProduct, one_mul, SparseVec.coeff_eq_zero h]
  have hinv : e.toMatrix *
      (1 - vecMulVec (SparseVec.coeff e.multipliers) (Pi.single e.pivot 1)) = 1 := by
    rw [toMatrix, Matrix.add_mul, Matrix.one_mul, Matrix.mul_sub, Matrix.mul_one,
      vecMulVec_mul_vecMulVec, hz, zero_smul, vecMulVec_zero, sub_zero, sub_add_cancel]
  exact IsUnit.of_mul_eq_one _ hinv

/-- A gathering eta adds a combination of rows to the pivot row. -/
theorem transpose_toMatrix_mul_apply (e : Eta m) (M : Matrix (Fin m) (Fin m) ℚ) (i j : Fin m) :
    (e.toMatrixᵀ * M) i j = M i j +
      if i = e.pivot then ∑ k, SparseVec.coeff e.multipliers k * M k j else 0 := by
  simp [toMatrix, transpose_add, transpose_vecMulVec, Matrix.add_mul, vecMulVec_mul, vecMulVec_apply,
    vecMul, dotProduct, Pi.single_apply]

/-- The product of the matrices of etas, the first eta acting first. -/
def product (f : Eta m → Matrix (Fin m) (Fin m) ℚ) : List (Eta m) → Matrix (Fin m) (Fin m) ℚ
  | [] => 1
  | e :: etas => product f etas * f e

theorem product_concat (f : Eta m → Matrix (Fin m) (Fin m) ℚ) (etas : List (Eta m)) (e : Eta m) :
    product f (etas ++ [e]) = f e * product f etas := by
  induction etas with
  | nil => simp [product]
  | cons a etas ih => simp only [List.cons_append, product, ih, Matrix.mul_assoc]

theorem product_append {f : Eta m → Matrix (Fin m) (Fin m) ℚ}
    (hf : ∀ e : Eta m, e.multipliers.isEmpty → f e = 1) (etas : List (Eta m)) (e : Eta m) :
    product f (append etas e) = f e * product f etas := by
  unfold append
  split
  · next h => rw [hf e h, Matrix.one_mul]
  · exact product_concat f etas e

theorem get_foldl {f : Eta m → Matrix (Fin m) (Fin m) ℚ} {act : Eta m → Vec m → Vec m}
    (h : ∀ e w, (act e w).get = f e *ᵥ w.get) (etas : List (Eta m)) (w : Vec m) :
    (etas.foldl (fun w e => act e w) w).get = product f etas *ᵥ w.get := by
  induction etas generalizing w with
  | nil => simp [product]
  | cons e etas ih => rw [List.foldl_cons, ih, h, mulVec_mulVec, product]

theorem get_foldl_reverse {f : Eta m → Matrix (Fin m) (Fin m) ℚ} {act : Eta m → Vec m → Vec m}
    (h : ∀ e w, (act e w).get = (f e)ᵀ *ᵥ w.get) (etas : List (Eta m)) (w : Vec m) :
    (etas.reverse.foldl (fun w e => act e w) w).get = (product f etas)ᵀ *ᵥ w.get := by
  induction etas with
  | nil => simp [product]
  | cons e etas ih =>
    rw [List.reverse_cons, List.foldl_append, List.foldl_cons, List.foldl_nil, h, ih, mulVec_mulVec,
      product, transpose_mul]

/-- The pivot row is not added to itself, and no multiple is zero. -/
def Proper (e : Eta m) : Prop :=
  e.pivot ∉ SparseVec.keys e.multipliers ∧ ∀ entry ∈ e.multipliers, entry.2 ≠ 0

theorem proper_append {etas : List (Eta m)} {e : Eta m} (h : ∀ e ∈ etas, e.Proper) (he : e.Proper) :
    ∀ e' ∈ append etas e, e'.Proper := by
  intro e' he'
  unfold append at he'
  split at he'
  · exact h e' he'
  · rcases List.mem_append.mp he' with he' | he'
    · exact h e' he'
    · exact List.mem_singleton.mp he' ▸ he

end Eta

def lineMatrix (lines : Vector (TriangularLine m) m) : Matrix (Fin m) (Fin m) ℚ :=
  Matrix.of fun j i => (if j = i then (lines.get j).diagonal else 0) +
    SparseVec.coeff (lines.get j).others i

/-- A sublist `[j, k]` of an order says that `j` comes before `k`. -/
theorem before_cons {j k a : Fin m} {order : List (Fin m)} (ha : a ∉ order) (hj : j ∈ order)
    (h : [j, k].Sublist (a :: order)) : [j, k].Sublist order := by
  rcases List.sublist_cons_iff.mp h with h | ⟨r, hr, _⟩
  · exact h
  · simp only [List.cons.injEq] at hr
    exact absurd (hr.1 ▸ hj) ha

theorem mem_of_before {j k : Fin m} {order : List (Fin m)} (hj : j ∉ order)
    (h : [j, k].Sublist (j :: order)) : k ∈ order := by
  rcases List.sublist_cons_iff.mp h with h | ⟨r, hr, hs⟩
  · exact absurd (h.subset List.mem_cons_self) hj
  · simp only [List.cons.injEq, true_and] at hr
    exact hs.subset (hr ▸ List.mem_cons_self)

namespace Factorization

theorem substituteAt_spec {lines : Vector (TriangularLine m) m} {j : Fin m}
    (hd : (lines.get j).diagonal ≠ 0) (w : Vec m) :
    ∃ w', substituteAt lines w j = some w' ∧ ∃ v, w.get j = v * (lines.get j).diagonal ∧
      ∀ i, w'.get i = (if j = i then v else w.get i) -
        v * SparseVec.coeff (lines.get j).others i := by
  unfold substituteAt
  by_cases hw : w.get j = 0
  · refine ⟨w, if_pos hw, 0, by rw [hw, zero_mul], fun i => ?_⟩
    split
    · next h => rw [← h, hw]; ring
    · ring
  · rw [if_neg hw, divide?, if_neg hd]
    refine ⟨_, rfl, w.get j / (lines.get j).diagonal, (div_mul_cancel₀ _ hd).symm, fun i => ?_⟩
    rw [SparseVec.get_addTo, get_put]
    ring

/-- Substitution along an order in which every line only reaches forward. What it leaves at the
visited indices are the coefficients that combine the lines to the given vector. -/
theorem substitute_spec (lines : Vector (TriangularLine m) m) {order : List (Fin m)}
    (hn : order.Nodup) (hd : ∀ j ∈ order, (lines.get j).diagonal ≠ 0)
    (hb : ∀ j ∈ order, ∀ k ∈ SparseVec.keys (lines.get j).others, [j, k].Sublist order) (w : Vec m) :
    ∃ x, substitute lines order w = some x ∧ ∀ i, w.get i =
      (order.map fun j => x.get j * lineMatrix lines j i).sum +
        if i ∈ order then 0 else x.get i := by
  induction order generalizing w with
  | nil => exact ⟨w, rfl, fun i => by simp⟩
  | cons j rest ih =>
    obtain ⟨hj, hn⟩ := List.nodup_cons.mp hn
    have hb' : ∀ k ∈ rest, ∀ l ∈ SparseVec.keys (lines.get k).others, [k, l].Sublist rest :=
      fun k hk l hl => before_cons hj hk (hb k (List.mem_cons_of_mem j hk) l hl)
    -- An index outside of `rest` is not touched any more after this step.
    have hout : ∀ k ∈ rest, ∀ i ∉ rest, lineMatrix lines k i = 0 := by
      intro k hk i hi
      have hki : k ≠ i := fun h => hi (h ▸ hk)
      have hc : i ∉ SparseVec.keys (lines.get k).others :=
        fun h => hi ((hb' k hk i h).subset (by simp))
      simp [lineMatrix, hki, SparseVec.coeff_eq_zero hc]
    obtain ⟨w', hw', v, hv, hget⟩ := substituteAt_spec (hd j List.mem_cons_self) w
    obtain ⟨x, hx, hsum⟩ := ih hn (fun k hk => hd k (List.mem_cons_of_mem j hk)) hb' w'
    have hjj : SparseVec.coeff (lines.get j).others j = 0 :=
      SparseVec.coeff_eq_zero fun h => hj (mem_of_before hj (hb j List.mem_cons_self j h))
    have hxj : x.get j = v := by
      have h := hsum j
      have hz : (rest.map fun k => x.get k * lineMatrix lines k j).sum = 0 := by
        apply List.sum_eq_zero
        intro a ha
        obtain ⟨k, hk, rfl⟩ := List.mem_map.mp ha
        rw [hout k hk j hj, mul_zero]
      rw [hz, if_neg hj, zero_add, hget, if_pos rfl, hjj] at h
      rw [← h]; ring
    refine ⟨x, ?_, fun i => ?_⟩
    · simp only [substitute, List.foldlM_cons, hw']
      exact hx
    · have h := hsum i
      rw [hget] at h
      rw [List.map_cons, List.sum_cons, hxj]
      simp only [lineMatrix, of_apply] at h ⊢
      by_cases hi : j = i
      · subst hi
        rw [if_pos rfl, hjj, if_neg hj, hxj] at h
        rw [if_pos rfl, hjj, if_pos List.mem_cons_self, hv]
        linarith
      · have hmem : i ∈ j :: rest ↔ i ∈ rest := by simp [Ne.symm hi]
        rw [if_neg hi] at h
        simp only [hmem, if_neg hi]
        linarith

/-- The etas of the elimination followed by those of the updates. -/
def transform (F : Factorization m) : Matrix (Fin m) (Fin m) ℚ :=
  Eta.product (fun e => e.toMatrixᵀ) F.updateEtas * Eta.product Eta.toMatrix F.factorEtas

theorem get_applyEtas (F : Factorization m) (w : Vec m) :
    (F.applyEtas w).get = F.transform *ᵥ w.get := by
  rw [applyEtas, Eta.get_foldl Eta.get_gather, Eta.get_foldl Eta.get_scatter, mulVec_mulVec, transform]

/-- The order lists every index once, and the place of each is known. -/
structure Arranged (F : Factorization m) : Prop where
  order_nodup : F.order.Nodup
  mem_order : ∀ i, i ∈ F.order
  position_eq : ∀ i, F.position.get i = F.order.idxOf i

/-- The two stores of the triangular factor mirror each other, no entry is below the diagonal, and all etas are
proper. -/
structure Coherent (F : Factorization m) : Prop extends F.Arranged where
  row_index : ∀ i, (F.rows.get i).index = i
  column_index : ∀ j, (F.columns.get j).index = j
  diagonal_ne_zero : ∀ i, (F.rows.get i).diagonal ≠ 0
  columns_diagonal : ∀ j, (F.columns.get j).diagonal = (F.rows.get j).diagonal
  rows_nodup : ∀ i, (SparseVec.keys (F.rows.get i).others).Nodup
  columns_nodup : ∀ j, (SparseVec.keys (F.columns.get j).others).Nodup
  rows_ne_zero : ∀ i, ∀ e ∈ (F.rows.get i).others, e.2 ≠ 0
  mirrored : ∀ i j v, (j, v) ∈ (F.rows.get i).others ↔ (i, v) ∈ (F.columns.get j).others
  rows_before : ∀ i, ∀ j ∈ SparseVec.keys (F.rows.get i).others, [i, j].Sublist F.order
  factorEtas_proper : ∀ e ∈ F.factorEtas, e.Proper
  updateEtas_proper : ∀ e ∈ F.updateEtas, e.Proper

/-- The eliminations turn `B` into the stored triangular factor. -/
structure Represents (F : Factorization m) (B : Matrix (Fin m) (Fin m) ℚ) : Prop extends F.Coherent where
  factored : F.transform * B = lineMatrix F.rows

namespace Coherent
variable {F : Factorization m}

theorem mem_keys_column (h : F.Coherent) {i j : Fin m} :
    i ∈ SparseVec.keys (F.columns.get j).others ↔ j ∈ SparseVec.keys (F.rows.get i).others := by
  rw [SparseVec.mem_keys, SparseVec.mem_keys]
  exact exists_congr fun v => (h.mirrored i j v).symm

theorem columns_before (h : F.Coherent) (j i : Fin m)
    (hi : i ∈ SparseVec.keys (F.columns.get j).others) : [i, j].Sublist F.order :=
  h.rows_before i j (h.mem_keys_column.mp hi)

theorem not_mem_row (h : F.Coherent) (i : Fin m) : i ∉ SparseVec.keys (F.rows.get i).others :=
  fun hi => absurd (h.order_nodup.sublist (h.rows_before i i hi)) (by simp)

theorem not_mem_column (h : F.Coherent) (j : Fin m) :
    j ∉ SparseVec.keys (F.columns.get j).others :=
  fun hj => h.not_mem_row j (h.mem_keys_column.mp hj)

theorem lineMatrix_diagonal (h : F.Coherent) (i : Fin m) :
    lineMatrix F.rows i i = (F.rows.get i).diagonal := by
  simp [lineMatrix, SparseVec.coeff_eq_zero (h.not_mem_row i)]

theorem columns_eq (h : F.Coherent) : lineMatrix F.columns = (lineMatrix F.rows)ᵀ := by
  ext j i
  have hc : SparseVec.coeff (F.columns.get j).others i = SparseVec.coeff (F.rows.get i).others j := by
    by_cases hi : i ∈ SparseVec.keys (F.columns.get j).others
    · obtain ⟨v, hv⟩ := SparseVec.mem_keys.mp hi
      rw [SparseVec.coeff_of_mem (h.columns_nodup j) hv,
        SparseVec.coeff_of_mem (h.rows_nodup i) ((h.mirrored i j v).mpr hv)]
    · rw [SparseVec.coeff_eq_zero hi, SparseVec.coeff_eq_zero (mt h.mem_keys_column.mpr hi)]
  rw [transpose_apply, lineMatrix, lineMatrix, of_apply, of_apply, hc]
  by_cases hji : j = i
  · subst hji
    rw [h.columns_diagonal]
  · rw [if_neg hji, if_neg (Ne.symm hji)]

theorem order_perm (h : F.Coherent) : F.order.Perm (List.finRange m) := by
  apply (List.perm_ext_iff_of_nodup h.order_nodup (List.nodup_finRange m)).mpr
  intro i
  simp [h.mem_order i]

theorem sum_order (h : F.Coherent) (f : Fin m → ℚ) : (F.order.map f).sum = ∑ j, f j := by
  rw [(h.order_perm.map f).sum_eq, Fin.sum_univ_def]

theorem upper_solve (h : F.Coherent) (w : Vec m) :
    ∃ x, substitute F.columns F.order.reverse w = some x ∧ lineMatrix F.rows *ᵥ x.get = w.get := by
  obtain ⟨x, hx, hsum⟩ := substitute_spec F.columns (List.nodup_reverse.mpr h.order_nodup)
    (fun j _ => by rw [h.columns_diagonal]; exact h.diagonal_ne_zero j)
    (fun j _ i hi => List.reverse_sublist.mpr (h.columns_before j i hi)) w
  refine ⟨x, hx, funext fun i => ?_⟩
  rw [hsum i, if_pos (List.mem_reverse.mpr (h.mem_order i)), add_zero, List.map_reverse,
    List.sum_reverse, h.sum_order, mulVec, dotProduct]
  exact Finset.sum_congr rfl fun j _ => by rw [h.columns_eq, transpose_apply, mul_comm]

theorem upper_solve_transposed (h : F.Coherent) (w : Vec m) :
    ∃ x, substitute F.rows F.order w = some x ∧ (lineMatrix F.rows)ᵀ *ᵥ x.get = w.get := by
  obtain ⟨x, hx, hsum⟩ := substitute_spec F.rows h.order_nodup
    (fun j _ => h.diagonal_ne_zero j) (fun j _ k hk => h.rows_before j k hk) w
  refine ⟨x, hx, funext fun i => ?_⟩
  rw [hsum i, if_pos (h.mem_order i), add_zero, h.sum_order, mulVec, dotProduct]
  exact Finset.sum_congr rfl fun j _ => by rw [transpose_apply, mul_comm]

theorem isUnit_upper (h : F.Coherent) : IsUnit (lineMatrix F.rows) := by
  apply mulVec_surjective_iff_isUnit.mp
  intro w
  obtain ⟨x, _, hx⟩ := h.upper_solve (Vector.ofFn w)
  refine ⟨x.get, hx.trans (funext fun i => ?_)⟩
  rw [get_ofFn]

end Coherent

namespace Represents
variable {F : Factorization m} {B : Matrix (Fin m) (Fin m) ℚ}

theorem isUnit_transform (h : F.Represents B) : IsUnit F.transform := by
  have hu := h.isUnit_upper
  rw [← h.factored, isUnit_iff_isUnit_det, det_mul] at hu
  exact (isUnit_iff_isUnit_det _).mpr (isUnit_of_mul_isUnit_left hu)

theorem isUnit (h : F.Represents B) : IsUnit B := by
  have hu := h.isUnit_upper
  rw [← h.factored, isUnit_iff_isUnit_det, det_mul] at hu
  exact (isUnit_iff_isUnit_det _).mpr (isUnit_of_mul_isUnit_right hu)

theorem solve_eq (h : F.Represents B) (b : Vec m) :
    ∃ x, F.solve b = some x ∧ B *ᵥ x.get = b.get := by
  obtain ⟨x, hx, hu⟩ := h.upper_solve (F.applyEtas b)
  refine ⟨x, hx, mulVec_injective_iff_isUnit.mpr h.isUnit_transform ?_⟩
  rw [mulVec_mulVec, h.factored, hu, get_applyEtas]

theorem solveTransposed_eq (h : F.Represents B) (c : Vec m) :
    ∃ y, F.solveTransposed c = some y ∧ Bᵀ *ᵥ y.get = c.get := by
  obtain ⟨w, hw, hu⟩ := h.upper_solve_transposed c
  refine ⟨_, by rw [solveTransposed, hw]; rfl, ?_⟩
  have hs : ∀ (e : Eta m) (w : Vec m), (e.scatter w).get = (e.toMatrixᵀ)ᵀ *ᵥ w.get := by
    intro e w
    rw [transpose_transpose, Eta.get_scatter]
  rw [Eta.get_foldl_reverse Eta.get_gather, Eta.get_foldl_reverse (f := fun e => e.toMatrixᵀ) hs,
    mulVec_mulVec, mulVec_mulVec, ← hu, ← h.factored, transform]
  simp only [transpose_mul, Matrix.mul_assoc]

end Represents

end Factorization

end ExactSimplex
