import Mathlib.LinearAlgebra.Matrix.Determinant.Basic
import ExactSimplex.Proofs.Factor.Represents

/-! # Replacing a column keeps the representation

Taking out the old column and entering the spike row by row, and the displaced row column by column, leaves
two stores that mirror each other. The spike is the new column after all eliminations so far, so it is
the new column of the triangular factor. The displaced row is then a combination of the rows after it, and
the eta that clears it is exactly the recorded one.
-/
namespace ExactSimplex.Factorization
open Matrix
variable {m : ℕ}

theorem clearAt_spec {rows : Vector (TriangularLine m) m} {i : Fin m}
    (hd : (rows.get i).diagonal ≠ 0) (hi : i ∉ SparseVec.keys (rows.get i).others)
    (w : Vec m) (multipliers : SparseVec m) :
    ∃ w' new, clearAt rows (w, multipliers) i = some (w', multipliers ++ new) ∧
      (∀ e ∈ new, e.1 = i ∧ e.2 ≠ 0) ∧ w'.get i = 0 ∧
      ∀ j, w'.get j = w.get j + SparseVec.coeff new i * lineMatrix rows i j := by
  unfold clearAt
  by_cases hw : w.get i = 0
  · exact ⟨w, [], by simp [hw], by simp, hw, by simp⟩
  · have hc := SparseVec.coeff_eq_zero hi
    refine ⟨SparseVec.addTo (rows.get i).others (-(w.get i) / (rows.get i).diagonal) (put w i 0),
      [(i, -(w.get i) / (rows.get i).diagonal)], ?_, ?_, ?_, fun j => ?_⟩
    · simp [hw, divide?, hd]
    · simpa using ⟨hw, hd⟩
    · simp [hc]
    · rw [SparseVec.get_addTo, get_put, lineMatrix, of_apply]
      simp only [SparseVec.coeff_cons, SparseVec.coeff_nil, if_true, add_zero]
      by_cases hij : i = j
      · subst hij
        rw [if_pos rfl, if_pos rfl, hc]
        field_simp
        ring
      · rw [if_neg hij, if_neg hij]
        ring

/-- Clearing a row along an order in which every line only reaches forward or to `p` leaves a value
at `p` alone, and the multipliers say which combination of lines was added. -/
theorem clear_spec {rows : Vector (TriangularLine m) m} {p : Fin m} {order : List (Fin m)}
    (hn : order.Nodup) (hp : p ∉ order) (hd : ∀ i ∈ order, (rows.get i).diagonal ≠ 0)
    (hb : ∀ i ∈ order, ∀ k ∈ SparseVec.keys (rows.get i).others, k = p ∨ [i, k].Sublist order)
    (w : Vec m) (multipliers : SparseVec m) (hw : ∀ j, w.get j ≠ 0 → j = p ∨ j ∈ order) :
    ∃ w' new, order.foldlM (clearAt rows) (w, multipliers) = some (w', multipliers ++ new) ∧
      (∀ e ∈ new, e.1 ∈ order ∧ e.2 ≠ 0) ∧ (∀ j, j ≠ p → w'.get j = 0) ∧
      ∀ j, w'.get j = w.get j + ∑ i, SparseVec.coeff new i * lineMatrix rows i j := by
  induction order generalizing w multipliers with
  | nil =>
    refine ⟨w, [], by simp, by simp, fun j hj => ?_, by simp⟩
    by_contra h
    exact (hw j h).elim hj List.not_mem_nil
  | cons i rest ih =>
    obtain ⟨hi, hn⟩ := List.nodup_cons.mp hn
    simp only [List.mem_cons, not_or] at hp
    have hkeys : ∀ k ∈ SparseVec.keys (rows.get i).others, k = p ∨ k ∈ rest := fun k hk =>
      (hb i List.mem_cons_self k hk).imp_right (mem_of_before hi)
    have hii : i ∉ SparseVec.keys (rows.get i).others :=
      fun h => (hkeys i h).elim (fun he => hp.1 he.symm) hi
    obtain ⟨w₁, new₁, hs₁, hk₁, hz₁, hw₁⟩ :=
      clearAt_spec (hd i List.mem_cons_self) hii w multipliers
    have hsupport : ∀ j, w₁.get j ≠ 0 → j = p ∨ j ∈ rest := by
      intro j hj
      by_cases hji : i = j
      · exact absurd (hji ▸ hz₁) hj
      · by_contra hout
        have hc : SparseVec.coeff (rows.get i).others j = 0 :=
          SparseVec.coeff_eq_zero fun h => hout (hkeys j h)
        have hwj : w.get j = 0 := by
          by_contra h
          exact hout ((hw j h).imp_right fun h => (List.mem_cons.mp h).resolve_left (Ne.symm hji))
        apply hj
        rw [hw₁, hwj, lineMatrix, of_apply, if_neg hji, hc]
        ring
    obtain ⟨w₂, new₂, hs₂, hk₂, hz₂, hw₂⟩ := ih hn hp.2
      (fun k hk => hd k (List.mem_cons_of_mem i hk))
      (fun k hk l hl => (hb k (List.mem_cons_of_mem i hk) l hl).imp_right (before_cons hi hk))
      w₁ (multipliers ++ new₁) hsupport
    refine ⟨w₂, new₁ ++ new₂, ?_, ?_, hz₂, fun j => ?_⟩
    · rw [List.foldlM_cons, hs₁, ← List.append_assoc]
      exact hs₂
    · intro e he
      rcases List.mem_append.mp he with he | he
      · exact ⟨(hk₁ e he).1 ▸ List.mem_cons_self, (hk₁ e he).2⟩
      · exact ⟨List.mem_cons_of_mem i (hk₂ e he).1, (hk₂ e he).2⟩
    · have hsum : ∑ k, SparseVec.coeff new₁ k * lineMatrix rows k j =
          SparseVec.coeff new₁ i * lineMatrix rows i j := by
        apply Finset.sum_eq_single i
        · intro k _ hk
          have hnot : k ∉ SparseVec.keys new₁ := by
            intro h
            obtain ⟨v, hv⟩ := SparseVec.mem_keys.mp h
            exact hk (hk₁ _ hv).1
          rw [SparseVec.coeff_eq_zero hnot, zero_mul]
        · intro h
          exact absurd (Finset.mem_univ i) h
      simp only [SparseVec.coeff_append, add_mul, Finset.sum_add_distrib, hsum]
      rw [hw₂, hw₁]
      ring

theorem before_append {j k : Fin m} {front order : List (Fin m)} (hj : j ∉ front)
    (h : [j, k].Sublist (front ++ order)) : [j, k].Sublist order := by
  induction front with
  | nil => exact h
  | cons a front ih =>
    simp only [List.mem_cons, not_or] at hj
    rcases List.sublist_cons_iff.mp h with h | ⟨r, hr, _⟩
    · exact ih hj.2 h
    · simp only [List.cons.injEq] at hr
      exact absurd hr.1 hj.1

namespace Arranged
variable {F G : Factorization m}

theorem eraseIdx_position (h : F.Arranged) (p : Fin m) :
    F.order.eraseIdx (F.position.get p) = F.order.filter fun i => i ≠ p := by
  rw [h.position_eq, List.eraseIdx_idxOf_eq_erase, h.order_nodup.erase_eq_filter]
  refine List.filter_congr fun i _ => ?_
  by_cases hi : i = p <;> simp [hi]

theorem order_eq (h : F.Arranged) (p : Fin m) :
    F.order = F.order.take (F.position.get p) ++ p :: F.after p := by
  have hlt : F.order.idxOf p < F.order.length := List.idxOf_lt_length_iff.mpr (h.mem_order p)
  rw [after, h.position_eq]
  conv_lhs => rw [← List.take_append_drop (F.order.idxOf p) F.order, List.drop_eq_getElem_cons hlt,
    List.getElem_idxOf hlt]

theorem length_order (h : F.Arranged) : F.order.length = m := by
  have hperm : F.order.Perm (List.finRange m) :=
    (List.perm_ext_iff_of_nodup h.order_nodup (List.nodup_finRange m)).mpr fun i => by
      simp [h.mem_order i]
  rw [hperm.length_eq, List.length_finRange]

/-- An index moves to the end, and what comes behind its old place is numbered anew. -/
theorem moved (h : F.Arranged) (p : Fin m)
    (horder : G.order = F.order.eraseIdx (F.position.get p) ++ [p])
    (hposition : G.position = numberFrom (F.position.get p) G.order F.position) : G.Arranged := by
  have hnodup : G.order.Nodup := by
    rw [horder, h.eraseIdx_position]
    refine List.nodup_append.mpr ⟨h.order_nodup.filter _, List.nodup_singleton p, ?_⟩
    rintro i hi j hj rfl
    rw [List.mem_singleton] at hj
    simp [hj] at hi
  have hmem : ∀ i, i ∈ G.order := by
    intro i
    rw [horder, h.eraseIdx_position]
    by_cases hi : i = p
    · simp [hi]
    · simp [h.mem_order i, hi]
  refine ⟨hnodup, hmem, fun i => ?_⟩
  have hnew : G.order = F.order.take (F.position.get p) ++ (F.after p ++ [p]) := by
    rw [horder, List.eraseIdx_eq_take_drop_succ, List.append_assoc]
    rfl
  have hlength : (F.order.take (F.position.get p)).length = F.position.get p := by
    rw [List.length_take, h.position_eq]
    exact min_eq_left List.idxOf_le_length
  rw [hposition]
  -- the indices before the old place keep their places
  refine get_numberFrom hnodup (fun k hk => ?_) (hmem i)
  rw [hnew, List.take_left' hlength] at hk
  rw [hnew, List.idxOf_append_of_mem hk, h.position_eq]
  conv_lhs => rw [h.order_eq p, List.idxOf_append_of_mem hk]

theorem insertSpike (h : F.Arranged) {p : Fin m} {spike : SparseVec m}
    (hG : F.insertSpike p spike = .ok G) : G.Arranged := by
  unfold Factorization.insertSpike at hG
  dsimp only at hG
  split at hG
  · cases hG
  · split at hG
    · cases hG
    · cases hG
      exact h.moved p rfl rfl

end Arranged

namespace Coherent
variable {F : Factorization m}

section Spike
variable (h : F.Coherent) (p : Fin m)
include h

theorem rowsWithSpike_perm (spike : SparseVec m) (i : Fin m) :
    ((F.rowsWithSpike p spike).get i).others.Perm (SparseVec.without (F.rows.get i).others p ++
      ((SparseVec.without spike p).filter fun e => e.1 = i).map fun e => (p, e.2)) := by
  rw [rowsWithSpike, get_insertInto]
  exact (removeFrom_perm (h.columns_nodup p) h.rows_nodup (fun _ => h.mem_keys_column.mpr) i).append_right _

theorem index_rowsWithSpike (spike : SparseVec m) (i : Fin m) :
    ((F.rowsWithSpike p spike).get i).index = i := by
  rw [rowsWithSpike, get_insertInto, index_removeFrom (h.columns_nodup p), h.row_index]

theorem diagonal_rowsWithSpike (spike : SparseVec m) (i : Fin m) :
    ((F.rowsWithSpike p spike).get i).diagonal = (F.rows.get i).diagonal := by
  rw [rowsWithSpike, get_insertInto, diagonal_removeFrom (h.columns_nodup p)]

/-- The displaced row has no entry in its own column to be taken out. -/
theorem rowsWithSpike_self (spike : SparseVec m) : (F.rowsWithSpike p spike).get p = F.rows.get p := by
  have hnone : ((SparseVec.without spike p).filter fun e => e.1 = p) = [] := by
    refine List.filter_eq_nil_iff.mpr fun e he => ?_
    simpa using (SparseVec.mem_without.mp he).2
  rw [rowsWithSpike, get_insertInto, get_removeFrom (h.columns_nodup p), if_neg (h.not_mem_column p),
    hnone, List.map_nil, List.append_nil]

theorem mem_rowsWithSpike (spike : SparseVec m) {i j : Fin m} {v : ℚ} :
    (j, v) ∈ ((F.rowsWithSpike p spike).get i).others ↔
      j ≠ p ∧ (j, v) ∈ (F.rows.get i).others ∨ j = p ∧ i ≠ p ∧ (i, v) ∈ spike := by
  rw [(h.rowsWithSpike_perm p spike i).mem_iff]
  simp only [List.mem_append, SparseVec.mem_without, List.mem_map, List.mem_filter, decide_eq_true_iff,
    Prod.mk.injEq]
  refine or_congr and_comm ⟨?_, ?_⟩
  · rintro ⟨⟨k, w⟩, ⟨⟨he, hk⟩, rfl⟩, rfl, rfl⟩
    exact ⟨rfl, hk, he⟩
  · rintro ⟨rfl, hi, he⟩
    exact ⟨(i, v), ⟨⟨he, hi⟩, rfl⟩, rfl, rfl⟩

theorem rowsWithSpike_nodup (t : Vec m) (i : Fin m) :
    (SparseVec.keys ((F.rowsWithSpike p (Vec.support t)).get i).others).Nodup := by
  rw [(SparseVec.keys_perm (h.rowsWithSpike_perm p _ i)).nodup_iff, SparseVec.keys_append]
  refine List.nodup_append.mpr ⟨SparseVec.keys_filter_nodup (h.rows_nodup i) _, ?_, ?_⟩
  · exact SparseVec.keys_moved_nodup (SparseVec.keys_filter_nodup (Vec.keys_support_nodup t) _) i p
  · rintro k hk l hl rfl
    simp only [SparseVec.keys, List.map_map, List.mem_map, Function.comp_def] at hl
    obtain ⟨_, _, rfl⟩ := hl
    exact (SparseVec.mem_keys_without.mp hk).2 rfl

theorem mem_keys_rowsWithSpike {spike : SparseVec m} {i k : Fin m}
    (hk : k ∈ SparseVec.keys ((F.rowsWithSpike p spike).get i).others) :
    k = p ∨ k ≠ p ∧ k ∈ SparseVec.keys (F.rows.get i).others := by
  obtain ⟨v, hv⟩ := SparseVec.mem_keys.mp hk
  rcases (h.mem_rowsWithSpike p spike).mp hv with ⟨hkp, hv⟩ | ⟨hkp, _⟩
  · exact Or.inr ⟨hkp, SparseVec.mem_keys.mpr ⟨v, hv⟩⟩
  · exact Or.inl hkp

/-- Away from row `p`, the rows with the spike are those of the factor with a new column `p`. -/
theorem lineMatrix_rowsWithSpike (t : Vec m) {i : Fin m} (hi : i ≠ p) :
    lineMatrix (F.rowsWithSpike p (Vec.support t)) i = (lineMatrix F.rows).updateCol p t.get i := by
  funext j
  simp only [lineMatrix, of_apply, h.diagonal_rowsWithSpike,
    SparseVec.coeff_perm (h.rowsWithSpike_perm p _ i), SparseVec.coeff_append, SparseVec.coeff_moved,
    SparseVec.coeff_without, Vec.coeff_support, updateCol_apply, if_neg hi]
  by_cases hj : j = p
  · subst hj
    simp [hi]
  · simp [hj, Ne.symm hj]

theorem columnsWithout_perm (j : Fin m) :
    ((removeFrom F.columns (F.rows.get p).others p).get j).others.Perm
      (SparseVec.without (F.columns.get j).others p) :=
  removeFrom_perm (h.rows_nodup p) h.columns_nodup (fun _ => h.mem_keys_column.mp) j

end Spike

theorem after_spec (h : F.Coherent) (p : Fin m) :
    (F.after p).Nodup ∧ p ∉ F.after p ∧
      (∀ i ∈ F.after p, ∀ k, [i, k].Sublist F.order → [i, k].Sublist (F.after p)) ∧
      ∀ k, [p, k].Sublist F.order → k ∈ F.after p := by
  have hf := h.order_eq p
  have hn : (F.order.take (F.position.get p) ++ p :: F.after p).Nodup := hf ▸ h.order_nodup
  obtain ⟨_, hn₂, hdis⟩ := List.nodup_append.mp hn
  obtain ⟨hp, hna⟩ := List.nodup_cons.mp hn₂
  have hfront : ∀ i ∈ p :: F.after p, i ∉ F.order.take (F.position.get p) :=
    fun i hi hif => hdis i hif i hi rfl
  refine ⟨hna, hp, fun i hi k hk => ?_, fun k hk => ?_⟩
  · rw [hf] at hk
    exact before_cons hp hi (before_append (hfront i (List.mem_cons_of_mem p hi)) hk)
  · rw [hf] at hk
    exact mem_of_before hp (before_append (hfront p List.mem_cons_self) hk)

theorem get_displaced (h : F.Coherent) (p : Fin m) (t : Vec m) :
    (SparseVec.writeTo (((Vec.support t).filter fun e => e.1 = p) ++
      ((F.rowsWithSpike p (Vec.support t)).get p).others) (Vec.zero m)).get =
      (lineMatrix F.rows).updateCol p t.get p := by
  rw [h.rowsWithSpike_self]
  have hkeys : (SparseVec.keys (((Vec.support t).filter fun e => e.1 = p) ++
      (F.rows.get p).others)).Nodup := by
    rw [SparseVec.keys_append]
    refine List.nodup_append.mpr ⟨SparseVec.keys_filter_nodup (Vec.keys_support_nodup t) _,
      h.rows_nodup p, ?_⟩
    rintro a ha b hb rfl
    obtain ⟨v, hv⟩ := SparseVec.mem_keys.mp ha
    have hap : a = p := by simpa using (List.mem_filter.mp hv).2
    exact h.not_mem_row p (hap ▸ hb)
  funext j
  rw [SparseVec.get_writeTo_zero hkeys, SparseVec.coeff_append,
    SparseVec.coeff_filter fun k => decide (k = p)]
  by_cases hj : j = p
  · subst hj
    simp [SparseVec.coeff_eq_zero (h.not_mem_row j)]
  · simp [hj, Ne.symm hj, lineMatrix]

/-- The displaced row is cleared by a proper eta. -/
theorem foldlM_clearAt (h : F.Coherent) (p : Fin m) (t : Vec m) :
    ∃ w multipliers, (F.after p).foldlM (clearAt (F.rowsWithSpike p (Vec.support t)))
        (SparseVec.writeTo (((Vec.support t).filter fun e => e.1 = p) ++
          ((F.rowsWithSpike p (Vec.support t)).get p).others) (Vec.zero m), []) =
          some (w, multipliers) ∧
      Eta.Proper ⟨p, multipliers⟩ ∧
      (∀ i ∈ SparseVec.keys multipliers, i ∈ F.after p) ∧ (∀ j, j ≠ p → w.get j = 0) ∧
      ∀ j, w.get j = (lineMatrix F.rows).updateCol p t.get p j +
        ∑ i, SparseVec.coeff multipliers i * (lineMatrix F.rows).updateCol p t.get i j := by
  obtain ⟨hn, hp, hafter, hrow⟩ := h.after_spec p
  have hreach : ∀ i ∈ F.after p,
      ∀ k ∈ SparseVec.keys ((F.rowsWithSpike p (Vec.support t)).get i).others,
      k = p ∨ [i, k].Sublist (F.after p) := by
    intro i hi k hk
    exact (h.mem_keys_rowsWithSpike p hk).imp_right fun h' => hafter i hi k (h.rows_before i k h'.2)
  have hsupport : ∀ j, (SparseVec.writeTo (((Vec.support t).filter fun e => e.1 = p) ++
      ((F.rowsWithSpike p (Vec.support t)).get p).others) (Vec.zero m)).get j ≠ 0 →
      j = p ∨ j ∈ F.after p := by
    intro j hj
    by_cases hjp : j = p
    · exact Or.inl hjp
    · rw [h.get_displaced p t, updateCol_ne hjp, lineMatrix, of_apply, if_neg (Ne.symm hjp),
        zero_add] at hj
      refine Or.inr (hrow j (h.rows_before p j ?_))
      by_contra hk
      exact hj (SparseVec.coeff_eq_zero hk)
  obtain ⟨w, new, hs, hk, hz, hw⟩ := clear_spec hn hp
    (fun i _ => by rw [h.diagonal_rowsWithSpike]; exact h.diagonal_ne_zero i) hreach _ [] hsupport
  have hkeys : ∀ i ∈ SparseVec.keys new, i ∈ F.after p := by
    intro i hi
    obtain ⟨v, hv⟩ := SparseVec.mem_keys.mp hi
    exact (hk _ hv).1
  refine ⟨w, new, hs, ⟨fun hpk => hp (hkeys p hpk), fun e he => (hk e he).2⟩, hkeys, hz, fun j => ?_⟩
  rw [hw, h.get_displaced p t]
  congr 1
  apply Finset.sum_congr rfl
  intro i _
  by_cases hi : i = p
  · rw [hi, SparseVec.coeff_eq_zero fun hpk => hp (hkeys p hpk), zero_mul, zero_mul]
  · rw [h.lineMatrix_rowsWithSpike p t hi]

end Coherent

/-- The factorization with a spike `t` in column `p`, once the displaced row has been cleared to the
diagonal value `d` with the given multipliers. -/
def withSpike (F : Factorization m) (p : Fin m) (t : Vec m) (d : ℚ) (multipliers : SparseVec m) :
    Factorization m where
  rows := put (F.rowsWithSpike p (Vec.support t)) p ⟨p, d, []⟩
  columns := put (removeFrom F.columns ((F.rowsWithSpike p (Vec.support t)).get p).others p) p
    ⟨p, d, SparseVec.without (Vec.support t) p⟩
  order := F.order.eraseIdx (F.position.get p) ++ [p]
  position := numberFrom (F.position.get p) (F.order.eraseIdx (F.position.get p) ++ [p]) F.position
  factorEtas := F.factorEtas
  updateEtas := Eta.append F.updateEtas ⟨p, multipliers⟩

theorem before_moved {order : List (Fin m)} {i j p : Fin m} (hi : i ≠ p) (hj : j ≠ p)
    (h : [i, j].Sublist order) : [i, j].Sublist ((order.filter fun i => i ≠ p) ++ [p]) := by
  have hf := h.filter fun i => decide (i ≠ p)
  rw [List.filter_cons_of_pos (by simpa using hi), List.filter_cons_of_pos (by simpa using hj)] at hf
  exact hf.trans (List.sublist_append_left _ _)

theorem before_last {order : List (Fin m)} {i p : Fin m} (hi : i ≠ p) (h : i ∈ order) :
    [i, p].Sublist ((order.filter fun i => i ≠ p) ++ [p]) := by
  have hf : i ∈ order.filter fun i => i ≠ p := by simp [h, hi]
  exact (List.singleton_sublist.mpr hf).append (List.Sublist.refl [p])

/-- The new eta comes after the eliminations that are there already. -/
theorem transform_withSpike (F : Factorization m) (p : Fin m) (t : Vec m) (d : ℚ)
    (multipliers : SparseVec m) :
    (F.withSpike p t d multipliers).transform = (Eta.toMatrix ⟨p, multipliers⟩)ᵀ * F.transform := by
  rw [transform, withSpike, Eta.product_append, transform, Matrix.mul_assoc]
  intro e he
  rw [Eta.toMatrix_of_isEmpty he, transpose_one]

namespace Coherent
variable {F : Factorization m}

section WithSpike
variable (h : F.Coherent) (p : Fin m) (t : Vec m) (d : ℚ) (multipliers : SparseVec m)

theorem get_rows_withSpike (F : Factorization m) (i : Fin m) :
    (F.withSpike p t d multipliers).rows.get i =
      if p = i then ⟨p, d, []⟩ else (F.rowsWithSpike p (Vec.support t)).get i :=
  get_put _ _ _ _

include h

theorem get_columns_withSpike (j : Fin m) :
    (F.withSpike p t d multipliers).columns.get j =
      if p = j then ⟨p, d, SparseVec.without (Vec.support t) p⟩
      else (removeFrom F.columns (F.rows.get p).others p).get j := by
  rw [withSpike, get_put, h.rowsWithSpike_self]

theorem lineMatrix_rows_withSpike (i : Fin m) :
    lineMatrix (F.withSpike p t d multipliers).rows i =
      if i = p then Pi.single p d else (lineMatrix F.rows).updateCol p t.get i := by
  by_cases hi : i = p
  · subst hi
    funext j
    by_cases hj : i = j
    · subst hj
      simp [lineMatrix, get_rows_withSpike]
    · simp [lineMatrix, get_rows_withSpike, hj, Ne.symm hj]
  · rw [if_neg hi, ← h.lineMatrix_rowsWithSpike p t hi]
    funext j
    simp [lineMatrix, get_rows_withSpike, Ne.symm hi]

theorem mem_rows_withSpike {i j : Fin m} {v : ℚ} :
    (j, v) ∈ ((F.withSpike p t d multipliers).rows.get i).others ↔
      i ≠ p ∧ (j ≠ p ∧ (j, v) ∈ (F.rows.get i).others ∨ j = p ∧ (i, v) ∈ Vec.support t) := by
  rw [get_rows_withSpike]
  by_cases hi : p = i
  · simp [hi]
  · rw [if_neg hi, h.mem_rowsWithSpike]
    simp [Ne.symm hi]

theorem mem_columns_withSpike {i j : Fin m} {v : ℚ} :
    (i, v) ∈ ((F.withSpike p t d multipliers).columns.get j).others ↔
      i ≠ p ∧ (j ≠ p ∧ (i, v) ∈ (F.columns.get j).others ∨ j = p ∧ (i, v) ∈ Vec.support t) := by
  rw [h.get_columns_withSpike]
  by_cases hj : p = j
  · rw [if_pos hj, SparseVec.mem_without]
    simp [hj, and_comm]
  · rw [if_neg hj, (h.columnsWithout_perm p j).mem_iff, SparseVec.mem_without]
    simp [Ne.symm hj, and_comm]

theorem order_withSpike :
    (F.withSpike p t d multipliers).order = (F.order.filter fun i => i ≠ p) ++ [p] := by
  rw [withSpike, h.eraseIdx_position]

theorem withSpike {d : ℚ} {multipliers : SparseVec m} (hd : d ≠ 0)
    (hm : Eta.Proper ⟨p, multipliers⟩) : (F.withSpike p t d multipliers).Coherent where
  toArranged := h.moved p rfl rfl
  row_index i := by
    rw [get_rows_withSpike]
    split
    · next hi => exact hi
    · exact h.index_rowsWithSpike p _ i
  column_index j := by
    rw [h.get_columns_withSpike]
    split
    · next hj => exact hj
    · rw [index_removeFrom (h.rows_nodup p), h.column_index]
  diagonal_ne_zero i := by
    rw [get_rows_withSpike]
    split
    · exact hd
    · rw [h.diagonal_rowsWithSpike]
      exact h.diagonal_ne_zero i
  columns_diagonal j := by
    rw [h.get_columns_withSpike, get_rows_withSpike]
    split
    · rfl
    · rw [diagonal_removeFrom (h.rows_nodup p), h.diagonal_rowsWithSpike, h.columns_diagonal]
  rows_nodup i := by
    rw [get_rows_withSpike]
    split
    · exact List.nodup_nil
    · exact h.rowsWithSpike_nodup p t i
  columns_nodup j := by
    rw [h.get_columns_withSpike]
    split
    · exact SparseVec.keys_filter_nodup (Vec.keys_support_nodup t) _
    · rw [(SparseVec.keys_perm (h.columnsWithout_perm p j)).nodup_iff]
      exact SparseVec.keys_filter_nodup (h.columns_nodup j) _
  rows_ne_zero i e he := by
    rcases ((h.mem_rows_withSpike p t d multipliers).mp he).2 with ⟨_, he⟩ | ⟨_, he⟩
    · exact h.rows_ne_zero i _ he
    · obtain ⟨hv, hne⟩ := Vec.mem_support.mp he
      exact hv ▸ hne
  mirrored i j v := by
    rw [h.mem_rows_withSpike, h.mem_columns_withSpike, h.mirrored i j v]
  rows_before i j hj := by
    rw [h.order_withSpike]
    obtain ⟨v, hv⟩ := SparseVec.mem_keys.mp hj
    obtain ⟨hi, ⟨hjp, hv⟩ | ⟨rfl, _⟩⟩ := (h.mem_rows_withSpike p t d multipliers).mp hv
    · exact before_moved hi hjp (h.rows_before i j (SparseVec.mem_keys.mpr ⟨v, hv⟩))
    · exact before_last hi (h.mem_order i)
  factorEtas_proper := h.factorEtas_proper
  updateEtas_proper := Eta.proper_append h.updateEtas_proper hm

end WithSpike

/-- A spike is entered unless it would make a diagonal value zero. -/
theorem insertSpike_cases (h : F.Coherent) (p : Fin m) (t : Vec m) :
    ∃ (w : Vec m) (multipliers : SparseVec m), Eta.Proper ⟨p, multipliers⟩ ∧
      (∀ i ∈ SparseVec.keys multipliers, i ∈ F.after p) ∧ (∀ j, j ≠ p → w.get j = 0) ∧
      (∀ j, w.get j = (lineMatrix F.rows).updateCol p t.get p j +
        ∑ i, SparseVec.coeff multipliers i * (lineMatrix F.rows).updateCol p t.get i j) ∧
      F.insertSpike p (Vec.support t) =
        if w.get p = 0 then .error (.refused (.singularBasis 1))
        else .ok (F.withSpike p t (w.get p) multipliers) := by
  obtain ⟨w, multipliers, hs, hm, hk, hz, hw⟩ := h.foldlM_clearAt p t
  refine ⟨w, multipliers, hm, hk, hz, hw, ?_⟩
  unfold Factorization.insertSpike
  simp only [hs]
  rfl

theorem insertSpike (h : F.Coherent) {p : Fin m} {t : Vec m} {G : Factorization m}
    (hG : F.insertSpike p (Vec.support t) = .ok G) : G.Coherent := by
  obtain ⟨w, multipliers, hm, _, _, _, hinsert⟩ := h.insertSpike_cases p t
  rw [hinsert] at hG
  split at hG
  · cases hG
  · next hne =>
    cases hG
    exact h.withSpike p t hne hm

end Coherent

namespace Represents
variable {F : Factorization m} {B : Matrix (Fin m) (Fin m) ℚ}

/-- The recorded eta turns the factor with the spike into the new factor. -/
theorem factored_withSpike (h : F.Represents B) {p : Fin m} {a w : Vec m}
    {multipliers : SparseVec m} (hz : ∀ j, j ≠ p → w.get j = 0)
    (hw : ∀ j, w.get j = (lineMatrix F.rows).updateCol p (F.applyEtas a).get p j +
      ∑ i, SparseVec.coeff multipliers i *
        (lineMatrix F.rows).updateCol p (F.applyEtas a).get i j) :
    (F.withSpike p (F.applyEtas a) (w.get p) multipliers).transform * B.updateCol p a.get =
      lineMatrix (F.withSpike p (F.applyEtas a) (w.get p) multipliers).rows := by
  have hspike : F.transform * B.updateCol p a.get =
      (lineMatrix F.rows).updateCol p (F.applyEtas a).get := by
    rw [mul_updateCol, h.factored, get_applyEtas]
  rw [transform_withSpike, Matrix.mul_assoc, hspike]
  ext i j
  rw [Eta.transpose_toMatrix_mul_apply, h.lineMatrix_rows_withSpike]
  by_cases hi : i = p
  · subst hi
    rw [if_pos rfl, if_pos rfl, ← hw]
    by_cases hj : j = i
    · rw [hj, Pi.single_eq_same]
    · rw [hz j hj, Pi.single_eq_of_ne hj]
  · rw [if_neg hi, if_neg hi, add_zero]

theorem represents_withSpike (h : F.Represents B) {p : Fin m} {a w : Vec m}
    {multipliers : SparseVec m} (hne : w.get p ≠ 0) (hm : Eta.Proper ⟨p, multipliers⟩)
    (hz : ∀ j, j ≠ p → w.get j = 0)
    (hw : ∀ j, w.get j = (lineMatrix F.rows).updateCol p (F.applyEtas a).get p j +
      ∑ i, SparseVec.coeff multipliers i *
        (lineMatrix F.rows).updateCol p (F.applyEtas a).get i j) :
    (F.withSpike p (F.applyEtas a) (w.get p) multipliers).Represents (B.updateCol p a.get) where
  toCoherent := h.toCoherent.withSpike p (F.applyEtas a) hne hm
  factored := h.factored_withSpike hz hw

/-- A replacement gives a factorization of the matrix with the new column, or is refused. -/
theorem replaceColumn_cases (h : F.Represents B) (p : Fin m) (a : Vec m) :
    (∃ G, F.replaceColumn p a = .ok G ∧ G.Represents (B.updateCol p a.get)) ∨
      F.replaceColumn p a = .error (.refused (.singularBasis 1)) := by
  obtain ⟨w, multipliers, hm, _, hz, hw, hinsert⟩ := h.insertSpike_cases p (F.applyEtas a)
  rw [Factorization.replaceColumn, hinsert]
  by_cases hne : w.get p = 0
  · exact Or.inr (if_pos hne)
  · exact Or.inl ⟨_, if_neg hne, h.represents_withSpike hne hm hz hw⟩

theorem replaceColumn (h : F.Represents B) {p : Fin m} {a : Vec m} {G : Factorization m}
    (hG : F.replaceColumn p a = .ok G) : G.Represents (B.updateCol p a.get) := by
  rcases h.replaceColumn_cases p a with ⟨G', hG', hr⟩ | he
  · rw [hG'] at hG
    cases hG
    exact hr
  · rw [he] at hG
    cases hG

end Represents

end ExactSimplex.Factorization
