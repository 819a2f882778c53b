import ExactSimplex.Proofs.Factor.Elimination

/-! # The triangular factor through replacements

Whatever spikes replace whichever columns after a matrix has been factorized, the rows and the columns of the
triangular factor hold the same entries, each line its diagonal entry in front, and what is off the
diagonal is above it in the order, in which every index knows its place.
-/
namespace ExactSimplex.Factorization
variable {m : ℕ} {columns : Vector (SparseVec m) m} {limit : ℕ} {F : Factorization m}

/-- The stored entries are those of one triangular matrix, and all etas are elementary. -/
structure UpperTriangular (F : Factorization m) : Prop where
  order_perm : F.order.Perm (List.finRange m)
  getElem?_position : ∀ i, F.order[F.position.get i]? = some i
  position_of_getElem? : ∀ k i, F.order[k]? = some i → F.position.get i = k
  front : ∀ i, ∃ d, d ≠ 0 ∧ (F.rows.get i).entries.head? = some (i, d) ∧
    (F.columns.get i).entries.head? = some (i, d)
  transposed : ∀ i j v, (i, v) ∈ (F.columns.get j).entries ↔ (j, v) ∈ (F.rows.get i).entries
  row_nodup : ∀ i, (SparseVec.keys (F.rows.get i).entries).Nodup
  column_nodup : ∀ j, (SparseVec.keys (F.columns.get j).entries).Nodup
  row_ne_zero : ∀ i, ∀ e ∈ (F.rows.get i).entries, e.2 ≠ 0
  column_ne_zero : ∀ j, ∀ e ∈ (F.columns.get j).entries, e.2 ≠ 0
  position_lt : ∀ i, ∀ e ∈ (F.rows.get i).entries, e.1 ≠ i → F.position.get i < F.position.get e.1
  factorEtas_proper : ∀ e ∈ F.factorEtas, e.Proper
  updateEtas_proper : ∀ e ∈ F.updateEtas, e.Proper

/-- The factorizations to which a matrix leads when any spikes replace any columns. -/
inductive Reached (columns : Vector (SparseVec m) m) (limit : ℕ) : Factorization m → Prop
  | start {F : Factorization m} {order : Vector (Fin m) m}
      (hF : ofColumns columns limit = .ok (F, order)) : Reached columns limit F
  | step {F G : Factorization m} {p : Fin m} {t : Vec m} (hF : Reached columns limit F)
      (hG : F.insertSpike p (Vec.support t) = .ok G) : Reached columns limit G

namespace Coherent

theorem row_entries (h : F.Coherent) (i : Fin m) :
    (F.rows.get i).entries = (i, (F.rows.get i).diagonal) :: (F.rows.get i).others := by
  rw [TriangularLine.entries, h.row_index]

theorem column_entries (h : F.Coherent) (j : Fin m) :
    (F.columns.get j).entries = (j, (F.rows.get j).diagonal) :: (F.columns.get j).others := by
  rw [TriangularLine.entries, h.column_index, h.columns_diagonal]

/-- On the diagonal an entry is the one in front of its row and of its column. -/
theorem transposed (h : F.Coherent) (i j : Fin m) (v : ℚ) :
    (i, v) ∈ (F.columns.get j).entries ↔ (j, v) ∈ (F.rows.get i).entries := by
  rw [h.row_entries, h.column_entries, List.mem_cons, List.mem_cons, ← h.mirrored i j v]
  refine or_congr_left' fun _ => ?_
  simp only [Prod.mk.injEq]
  constructor
  · rintro ⟨rfl, hv⟩
    exact ⟨rfl, hv⟩
  · rintro ⟨rfl, hv⟩
    exact ⟨rfl, hv⟩

theorem row_entry_ne_zero (h : F.Coherent) (i : Fin m) : ∀ e ∈ (F.rows.get i).entries, e.2 ≠ 0 := by
  intro e he
  rw [h.row_entries] at he
  rcases List.mem_cons.mp he with rfl | he
  · exact h.diagonal_ne_zero i
  · exact h.rows_ne_zero i e he

theorem upperTriangular (h : F.Coherent) : F.UpperTriangular where
  order_perm := h.order_perm
  getElem?_position i := by rw [h.position_eq, List.getElem?_idxOf (h.mem_order i)]
  position_of_getElem? k i hk := by
    obtain ⟨hlt, rfl⟩ := List.getElem?_eq_some_iff.mp hk
    rw [h.position_eq, h.order_nodup.idxOf_getElem k hlt]
  front i := by
    rw [h.row_entries, h.column_entries]
    exact ⟨_, h.diagonal_ne_zero i, rfl, rfl⟩
  transposed := h.transposed
  row_nodup i := by
    rw [h.row_entries, SparseVec.keys_cons]
    exact List.nodup_cons.mpr ⟨h.not_mem_row i, h.rows_nodup i⟩
  column_nodup j := by
    rw [h.column_entries, SparseVec.keys_cons]
    exact List.nodup_cons.mpr ⟨h.not_mem_column j, h.columns_nodup j⟩
  row_ne_zero := h.row_entry_ne_zero
  column_ne_zero j e he := h.row_entry_ne_zero e.1 (j, e.2) ((h.transposed e.1 j e.2).mp he)
  position_lt i e he hne := by
    rw [h.row_entries] at he
    rcases List.mem_cons.mp he with rfl | he
    · exact absurd rfl hne
    · rw [h.position_eq, h.position_eq]
      exact idxOf_lt_of_before h.order_nodup (h.rows_before i e.1 (List.mem_map_of_mem he))
  factorEtas_proper := h.factorEtas_proper
  updateEtas_proper := h.updateEtas_proper

end Coherent

theorem Reached.coherent (h : Reached columns limit F)
    (hc : ∀ j, ∀ e ∈ columns.get j, e.2 ≠ 0) : F.Coherent := by
  induction h with
  | start hF => exact (represents_of_ofColumns hc hF).2.toCoherent
  | step _ hG ih => exact ih.insertSpike hG

/-- Through any run of replacements the factor is stored as one triangular matrix, by rows and by columns. -/
theorem Reached.stored_as_upperTriangular (h : Reached columns limit F)
    (hc : ∀ j, ∀ e ∈ columns.get j, e.2 ≠ 0) : F.UpperTriangular :=
  (h.coherent hc).upperTriangular

/-- Of a triangular matrix the column in the middle is replaced, where another entry comes to the place of the
one that is taken out, and then the first one, which moves its row and column from the front to the end. -/
theorem Reached.stored_as_upperTriangular_of_three :
    ∃ (F G H : Factorization 3) (order : Vector (Fin 3) 3),
      ofColumns #v[[(0, 1)], [(0, 2), (1, 1)], [(0, 3), (1, 4), (2, 1)]] 4 = .ok (F, order) ∧
      F.insertSpike 1 (Vec.support #v[1, 1, 1]) = .ok G ∧
      (F.rows.get 0).entries = [(0, 1), (1, 2), (2, 3)] ∧
      (G.rows.get 0).entries = [(0, 1), (2, 3), (1, 1)] ∧
      G.insertSpike 0 (Vec.support #v[1, -2, 1]) = .ok H ∧ H.order = [2, 1, 0] ∧ H.UpperTriangular := by
  have hrun : (match ofColumns (m := 3)
        #v[[(0, 1)], [(0, 2), (1, 1)], [(0, 3), (1, 4), (2, 1)]] 4 with
      | .ok (F, _) =>
        match F.insertSpike 1 (Vec.support #v[1, 1, 1]) with
        | .ok G =>
          match G.insertSpike 0 (Vec.support #v[1, -2, 1]) with
          | .ok H => decide ((F.rows.get 0).entries = [(0, 1), (1, 2), (2, 3)] ∧
              (G.rows.get 0).entries = [(0, 1), (2, 3), (1, 1)] ∧ H.order = [2, 1, 0])
          | .error _ => false
        | .error _ => false
      | .error _ => false) = true := by decide +kernel
  split at hrun
  · next F order hF =>
    split at hrun
    · next G hG =>
      split at hrun
      · next H hH =>
        obtain ⟨hfirst, hsecond, horder⟩ := of_decide_eq_true hrun
        have hreached := Reached.step (.step (.start hF) hG) hH
        exact ⟨F, G, H, order, hF, hG, hfirst, hsecond, hH, horder,
          hreached.stored_as_upperTriangular (by decide)⟩
      · cases hrun
    · cases hrun
  · cases hrun

end ExactSimplex.Factorization
