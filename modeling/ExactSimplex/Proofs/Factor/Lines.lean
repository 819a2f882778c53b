import Mathlib.Data.List.Perm.Basic
import ExactSimplex.Factor.Update
import ExactSimplex.Proofs.Vectors

/-! # Lines whose entries come and go

The entries of a line are in no particular order: taking one out moves another one to its place. So lines
are compared as permutations of each other, which sums and sets of entries do not see. The places of indices
in an order are numbered anew from the place on where it changes.
-/
namespace ExactSimplex
variable {m : ℕ}

theorem swapRemove_perm {α : Type} (l : List α) {k : ℕ} (hk : k < l.length) :
    (swapRemove l k).Perm (l.eraseIdx k) := by
  rw [swapRemove]
  cases h : l.getLast? with
  | none =>
    rw [List.getLast?_eq_none_iff.mp h] at hk
    exact absurd hk (Nat.not_lt_zero k)
  | some last =>
    change ((l.set k last).dropLast).Perm _
    obtain ⟨front, rfl⟩ := List.getLast?_eq_some_iff.mp h
    by_cases hkf : k < front.length
    · rw [List.set_append, if_pos hkf, List.dropLast_concat, List.eraseIdx_append, if_pos hkf,
        List.set_eq_take_append_cons_drop, if_pos hkf, List.eraseIdx_eq_take_drop_succ]
      exact List.perm_middle.trans (List.perm_append_singleton last _).symm
    · rw [List.length_append, List.length_singleton] at hk
      obtain rfl : k = front.length := by omega
      rw [List.set_append, if_neg hkf, List.eraseIdx_append, if_neg hkf, Nat.sub_self,
        List.set_cons_zero, List.dropLast_concat, List.eraseIdx_cons_zero, List.append_nil]

namespace SparseVec

theorem coeff_perm {s t : SparseVec m} (h : s.Perm t) (i : Fin m) : coeff s i = coeff t i :=
  (h.map _).sum_eq

theorem keys_perm {s t : SparseVec m} (h : s.Perm t) : (keys s).Perm (keys t) := h.map _

theorem without_eq_self {s : SparseVec m} {i : Fin m} (h : i ∉ keys s) : without s i = s :=
  List.filter_eq_self.mpr fun e he =>
    decide_eq_true fun hei => h (List.mem_map.mpr ⟨e, he, hei⟩)

theorem mem_without {s : SparseVec m} {i : Fin m} {e : Fin m × ℚ} :
    e ∈ without s i ↔ e ∈ s ∧ e.1 ≠ i := by
  simp [without]

theorem eraseP_eq_without {s : SparseVec m} (hs : (keys s).Nodup) (i : Fin m) :
    s.eraseP (fun e => e.1 = i) = without s i := by
  induction s with
  | nil => rfl
  | cons e s ih =>
    rw [keys_cons, List.nodup_cons] at hs
    by_cases he : e.1 = i
    · rw [List.eraseP_cons_of_pos (by simpa using he), without,
        List.filter_cons_of_neg (by simpa using he)]
      exact (without_eq_self (he ▸ hs.1)).symm
    · rw [List.eraseP_cons_of_neg (by simpa using he), ih hs.2, without, without,
        List.filter_cons_of_pos (by simpa using he)]

theorem removeEntry_perm {s : SparseVec m} (hs : (keys s).Nodup) (i : Fin m) :
    (removeEntry s i).Perm (without s i) := by
  rw [← eraseP_eq_without hs, List.eraseP_eq_eraseIdx, removeEntry]
  cases h : s.findIdx? fun e => e.1 = i with
  | none => exact List.Perm.refl s
  | some k => exact swapRemove_perm s (List.findIdx?_eq_some_iff_getElem.mp h).1

end SparseVec

namespace Factorization
variable {lines : Vector (TriangularLine m) m} {p : Fin m}

theorem get_removeFrom {places : SparseVec m} (hn : (SparseVec.keys places).Nodup) (i : Fin m) :
    (removeFrom lines places p).get i =
      if i ∈ SparseVec.keys places then (lines.get i).remove p else lines.get i := by
  unfold removeFrom
  induction places generalizing lines with
  | nil => simp
  | cons e places ih =>
    rw [SparseVec.keys_cons, List.nodup_cons] at hn
    rw [List.foldl_cons, ih hn.2, get_put, SparseVec.keys_cons]
    by_cases hi : e.1 = i
    · subst hi
      rw [if_neg hn.1, if_pos rfl, if_pos List.mem_cons_self]
    · simp [hi, Ne.symm hi]

theorem get_insertInto (lines : Vector (TriangularLine m) m) (values : SparseVec m) (p i : Fin m) :
    (insertInto lines values p).get i =
      { lines.get i with
        others := (lines.get i).others ++ (values.filter fun e => e.1 = i).map fun e => (p, e.2) } := by
  unfold insertInto
  induction values generalizing lines with
  | nil => simp
  | cons e values ih =>
    rw [List.foldl_cons, ih, get_put]
    by_cases hi : e.1 = i
    · subst hi
      simp [TriangularLine.push]
    · simp [hi]

/-- If every line with an entry at `p` is listed, its entry is taken out. -/
theorem removeFrom_perm {places : SparseVec m} (hn : (SparseVec.keys places).Nodup)
    (hl : ∀ i, (SparseVec.keys (lines.get i).others).Nodup)
    (hp : ∀ i, p ∈ SparseVec.keys (lines.get i).others → i ∈ SparseVec.keys places) (i : Fin m) :
    ((removeFrom lines places p).get i).others.Perm (SparseVec.without (lines.get i).others p) := by
  rw [get_removeFrom hn]
  split
  · exact SparseVec.removeEntry_perm (hl i) p
  · next hi => rw [SparseVec.without_eq_self (mt (hp i) hi)]

theorem index_removeFrom {places : SparseVec m} (hn : (SparseVec.keys places).Nodup) (i : Fin m) :
    ((removeFrom lines places p).get i).index = (lines.get i).index := by
  rw [get_removeFrom hn]
  split <;> rfl

theorem diagonal_removeFrom {places : SparseVec m} (hn : (SparseVec.keys places).Nodup) (i : Fin m) :
    ((removeFrom lines places p).get i).diagonal = (lines.get i).diagonal := by
  rw [get_removeFrom hn]
  split <;> rfl

section Numbering
variable {order : List (Fin m)}

theorem get_foldl_zipIdx (hn : order.Nodup) (start : ℕ) (position : Vector ℕ m) (i : Fin m) :
    ((order.zipIdx start).foldl (fun position e => put position e.1 e.2) position).get i =
      if i ∈ order then start + order.idxOf i else position.get i := by
  induction order generalizing start position with
  | nil => simp
  | cons a order ih =>
    obtain ⟨ha, hn⟩ := List.nodup_cons.mp hn
    rw [List.zipIdx_cons, List.foldl_cons, ih hn, get_put]
    by_cases hi : a = i
    · subst hi
      rw [if_neg ha, if_pos rfl, if_pos List.mem_cons_self, List.idxOf_cons_self, Nat.add_zero]
    · rw [List.idxOf_cons_ne _ hi, if_neg hi]
      simp only [List.mem_cons, Ne.symm hi, false_or]
      split <;> omega

/-- Numbering from a place on is enough where the numbers before it are right. -/
theorem get_numberFrom (hn : order.Nodup) {start : ℕ} {position : Vector ℕ m}
    (hp : ∀ i ∈ order.take start, position.get i = order.idxOf i) {i : Fin m} (hi : i ∈ order) :
    (numberFrom start order position).get i = order.idxOf i := by
  rw [numberFrom, get_foldl_zipIdx (hn.sublist (List.drop_sublist start order))]
  split
  · next hd =>
    have hlt : start < order.length := by
      by_contra hle
      rw [List.drop_of_length_le (not_lt.mp hle)] at hd
      exact absurd hd List.not_mem_nil
    have ht : i ∉ order.take start := fun ht => List.disjoint_take_drop hn le_rfl ht hd
    have hidx : (order.take start ++ order.drop start).idxOf i =
        (order.take start).length + (order.drop start).idxOf i := List.idxOf_append_of_notMem ht
    rw [List.take_append_drop, List.length_take, min_eq_left hlt.le] at hidx
    exact hidx.symm
  · next hd =>
    rw [← List.take_append_drop start order, List.mem_append] at hi
    exact hp i (hi.resolve_right hd)

end Numbering

end Factorization

/-- What comes before something else has the lower place. -/
theorem idxOf_lt_of_before {i j : Fin m} {order : List (Fin m)} (hn : order.Nodup)
    (h : [i, j].Sublist order) : order.idxOf i < order.idxOf j := by
  induction order with
  | nil => cases h
  | cons a order ih =>
    obtain ⟨ha, hn⟩ := List.nodup_cons.mp hn
    rcases List.sublist_cons_iff.mp h with h | ⟨r, hr, hs⟩
    · have hi : a ≠ i := fun hai => ha (hai ▸ h.subset (by simp))
      have hj : a ≠ j := fun haj => ha (haj ▸ h.subset (by simp))
      rw [List.idxOf_cons_ne _ hi, List.idxOf_cons_ne _ hj]
      exact Nat.succ_lt_succ (ih hn h)
    · simp only [List.cons.injEq] at hr
      obtain ⟨rfl, rfl⟩ := hr
      have hj : i ≠ j := fun hij => ha (hij ▸ hs.subset List.mem_cons_self)
      rw [List.idxOf_cons_self, List.idxOf_cons_ne _ hj]
      exact Nat.succ_pos _

end ExactSimplex
