import Mathlib.Algebra.BigOperators.Fin
import Mathlib.Algebra.Order.BigOperators.Ring.Finset
import Mathlib.Algebra.Order.Field.Rat
import Mathlib.Data.List.FinRange
import Mathlib.Tactic.Linarith
import Mathlib.Tactic.Ring
import ExactSimplex.Vec

/-! # Vectors as functions of their index

A sparse vector stands for the function that adds up its entries at an index. All loops over sparse
and dense vectors are read through that function: adding a multiple, the inner product, overwriting
a dense vector, and the nonzero entries of a dense vector.
-/
namespace ExactSimplex
variable {α β : Type} {m : ℕ}

theorem get_eq_getElem (v : Vector α m) (i : Fin m) : v.get i = v[i.val] := rfl

@[simp] theorem get_ofFn (f : Fin m → α) (i : Fin m) : (Vector.ofFn f).get i = f i := by
  rw [get_eq_getElem, Vector.getElem_ofFn]

@[simp] theorem get_map (f : α → β) (v : Vector α m) (i : Fin m) : (v.map f).get i = f (v.get i) := by
  rw [get_eq_getElem, Vector.getElem_map, get_eq_getElem]

@[simp] theorem get_replicate (a : α) (i : Fin m) : (Vector.replicate m a).get i = a := by
  rw [get_eq_getElem, Vector.getElem_replicate]

theorem table_ext {v w : Vector α m} (h : ∀ i, v.get i = w.get i) : v = w := by
  apply Vector.ext
  intro i hi
  exact h ⟨i, hi⟩

theorem toList_eq_map_get (v : Vector α m) : v.toList = (List.finRange m).map v.get := by
  apply List.ext_getElem
  · simp
  · intro i h₁ h₂
    simp [get_eq_getElem]

theorem zipWith_toList {β γ : Type} (f : α → β → γ) (v : Vector α m) (w : Vector β m) :
    List.zipWith f v.toList w.toList = (List.finRange m).map fun i => f (v.get i) (w.get i) := by
  rw [toList_eq_map_get v, toList_eq_map_get w, List.zipWith_map, List.zipWith_self]

theorem countP_eq_finRange (f : α → Bool) (v : Vector α m) :
    v.countP f = (List.finRange m).countP fun i => f (v.get i) := by
  rw [← Vector.countP_toList, toList_eq_map_get, List.countP_map]
  rfl

theorem card_filter_eq_countP (P : Fin m → Prop) [DecidablePred P] :
    (Finset.univ.filter P).card = (List.finRange m).countP P := by
  rw [Finset.card_def, Finset.filter_val, ← Multiset.countP_eq_card_filter]
  rfl

theorem foldl_eq_finRange (f : β → α → β) (b : β) (v : Vector α m) :
    v.foldl f b = (List.finRange m).foldl (fun b i => f b (v.get i)) b := by
  rw [← Vector.foldl_toList, toList_eq_map_get, List.foldl_map]

theorem foldl_add_eq_sum (g : α → ℚ) (l : List α) (a : ℚ) :
    l.foldl (fun total e => total + g e) a = a + (l.map g).sum := by
  induction l generalizing a with
  | nil => simp
  | cons e l ih => rw [List.foldl_cons, ih, List.map_cons, List.sum_cons, add_assoc]

theorem foldl_finRange_add (g : Fin m → ℚ) (a : ℚ) :
    (List.finRange m).foldl (fun total i => total + g i) a = a + ∑ i, g i := by
  rw [foldl_add_eq_sum, Fin.sum_univ_def]

/-- A function that vanishes outside of one index sums to its value there. -/
theorem sum_ite_index (i : Fin m) (f : Fin m → ℚ) : (∑ j, if i = j then f j else 0) = f i := by
  rw [Finset.sum_ite_eq Finset.univ i f, if_pos (Finset.mem_univ i)]

namespace SparseVec

/-- The sum of the entries at an index. -/
def coeff (s : SparseVec m) (i : Fin m) : ℚ := (s.map fun e => if e.1 = i then e.2 else 0).sum

def keys (s : SparseVec m) : List (Fin m) := s.map Prod.fst

@[simp] theorem keys_nil : keys ([] : SparseVec m) = [] := rfl

@[simp] theorem keys_cons (e : Fin m × ℚ) (s : SparseVec m) : keys (e :: s) = e.1 :: keys s := rfl

@[simp] theorem coeff_nil (i : Fin m) : coeff ([] : SparseVec m) i = 0 := rfl

@[simp] theorem coeff_cons (e : Fin m × ℚ) (s : SparseVec m) (i : Fin m) :
    coeff (e :: s) i = (if e.1 = i then e.2 else 0) + coeff s i := by
  simp [coeff]

@[simp] theorem coeff_append (s t : SparseVec m) (i : Fin m) :
    coeff (s ++ t) i = coeff s i + coeff t i := by
  simp [coeff]

theorem coeff_eq_zero {s : SparseVec m} {i : Fin m} (h : i ∉ keys s) : coeff s i = 0 := by
  induction s with
  | nil => rfl
  | cons e s ih =>
    simp only [keys_cons, List.mem_cons, not_or] at h
    rw [coeff_cons, if_neg (Ne.symm h.1), ih h.2, add_zero]

theorem coeff_of_mem {s : SparseVec m} (hs : (keys s).Nodup) {e : Fin m × ℚ} (he : e ∈ s) :
    coeff s e.1 = e.2 := by
  induction s with
  | nil => simp at he
  | cons a s ih =>
    rw [keys_cons, List.nodup_cons] at hs
    rcases List.mem_cons.mp he with rfl | he
    · rw [coeff_cons, if_pos rfl, coeff_eq_zero hs.1, add_zero]
    · have hne : a.1 ≠ e.1 := by
        rintro heq
        exact hs.1 (heq ▸ List.mem_map_of_mem he)
      rw [coeff_cons, if_neg hne, ih hs.2 he, zero_add]

@[simp] theorem get_addTo (s : SparseVec m) (factor : ℚ) (w : Vec m) (i : Fin m) :
    (addTo s factor w).get i = w.get i + coeff s i * factor := by
  unfold addTo
  induction s generalizing w with
  | nil => simp
  | cons e s ih =>
    rw [List.foldl_cons, ih, Vec.get_addAt, coeff_cons]
    split <;> ring

theorem dot_eq_sum (s : SparseVec m) (w : Vec m) : dot s w = ∑ i, coeff s i * w.get i := by
  unfold dot
  rw [foldl_add_eq_sum, zero_add]
  induction s with
  | nil => simp
  | cons e s ih =>
    have he : (∑ i, (if e.1 = i then e.2 else 0) * w.get i) = e.2 * w.get e.1 := by
      rw [← sum_ite_index e.1 fun i => e.2 * w.get i]
      exact Finset.sum_congr rfl fun i _ => by split <;> ring
    simp only [List.map_cons, List.sum_cons, ih, coeff_cons, add_mul, Finset.sum_add_distrib, he]

theorem get_writeTo_of_notMem {s : SparseVec m} {i : Fin m} (h : i ∉ keys s) (w : Vec m) :
    (writeTo s w).get i = w.get i := by
  unfold writeTo
  induction s generalizing w with
  | nil => rfl
  | cons e s ih =>
    simp only [keys_cons, List.mem_cons, not_or] at h
    rw [List.foldl_cons, ih h.2, get_put, if_neg (Ne.symm h.1)]

/-- Without repeated indices overwriting zeros is the same as adding. -/
theorem get_writeTo_zero {s : SparseVec m} (hs : (keys s).Nodup) (i : Fin m) :
    (writeTo s (Vec.zero m)).get i = coeff s i := by
  suffices h : ∀ w : Vec m, w.get i = 0 → (writeTo s w).get i = coeff s i from h _ (Vec.get_zero i)
  induction s with
  | nil => exact fun w hw => hw
  | cons e s ih =>
    intro w hw
    rw [keys_cons, List.nodup_cons] at hs
    have hstep : writeTo (e :: s) w = writeTo s (put w e.1 e.2) := rfl
    rw [hstep, coeff_cons]
    by_cases hi : e.1 = i
    · subst hi
      rw [get_writeTo_of_notMem hs.1, get_put, if_pos rfl, if_pos rfl, coeff_eq_zero hs.1, add_zero]
    · rw [ih hs.2 _ (by rw [get_put, if_neg hi, hw]), if_neg hi, zero_add]

theorem coeff_filter (p : Fin m → Bool) (s : SparseVec m) (i : Fin m) :
    coeff (s.filter fun e => p e.1) i = if p i then coeff s i else 0 := by
  induction s with
  | nil => simp
  | cons e s ih =>
    by_cases he : p e.1
    · rw [List.filter_cons, if_pos he, coeff_cons, coeff_cons, ih]
      by_cases hi : e.1 = i
      · subst hi
        rw [if_pos rfl, if_pos he, if_pos he]
      · rw [if_neg hi, zero_add, zero_add]
    · rw [List.filter_cons, if_neg he, ih, coeff_cons]
      by_cases hi : e.1 = i
      · subst hi
        rw [if_neg he, if_neg he]
      · rw [if_neg hi, zero_add]

theorem coeff_moved {n : ℕ} (s : SparseVec n) (j : Fin n) (k i : Fin m) :
    coeff ((s.filter fun e => e.1 = j).map fun e => (k, e.2)) i = if k = i then coeff s j else 0 := by
  induction s with
  | nil => simp
  | cons e s ih =>
    rw [List.filter_cons, coeff_cons]
    by_cases he : e.1 = j
    · rw [if_pos (by simpa using he), List.map_cons, coeff_cons, ih, if_pos he]
      split <;> simp
    · rw [if_neg (by simpa using he), ih, if_neg he, zero_add]

theorem coeff_flatMap (f : α → SparseVec m) (l : List α) (i : Fin m) :
    coeff (l.flatMap f) i = (l.map fun a => coeff (f a) i).sum := by
  induction l with
  | nil => rfl
  | cons a l ih => rw [List.flatMap_cons, coeff_append, ih, List.map_cons, List.sum_cons]

theorem coeff_column {n : ℕ} (r : Fin m → SparseVec n) (j : Fin n) (i : Fin m) :
    coeff ((List.finRange m).flatMap fun i => ((r i).filter fun e => e.1 = j).map fun e => (i, e.2)) i =
      coeff (r i) j := by
  rw [coeff_flatMap]
  simp only [coeff_moved]
  rw [← Fin.sum_univ_def, Finset.sum_ite_eq' Finset.univ i, if_pos (Finset.mem_univ i)]

theorem coeff_renamed {n : ℕ} (f : Fin n → Fin m) (s : SparseVec n) {i : Fin m} {k : Fin n}
    (h : ∀ j, f j = i ↔ j = k) : coeff (s.map fun e => (f e.1, e.2)) i = coeff s k := by
  induction s with
  | nil => rfl
  | cons e s ih => simp only [List.map_cons, coeff_cons, ih, h]

@[simp] theorem coeff_without (s : SparseVec m) (i j : Fin m) :
    coeff (without s i) j = if j = i then 0 else coeff s j := by
  have h := coeff_filter (fun k => decide (k ≠ i)) s j
  unfold without
  rw [h]
  by_cases hj : j = i <;> simp [hj]

theorem mem_keys {s : SparseVec m} {i : Fin m} : i ∈ keys s ↔ ∃ v, (i, v) ∈ s := by
  simp [keys]

theorem mem_keys_without {s : SparseVec m} {i j : Fin m} :
    j ∈ keys (without s i) ↔ j ∈ keys s ∧ j ≠ i := by
  simp [keys, without]

theorem keys_append (s t : SparseVec m) : keys (s ++ t) = keys s ++ keys t := List.map_append

theorem keys_filter_nodup {s : SparseVec m} (hs : (keys s).Nodup) (p : Fin m × ℚ → Bool) :
    (keys (s.filter p)).Nodup :=
  hs.sublist (List.filter_sublist.map Prod.fst)

/-- In a vector without repeated indices there is at most one entry with a given index. -/
theorem keys_moved_nodup {n : ℕ} {s : SparseVec n} (hs : (keys s).Nodup) (j : Fin n) (i : Fin m) :
    (keys ((s.filter fun e => e.1 = j).map fun e => (i, e.2))).Nodup := by
  have hj : ∀ k ∈ keys (s.filter fun e => e.1 = j), k = j := by
    intro k hk
    obtain ⟨e, he, rfl⟩ := List.mem_map.mp hk
    simpa using (List.mem_filter.mp he).2
  have hn := keys_filter_nodup hs fun e => decide (e.1 = j)
  rw [List.eq_replicate_of_mem hj, keys, List.length_map] at hn
  have hi : keys ((s.filter fun e => e.1 = j).map fun e => (i, e.2)) =
      List.replicate (s.filter fun e => e.1 = j).length i := by
    rw [keys, List.map_map]
    exact List.map_const' ..
  rw [hi]
  exact List.nodup_replicate.mpr (List.nodup_replicate.mp hn)

theorem keys_column_nodup {n : ℕ} {r : Fin m → SparseVec n} (h : ∀ i, (keys (r i)).Nodup) (j : Fin n) :
    (keys ((List.finRange m).flatMap fun i =>
      ((r i).filter fun e => e.1 = j).map fun e => (i, e.2))).Nodup := by
  rw [keys, List.map_flatMap]
  refine List.nodup_flatMap.mpr ⟨fun i _ => keys_moved_nodup (h i) j i, ?_⟩
  refine (List.nodup_finRange m).imp fun {i k} hik a ha hk => hik ?_
  simp only [List.map_map, List.mem_map, Function.comp_apply] at ha hk
  obtain ⟨_, _, rfl⟩ := ha
  obtain ⟨_, _, hk⟩ := hk
  exact hk.symm

end SparseVec

namespace Vec

theorem keys_support_nodup (w : Vec m) : (SparseVec.keys (support w)).Nodup := by
  apply SparseVec.keys_filter_nodup
  have h : SparseVec.keys ((List.finRange m).map fun i => (i, w.get i)) = List.finRange m := by
    simp [SparseVec.keys, Function.comp_def]
  rw [h]
  exact List.nodup_finRange m

theorem mem_support {w : Vec m} {e : Fin m × ℚ} :
    e ∈ support w ↔ e.2 = w.get e.1 ∧ w.get e.1 ≠ 0 := by
  obtain ⟨i, v⟩ := e
  simp only [support, List.mem_filter, List.mem_map, List.mem_finRange, true_and, Prod.mk.injEq,
    decide_eq_true_eq]
  constructor
  · rintro ⟨⟨j, rfl, rfl⟩, hv⟩
    exact ⟨rfl, hv⟩
  · rintro ⟨rfl, hv⟩
    exact ⟨⟨i, rfl, rfl⟩, hv⟩

@[simp] theorem coeff_support (w : Vec m) (i : Fin m) : SparseVec.coeff (support w) i = w.get i := by
  by_cases h : w.get i = 0
  · rw [h]
    apply SparseVec.coeff_eq_zero
    intro hi
    obtain ⟨v, hv⟩ := SparseVec.mem_keys.mp hi
    exact (mem_support.mp hv).2 h
  · exact SparseVec.coeff_of_mem (keys_support_nodup w) (mem_support.mpr ⟨rfl, h⟩ : (i, w.get i) ∈ _)

theorem normSq_eq_sum (w : Vec m) : normSq w = ∑ i, w.get i * w.get i := by
  unfold normSq
  rw [foldl_eq_finRange, foldl_finRange_add, zero_add]

end Vec

end ExactSimplex
