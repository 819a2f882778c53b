import Mathlib.Data.List.Basic
import ExactSimplex.Choice

/-! # Choices and orders are what they say

The chosen element is a member that no other member beats, provided that beating is a strict order.
Sorting permutes a list into an ordered one.
-/
namespace ExactSimplex
variable {α : Type}

theorem firstBest_eq_none_iff {better : α → α → Bool} {l : List α} :
    firstBest better l = none ↔ l = [] := by
  cases l <;> simp [firstBest]

/-- The first best element, found in one loop that starts without one. -/
theorem firstBest_eq_foldl (better : α → α → Bool) (l : List α) :
    firstBest better l = l.foldl (fun best c => if best.all (better c) then some c else best) none := by
  have hfold : ∀ (l : List α) (a : α), some (l.foldl (fun best c => if better c best then c else best) a) =
      l.foldl (fun best c => if best.all (better c) then some c else best) (some a) := by
    intro l
    induction l with
    | nil => exact fun a => rfl
    | cons c l ih =>
      intro a
      rw [List.foldl_cons, List.foldl_cons, ih]
      simp only [Option.all_some]
      split <;> rfl
  cases l with
  | nil => rfl
  | cons a l => exact hfold l a

theorem firstBest_map {β : Type} (better : β → β → Bool) (f : α → β) (l : List α) :
    firstBest better (l.map f) = (firstBest (fun a b => better (f a) (f b)) l).map f := by
  have hfold : ∀ (l : List α) (a : α),
      (l.map f).foldl (fun best c => if better c best then c else best) (f a) =
        f (l.foldl (fun best c => if better (f c) (f best) then c else best) a) := by
    intro l
    induction l with
    | nil => exact fun a => rfl
    | cons c l ih =>
      intro a
      rw [List.map_cons, List.foldl_cons, List.foldl_cons, ← ih]
      split <;> rfl
  cases l with
  | nil => rfl
  | cons a l => exact congrArg some (hfold l a)

theorem foldl_best_mem (better : α → α → Bool) (l : List α) (a : α) :
    l.foldl (fun best c => if better c best then c else best) a ∈ a :: l := by
  induction l generalizing a with
  | nil => exact List.mem_cons_self
  | cons c l ih =>
    rw [List.foldl_cons]
    split
    · exact List.mem_cons_of_mem a (ih c)
    · rcases List.mem_cons.mp (ih a) with h | h
      · rw [h]
        exact List.mem_cons_self
      · exact List.mem_cons_of_mem a (List.mem_cons_of_mem c h)

theorem mem_of_firstBest {better : α → α → Bool} {l : List α} {a : α}
    (h : firstBest better l = some a) : a ∈ l := by
  cases l with
  | nil => simp [firstBest] at h
  | cons c l =>
    have hc := foldl_best_mem better l c
    rw [firstBest, Option.some.injEq] at h
    rwa [h] at hc

section StrictOrder
variable {better : α → α → Bool} (hirrefl : ∀ a, better a a = false)
  (htrans : ∀ a b c, better a b = true → better b c = true → better a c = true)
include htrans

theorem foldl_best_eq_or_better (l : List α) (a : α) :
    l.foldl (fun best c => if better c best then c else best) a = a ∨
      better (l.foldl (fun best c => if better c best then c else best) a) a = true := by
  induction l generalizing a with
  | nil => exact Or.inl rfl
  | cons b l ih =>
    rw [List.foldl_cons]
    split
    · next hb =>
      rcases ih b with h | h
      · rw [h]
        exact Or.inr hb
      · exact Or.inr (htrans _ _ _ h hb)
    · exact ih a

include hirrefl

theorem foldl_best_unbeaten (l : List α) (a : α) :
    ∀ c ∈ a :: l, better c (l.foldl (fun best c => if better c best then c else best) a) = false := by
  induction l generalizing a with
  | nil =>
    intro c hc
    rw [List.mem_singleton.mp hc]
    exact hirrefl a
  | cons b l ih =>
    intro c hc
    rw [List.foldl_cons]
    rcases List.mem_cons.mp hc with rfl | hc
    · split
      · next hb =>
        by_contra h
        have hz := ih b b List.mem_cons_self
        rw [htrans b c _ hb (by simpa using h)] at hz
        cases hz
      · exact ih c c List.mem_cons_self
    · rcases List.mem_cons.mp hc with rfl | hc
      · split
        · exact ih c c List.mem_cons_self
        · next hb =>
          by_contra h
          rcases foldl_best_eq_or_better htrans l a with hz | hz
          · rw [hz] at h
            exact h (by simpa using hb)
          · exact hb (htrans c _ a (by simpa using h) hz)
      · split
        · exact ih b c (List.mem_cons_of_mem b hc)
        · exact ih a c (List.mem_cons_of_mem a hc)

theorem firstBest_unbeaten {l : List α} {a : α} (h : firstBest better l = some a) :
    ∀ c ∈ l, better c a = false := by
  cases l with
  | nil => simp [firstBest] at h
  | cons b l =>
    rw [firstBest, Option.some.injEq] at h
    rw [← h]
    exact foldl_best_unbeaten hirrefl htrans l b

end StrictOrder

theorem insertSorted_perm (le : α → α → Bool) (a : α) (l : List α) :
    (insertSorted le a l).Perm (a :: l) := by
  induction l with
  | nil => exact List.Perm.refl _
  | cons b l ih =>
    rw [insertSorted]
    split
    · exact List.Perm.refl _
    · exact (ih.cons b).trans (List.Perm.swap a b l)

theorem stableSort_perm (le : α → α → Bool) (l : List α) : (stableSort le l).Perm l := by
  induction l with
  | nil => exact List.Perm.refl _
  | cons a l ih => exact (insertSorted_perm le a _).trans (ih.cons a)

section Map
variable {β : Type} {le : α → α → Bool} {le' : β → β → Bool} (f : α → β)

theorem insertSorted_map {a : α} {l : List α} (h : ∀ b ∈ l, le' (f a) (f b) = le a b) :
    insertSorted le' (f a) (l.map f) = (insertSorted le a l).map f := by
  induction l with
  | nil => rfl
  | cons b l ih =>
    rw [List.map_cons, insertSorted, insertSorted, h b List.mem_cons_self,
      ih fun c hc => h c (List.mem_cons_of_mem b hc)]
    split <;> rfl

/-- Sorting compares an element only with those after it. -/
theorem stableSort_map {l : List α} (h : l.Pairwise fun a b => le' (f a) (f b) = le a b) :
    stableSort le' (l.map f) = (stableSort le l).map f := by
  induction l with
  | nil => rfl
  | cons a l ih =>
    obtain ⟨ha, hl⟩ := List.pairwise_cons.mp h
    rw [List.map_cons, stableSort, ih hl, stableSort]
    exact insertSorted_map f fun b hb => ha b ((stableSort_perm le l).subset hb)

end Map

section TotalOrder
variable {le : α → α → Bool} (htotal : ∀ a b, le a b = false → le b a = true)
  (htrans : ∀ a b c, le a b = true → le b c = true → le a c = true)
include htotal htrans

theorem insertSorted_pairwise (a : α) {l : List α} (h : l.Pairwise fun x y => le x y = true) :
    (insertSorted le a l).Pairwise fun x y => le x y = true := by
  induction l with
  | nil => exact List.pairwise_singleton _ a
  | cons b l ih =>
    obtain ⟨hb, hl⟩ := List.pairwise_cons.mp h
    rw [insertSorted]
    split
    · next hab =>
      refine List.pairwise_cons.mpr ⟨fun c hc => ?_, h⟩
      rcases List.mem_cons.mp hc with rfl | hc
      · exact hab
      · exact htrans a b c hab (hb c hc)
    · next hab =>
      refine List.pairwise_cons.mpr ⟨fun c hc => ?_, ih hl⟩
      rcases List.mem_cons.mp ((insertSorted_perm le a l).subset hc) with rfl | hc
      · exact htotal c b (by simpa using hab)
      · exact hb c hc

theorem stableSort_pairwise (l : List α) :
    (stableSort le l).Pairwise fun x y => le x y = true := by
  induction l with
  | nil => exact List.Pairwise.nil
  | cons a l ih => exact insertSorted_pairwise htotal htrans a ih

end TotalOrder

end ExactSimplex
