import Mathlib.Data.Finset.Card
import ExactSimplex.Proofs.Factor.CountGroups

/-! # Groups are walked in the order of arrival

What a group holds follows from the counts at first and from the changes since then: the count that an index
has, and the change with which it came to have it. The rings keep every group sorted by that change, indices
that never moved coming first in their own order. So a walk comes to exactly the indices of its group in
the order in which they arrived there, and ends.
-/
namespace ExactSimplex
variable {size bound : ℕ}

inductive GroupChange (size bound : ℕ) where
  | remove (i : Fin size)
  | update (i : Fin size) (c : Fin (bound + 1))
  deriving DecidableEq

/-- No index is updated after it has been removed. -/
def GroupChange.Orderly (changes : List (GroupChange size bound)) : Prop :=
  changes.Pairwise fun earlier later => ∀ i c, earlier = .remove i → later ≠ .update i c

instance (changes : List (GroupChange size bound)) : Decidable (GroupChange.Orderly changes) :=
  inferInstanceAs (Decidable (changes.Pairwise _))

/-- The count of each present index, and the number of the change with which the index came to have it,
zero if it had it at first. -/
structure Standing (size bound : ℕ) where
  count : Fin size → Option (Fin (bound + 1))
  since : Fin size → ℕ

namespace Standing

def initial (counts : Vector (Fin (bound + 1)) size) : Standing size bound :=
  ⟨fun i => some (counts.get i), fun _ => 0⟩

def change (s : Standing size bound) (number : ℕ) : GroupChange size bound → Standing size bound
  | .remove i => { s with count := Function.update s.count i none }
  | .update i c =>
    if s.count i = some c then s
    else ⟨Function.update s.count i (some c), Function.update s.since i number⟩

/-- The standing after some changes, which are numbered from one on. -/
def after (counts : Vector (Fin (bound + 1)) size) (changes : List (GroupChange size bound)) :
    Standing size bound :=
  (changes.zipIdx 1).foldl (fun s e => s.change e.2 e.1) (initial counts)

/-- The first index arrived earlier, or both have always been there and it is the smaller one. -/
def Precedes (s : Standing size bound) (i j : Fin size) : Prop :=
  s.since i < s.since j ∨ s.since i = s.since j ∧ i < j

end Standing

namespace CountGroups
variable {g : CountGroups size bound} {s : Standing size bound}

def change (g : CountGroups size bound) : GroupChange size bound → CountGroups size bound
  | .remove i => g.remove i
  | .update i c => g.update i c

def after (g : CountGroups size bound) (changes : List (GroupChange size bound)) :
    CountGroups size bound :=
  changes.foldl change g

/-- The rings stand as they should before the change with the given number. -/
structure Ordered (g : CountGroups size bound) (s : Standing size bound) (number : ℕ) : Prop where
  count_eq : ∀ i, g.count.get i = s.count i
  since_lt : ∀ i, s.since i < number
  threads : ∃ lists, g.Threads lists ∧ ∀ c, (lists c).Pairwise s.Precedes

theorem ordered_ofCounts (counts : Vector (Fin (bound + 1)) size) :
    (ofCounts counts).Ordered (Standing.initial counts) 1 where
  count_eq i := count_ofCounts counts i
  since_lt _ := Nat.one_pos
  threads := ⟨_, threads_ofCounts counts, fun _ =>
    ((List.pairwise_lt_finRange size).imp fun hij => Or.inr ⟨rfl, hij⟩).filter _⟩

namespace Ordered
variable {number : ℕ}

theorem remove (h : g.Ordered s number) (i : Fin size) :
    (g.remove i).Ordered (s.change number (.remove i)) (number + 1) where
  count_eq j := by
    simp only [Standing.change, count_remove, h.count_eq, Function.update_apply, eq_comm]
  since_lt j := Nat.lt_succ_of_lt (h.since_lt j)
  threads := by
    obtain ⟨lists, hg, hsorted⟩ := h.threads
    exact ⟨_, hg.remove i, fun c => (hsorted c).sublist List.erase_sublist⟩

/-- An index that moves becomes the latest one of its new group. -/
theorem move (h : g.Ordered s number) {i : Fin size} {c : Fin (bound + 1)} (hc : s.count i ≠ some c) :
    (g.update i c).Ordered (s.change number (.update i c)) (number + 1) := by
  rw [Standing.change, if_neg hc]
  constructor
  case count_eq =>
    intro j
    simp only [count_update, h.count_eq, Function.update_apply, eq_comm]
  case since_lt =>
    intro j
    have hj := h.since_lt j
    simp only [Function.update_apply]
    split <;> omega
  case threads =>
    obtain ⟨lists, hg, hsorted⟩ := h.threads
    refine ⟨_, hg.update (by rwa [h.count_eq]), fun d => ?_⟩
    have hne : ∀ j ∈ (lists d).erase i, j ≠ i := fun j hj => ((hg.nodup d).mem_erase_iff.mp hj).1
    have hrest : ((lists d).erase i).Pairwise (Standing.Precedes
        ⟨Function.update s.count i (some c), Function.update s.since i number⟩) := by
      refine ((hsorted d).sublist List.erase_sublist).imp_of_mem fun {j k} hj hk hjk => ?_
      simpa only [Standing.Precedes, Function.update_of_ne (hne j hj),
        Function.update_of_ne (hne k hk)] using hjk
    split
    · refine List.pairwise_append.mpr ⟨hrest, List.pairwise_singleton _ i, fun j hj k hk => ?_⟩
      rw [List.mem_singleton.mp hk]
      apply Or.inl
      simpa only [Function.update_of_ne (hne j hj), Function.update_self] using h.since_lt j
    · exact hrest

theorem change (h : g.Ordered s number) (e : GroupChange size bound) :
    (g.change e).Ordered (s.change number e) (number + 1) := by
  cases e with
  | remove i => exact h.remove i
  | update i c =>
    by_cases hc : s.count i = some c
    · rw [CountGroups.change, CountGroups.update, h.count_eq, if_pos hc, Standing.change, if_pos hc]
      exact ⟨h.count_eq, fun j => Nat.lt_succ_of_lt (h.since_lt j), h.threads⟩
    · exact h.move hc

theorem after (h : g.Ordered s number) (changes : List (GroupChange size bound)) :
    (g.after changes).Ordered ((changes.zipIdx number).foldl (fun s e => s.change e.2 e.1) s)
      (number + changes.length) := by
  induction changes generalizing g s number with
  | nil => exact h
  | cons e changes ih =>
    rw [List.length_cons, Nat.add_comm changes.length, ← Nat.add_assoc]
    exact ih (h.change e)

end Ordered

/-- If only present indices are updated, those are present in the end that no change has removed. -/
theorem contains_after {changes : List (GroupChange size bound)} (h : GroupChange.Orderly changes)
    (hg : ∀ i c, .update i c ∈ changes → g.contains i = true) (i : Fin size) :
    (g.after changes).contains i = true ↔ g.contains i = true ∧ .remove i ∉ changes := by
  induction changes generalizing g with
  | nil => simp [after]
  | cons e changes ih =>
    obtain ⟨he, h⟩ := List.pairwise_cons.mp h
    have hnext : ∀ j c, .update j c ∈ changes → (g.change e).contains j = true := by
      intro j c hj
      have hgj := hg j c (List.mem_cons_of_mem e hj)
      cases e with
      | remove k =>
        have hkj : k ≠ j := fun hkj => he _ hj k c rfl (hkj ▸ rfl)
        rw [change, contains_remove, if_neg hkj, hgj]
      | update k d =>
        rw [change, contains_update, hgj]
        split <;> rfl
    have hstep : (g.after (e :: changes)).contains i = true ↔
        (g.change e).contains i = true ∧ .remove i ∉ changes := ih h hnext
    rw [hstep]
    cases e with
    | remove k =>
      rw [change, contains_remove]
      by_cases hki : k = i
      · simp [hki]
      · simp [hki, Ne.symm hki]
    | update k c =>
      rw [change, contains_update]
      by_cases hki : k = i
      · simp [hki, hg i c (by simp [hki])]
      · simp [hki]

/-- After any changes to groups every walk along a group ends, having come to the present indices with
its count, to each of them once and in the order of their arrival there, and the length is the number
of indices that have never been removed. -/
theorem walks_in_order_of_arrival (counts : Vector (Fin (bound + 1)) size)
    (changes : List (GroupChange size bound)) (h : GroupChange.Orderly changes) :
    (∀ c : ℕ, ∃ l, ((ofCounts counts).after changes).Yields
        (((ofCounts counts).after changes).walk c) l ∧
      ((ofCounts counts).after changes).withCount c = l ∧ l.Nodup ∧
      (∀ i, i ∈ l ↔ .remove i ∉ changes ∧
        ((Standing.after counts changes).count i).map Fin.val = some c) ∧
      l.Pairwise (Standing.after counts changes).Precedes) ∧
    ((ofCounts counts).after changes).length =
      (Finset.univ.filter fun i => .remove i ∉ changes).card ∧
    ∀ i, ((ofCounts counts).after changes).contains i = true ↔ .remove i ∉ changes := by
  have hordered := (ordered_ofCounts counts).after changes
  have hcontains : ∀ i, ((ofCounts counts).after changes).contains i = true ↔ .remove i ∉ changes := by
    intro i
    rw [contains_after h fun j _ _ => contains_ofCounts counts j]
    exact and_iff_right (contains_ofCounts counts i)
  obtain ⟨lists, hg, hsorted⟩ := hordered.threads
  refine ⟨fun c => ?_, ?_, hcontains⟩
  · have hmem : ∀ i, i ∈ ((ofCounts counts).after changes).withCount c ↔ .remove i ∉ changes ∧
        ((Standing.after counts changes).count i).map Fin.val = some c := by
      intro i
      rw [← hcontains, contains, Valid.mem_withCount ⟨lists, hg⟩, Option.map_eq_some_iff]
      have hcount : (Standing.after counts changes).count i =
          ((ofCounts counts).after changes).count.get i := (hordered.count_eq i).symm
      rw [hcount]
      refine (and_iff_right_of_imp ?_).symm
      rintro ⟨d, hd, _⟩
      rw [hd, Option.isSome_some]
    by_cases hc : c < bound + 1
    · have hwith : ((ofCounts counts).after changes).withCount c = lists ⟨c, hc⟩ :=
        hg.withCount_eq ⟨c, hc⟩
      rw [hwith] at hmem
      exact ⟨lists ⟨c, hc⟩, hg.yields_walk ⟨c, hc⟩, hwith, hg.nodup _, hmem, hsorted _⟩
    · have hwith : ((ofCounts counts).after changes).withCount c = [] := withCount_of_not_lt hc
      rw [hwith] at hmem
      exact ⟨[], yields_walk_of_not_lt hc, hwith, List.nodup_nil, hmem, List.Pairwise.nil⟩
  · rw [Valid.length_eq ⟨lists, hg⟩, card_filter_eq_countP, List.countP_eq_length_filter]
    congr 1
    exact List.filter_congr fun i _ => by rw [Bool.eq_iff_iff, hcontains, decide_eq_true_iff]

/-- The head of a group leaves it and comes back, a member is removed twice, and another one is
updated without a change. -/
theorem walks_in_order_of_arrival_of_returning_head :
    ∃ g : CountGroups 5 3,
      g = (ofCounts #v[2, 1, 2, 0, 2]).after
        [.update 0 1, .update 4 2, .remove 2, .remove 2, .update 1 2, .update 0 2] ∧
      g.Yields (g.walk 2) [4, 1, 0] ∧ g.Yields (g.walk 1) [] ∧ g.length = 4 ∧
      g.contains 2 = false ∧ g.contains 0 = true := by
  have h := walks_in_order_of_arrival (#v[2, 1, 2, 0, 2] : Vector (Fin (3 + 1)) 5)
    [.update 0 1, .update 4 2, .remove 2, .remove 2, .update 1 2, .update 0 2] (by decide)
  obtain ⟨hwalk, hlength, hcontains⟩ := h
  refine ⟨_, rfl, ?_, ?_, hlength.trans (by decide), ?_, (hcontains 0).mpr (by decide)⟩
  · obtain ⟨l, hyields, hl, -⟩ := hwalk 2
    rwa [← hl] at hyields
  · obtain ⟨l, hyields, hl, -⟩ := hwalk 1
    rwa [← hl] at hyields
  · rw [Bool.eq_false_iff, ne_eq, hcontains]
    decide

end CountGroups

end ExactSimplex
