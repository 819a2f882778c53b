import Mathlib.Data.List.Cycle
import Mathlib.Logic.Function.Basic
import ExactSimplex.Factor.CountGroups
import ExactSimplex.Proofs.Vectors

/-! # Rings hold exactly the indices with their count

The rings of all groups are threaded through the same two tables of links. The invariant gives the
list of every ring: neighbours in it are linked in both directions, around the end as well, the head is its
first index, and an index is listed, once, in the group of its recorded count and in no other. Joining a ring
and leaving it change the links at two places, and the list by one index. A walk that starts at the head
comes to the listed indices in their order and then ends.
-/
namespace ExactSimplex

/-- What changes a chain only behind its last and before its first element keeps it a chain. -/
theorem isChain_of_inner {α : Type} {r s : α → α → Prop} {l : List α} (hn : l.Nodup)
    (h : l.IsChain r)
    (hs : ∀ a ∈ l, ∀ b ∈ l, r a b → l.getLast? ≠ some a → l.head? ≠ some b → s a b) :
    l.IsChain s := by
  rw [List.isChain_iff_forall_rel_of_append_cons_cons] at h ⊢
  rintro a b front back rfl
  refine hs a (by simp) b (by simp) (h rfl) (fun hlast => ?_) (fun hhead => ?_)
  · rw [List.getLast?_append_cons, List.getLast?_cons_cons] at hlast
    have hab := (List.nodup_append.mp hn).2.1
    exact (List.nodup_cons.mp hab).1 (List.mem_of_getLast? hlast)
  · rw [List.append_cons, List.head?_append_of_ne_nil _ (by simp)] at hhead
    rw [List.append_cons] at hn
    exact (List.nodup_append.mp hn).2.2 b (List.mem_of_head? hhead) b List.mem_cons_self rfl

theorem cycle_chain_iff {α : Type} {r : α → α → Prop} {l : List α} :
    Cycle.Chain r (l : Cycle α) ↔ l.IsChain r ∧ ∀ a ∈ l.getLast?, ∀ b ∈ l.head?, r a b := by
  cases l with
  | nil => simp
  | cons a l =>
    rw [Cycle.chain_coe_cons, ← List.cons_append, List.isChain_append]
    simp

namespace CountGroups
variable {size bound : ℕ} {g f : CountGroups size bound} {lists : Fin (bound + 1) → List (Fin size)}

/-- The second index follows the first one in a ring. -/
def Linked (g : CountGroups size bound) (i j : Fin size) : Prop :=
  g.next.get i = j ∧ g.previous.get j = i

/-- The rings of the groups are these lists. -/
structure Threads (g : CountGroups size bound) (lists : Fin (bound + 1) → List (Fin size)) : Prop where
  mem_iff : ∀ c i, i ∈ lists c ↔ g.count.get i = some c
  nodup : ∀ c, (lists c).Nodup
  ring : ∀ c, Cycle.Chain g.Linked (lists c : Cycle (Fin size))
  head : ∀ c, g.heads.get c = (lists c).head?
  length_eq : g.length = g.count.countP Option.isSome

theorem ring_congr {l : List (Fin size)} (h : Cycle.Chain g.Linked (l : Cycle (Fin size)))
    (hl : ∀ i ∈ l, f.next.get i = g.next.get i ∧ f.previous.get i = g.previous.get i) :
    Cycle.Chain f.Linked (l : Cycle (Fin size)) := by
  have hlinked : ∀ a b, a ∈ l → b ∈ l → g.Linked a b → f.Linked a b := fun a b ha hb hab =>
    ⟨(hl a ha).1.trans hab.1, (hl b hb).2.trans hab.2⟩
  obtain ⟨hchain, hclosed⟩ := cycle_chain_iff.mp h
  refine cycle_chain_iff.mpr ⟨hchain.imp_of_mem_imp hlinked, fun a ha b hb => ?_⟩
  exact hlinked a b (List.mem_of_getLast? ha) (List.mem_of_head? hb) (hclosed a ha b hb)

theorem countP_put (count : Vector (Option (Fin (bound + 1))) size) (i : Fin size)
    (c : Option (Fin (bound + 1))) :
    (put count i c).countP Option.isSome =
      count.countP Option.isSome - (if (count.get i).isSome then 1 else 0) +
        if c.isSome then 1 else 0 :=
  Vector.countP_set _

theorem threads_empty : (empty size bound).Threads fun _ => [] where
  mem_iff c i := by simp [empty]
  nodup c := List.nodup_nil
  ring c := Cycle.Chain.nil _
  head c := by simp [empty]
  length_eq := by
    rw [countP_eq_finRange]
    simp [empty]

@[simp] theorem count_insert (g : CountGroups size bound) (i j : Fin size) (c : Fin (bound + 1)) :
    (g.insert i c).count.get j = if i = j then some c else g.count.get j := by
  unfold insert
  split <;> exact get_put _ _ _ _

theorem length_insert (g : CountGroups size bound) (i : Fin size) (c : Fin (bound + 1)) :
    (g.insert i c).length = g.length + 1 := by
  unfold insert
  split <;> rfl

theorem heads_insert (g : CountGroups size bound) (i : Fin size) (c d : Fin (bound + 1)) :
    (g.insert i c).heads.get d =
      if c = d then some ((g.heads.get c).getD i) else g.heads.get d := by
  unfold insert
  split
  · next head hhead =>
    split
    · next hcd => rw [← hcd, hhead, Option.getD_some]
    · rfl
  · next hhead => rw [get_put, hhead, Option.getD_none]

theorem countP_insert (hi : g.count.get i = none) (c : Fin (bound + 1)) :
    (g.insert i c).count.countP Option.isSome = g.count.countP Option.isSome + 1 := by
  have h : (g.insert i c).count = put g.count i (some c) := by
    unfold insert
    split <;> rfl
  rw [h, countP_put, hi]
  simp

namespace Threads

theorem not_mem (h : g.Threads lists) {i : Fin size} (hi : g.count.get i = none)
    (c : Fin (bound + 1)) : i ∉ lists c := fun hm => by
  rw [h.mem_iff, hi] at hm
  cases hm

theorem ne_of_mem (h : g.Threads lists) {i j : Fin size} {c d : Fin (bound + 1)} (hcd : d ≠ c)
    (hi : i ∈ lists d) (hj : j ∈ lists c) : i ≠ j := by
  rintro rfl
  rw [h.mem_iff] at hi hj
  exact hcd (Option.some.inj (hi.symm.trans hj))

/-- The ring of a group with an index that has joined it. -/
theorem ring_insert (h : g.Threads lists) {i : Fin size} (hi : g.count.get i = none)
    (c : Fin (bound + 1)) :
    Cycle.Chain (g.insert i c).Linked (lists c ++ [i] : List (Fin size)) := by
  have hic := h.not_mem hi c
  have hhead := h.head c
  cases hl : lists c with
  | nil =>
    rw [hl] at hhead
    simp [insert, hhead, Linked]
  | cons a l =>
    obtain ⟨hchain, hclosed⟩ := cycle_chain_iff.mp (h.ring c)
    have hn := h.nodup c
    rw [hl] at hic hn hchain hclosed hhead
    obtain ⟨tail, ht⟩ : ∃ tail, (a :: l).getLast? = some tail :=
      ⟨_, List.getLast?_eq_some_getLast (List.cons_ne_nil a l)⟩
    have htail : g.previous.get a = tail := (hclosed tail ht a rfl).2
    have hat : tail ∈ a :: l := List.mem_of_getLast? ht
    have hnext : ∀ k, (g.insert i c).next.get k =
        if i = k then a else if tail = k then i else g.next.get k := fun k => by
      simp [insert, hhead, htail]
    have hprevious : ∀ k, (g.insert i c).previous.get k =
        if a = k then i else if i = k then tail else g.previous.get k := fun k => by
      simp [insert, hhead, htail]
    have hne : ∀ k ∈ a :: l, i ≠ k := fun k hk hik => hic (hik ▸ hk)
    refine cycle_chain_iff.mpr ⟨List.isChain_append.mpr ⟨?_, List.isChain_singleton i, ?_⟩, ?_⟩
    · refine isChain_of_inner hn hchain fun k hk j hj hkj hlast hfirst => ?_
      have htk : tail ≠ k := fun h => hlast (h ▸ ht)
      have haj : a ≠ j := fun h => hfirst (h ▸ rfl)
      rw [Linked, hnext, hprevious, if_neg (hne k hk), if_neg htk, if_neg haj, if_neg (hne j hj)]
      exact hkj
    · rintro k hk _ ⟨⟩
      cases ht.symm.trans hk
      rw [Linked, hnext, hprevious, if_neg (hne tail hat), if_pos rfl, if_neg (hne a List.mem_cons_self).symm,
        if_pos rfl]
      exact ⟨rfl, rfl⟩
    · rintro k hk _ ⟨⟩
      rw [List.getLast?_concat, Option.mem_some_iff] at hk
      rw [Linked, hnext, hprevious, if_pos hk, if_pos rfl, hk]
      exact ⟨rfl, rfl⟩

/-- Joining a ring leaves the links of all other rings. -/
theorem links_insert (h : g.Threads lists) {i j : Fin size} {c d : Fin (bound + 1)}
    (hi : g.count.get i = none) (hdc : d ≠ c) (hj : j ∈ lists d) :
    (g.insert i c).next.get j = g.next.get j ∧ (g.insert i c).previous.get j = g.previous.get j := by
  have hij : i ≠ j := fun hij => h.not_mem hi d (hij ▸ hj)
  cases hhead : g.heads.get c with
  | none => simp [insert, hhead, hij]
  | some a =>
    rw [h.head] at hhead
    have ha : a ≠ j := (h.ne_of_mem hdc hj (List.mem_of_head? hhead)).symm
    obtain ⟨tail, ht⟩ : ∃ tail, (lists c).getLast? = some tail :=
      ⟨_, List.getLast?_eq_some_getLast (List.ne_nil_of_mem (List.mem_of_head? hhead))⟩
    have htail : g.previous.get a = tail := ((cycle_chain_iff.mp (h.ring c)).2 tail ht a hhead).2
    have hne : tail ≠ j := (h.ne_of_mem hdc hj (List.mem_of_getLast? ht)).symm
    rw [← h.head] at hhead
    simp [insert, hhead, htail, hij, ha, hne]

theorem insert (h : g.Threads lists) {i : Fin size} (hi : g.count.get i = none) (c : Fin (bound + 1)) :
    (g.insert i c).Threads (Function.update lists c (lists c ++ [i])) where
  mem_iff d j := by
    rw [count_insert, Function.update_apply]
    by_cases hij : i = j
    · subst hij
      by_cases hdc : d = c
      · simp [hdc]
      · simp [hdc, Ne.symm hdc, h.not_mem hi d]
    · split
      · next hdc => simp [Ne.symm hij, h.mem_iff, hdc]
      · simp [h.mem_iff]
  nodup d := by
    rw [Function.update_apply]
    split
    · refine List.nodup_append.mpr ⟨h.nodup c, List.nodup_singleton i, ?_⟩
      rintro a ha b hb rfl
      exact h.not_mem hi c (List.mem_singleton.mp hb ▸ ha)
    · exact h.nodup d
  ring d := by
    rw [Function.update_apply]
    split
    · exact h.ring_insert hi c
    · next hdc => exact ring_congr (h.ring d) fun j hj => h.links_insert hi hdc hj
  head d := by
    rw [heads_insert, Function.update_apply, h.head, h.head]
    by_cases hcd : c = d
    · rw [if_pos hcd, if_pos hcd.symm, List.head?_append]
      cases (lists c).head? <;> rfl
    · rw [if_neg hcd, if_neg (Ne.symm hcd)]
  length_eq := by rw [length_insert, countP_insert hi, h.length_eq]

/-- The neighbours of an index in its ring, and the ring from there on. -/
theorem neighbours (h : g.Threads lists) {i : Fin size} {c : Fin (bound + 1)} {u v : List (Fin size)}
    (hl : lists c = u ++ i :: v) :
    (v ++ u).IsChain g.Linked ∧ (∀ b ∈ (v ++ u).head?, g.next.get i = b) ∧
      (∀ z ∈ (v ++ u).getLast?, g.previous.get i = z) ∧ (v ++ u = [] → g.next.get i = i) := by
  have hring := h.ring c
  have hrotated : ((u ++ i :: v : List (Fin size)) : Cycle (Fin size)) = (i :: (v ++ u) : List _) :=
    Cycle.coe_eq_coe.mpr List.isRotated_append
  rw [hl, hrotated] at hring
  obtain ⟨hchain, hclosed⟩ := cycle_chain_iff.mp hring
  cases hw : v ++ u with
  | nil =>
    rw [hw] at hclosed
    refine ⟨List.isChain_nil, by simp, by simp, fun _ => (hclosed i rfl i rfl).1⟩
  | cons b w =>
    rw [hw] at hclosed hchain
    obtain ⟨hib, hchain⟩ := List.isChain_cons_cons.mp hchain
    refine ⟨hchain, ?_, fun z hz => ?_, fun hnil => by cases hnil⟩
    · rintro _ ⟨⟩
      exact hib.1
    · rw [List.getLast?_cons_cons] at hclosed
      exact (hclosed z hz i rfl).2

end Threads

theorem remove_of_none {i : Fin size} (hi : g.count.get i = none) : g.remove i = g := by
  simp only [remove, hi]

theorem count_remove_eq {i : Fin size} {c : Fin (bound + 1)} (hi : g.count.get i = some c) :
    (g.remove i).count = put g.count i none := by
  simp only [remove, hi]
  split <;> rfl

@[simp] theorem count_remove (g : CountGroups size bound) (i j : Fin size) :
    (g.remove i).count.get j = if i = j then none else g.count.get j := by
  cases hi : g.count.get i with
  | none =>
    simp only [remove, hi]
    split
    · next hij => rw [← hij, hi]
    · rfl
  | some c => rw [count_remove_eq hi, get_put]

theorem countP_remove {i : Fin size} {c : Fin (bound + 1)} (hi : g.count.get i = some c) :
    (g.remove i).count.countP Option.isSome = g.count.countP Option.isSome - 1 := by
  rw [count_remove_eq hi, countP_put, hi]
  simp

theorem length_remove {i : Fin size} {c : Fin (bound + 1)} (hi : g.count.get i = some c) :
    (g.remove i).length = g.length - 1 := by
  simp only [remove, hi]
  split <;> rfl

theorem next_remove {i : Fin size} {c : Fin (bound + 1)} (hi : g.count.get i = some c)
    (hne : g.next.get i ≠ i) (k : Fin size) : (g.remove i).next.get k =
      if g.previous.get i = k then g.next.get i else g.next.get k := by
  simp only [remove, hi, if_neg hne, get_put]

theorem previous_remove {i : Fin size} {c : Fin (bound + 1)} (hi : g.count.get i = some c)
    (hne : g.next.get i ≠ i) (k : Fin size) : (g.remove i).previous.get k =
      if g.next.get i = k then g.previous.get i else g.previous.get k := by
  simp only [remove, hi, if_neg hne, get_put]

namespace Threads

theorem split_at (h : g.Threads lists) {i : Fin size} {c : Fin (bound + 1)}
    (hi : g.count.get i = some c) :
    ∃ u v, lists c = u ++ i :: v ∧ (lists c).erase i = u ++ v ∧ i ∉ v ++ u ∧ (v ++ u).Nodup := by
  obtain ⟨u, v, hl⟩ := List.append_of_mem ((h.mem_iff c i).mpr hi)
  have hn := h.nodup c
  rw [hl] at hn
  obtain ⟨hiv, hn⟩ := List.nodup_cons.mp (List.perm_middle.nodup_iff.mp hn)
  have hperm : (u ++ v).Perm (v ++ u) := List.perm_append_comm
  have hiu : i ∉ u := fun hm => hiv (List.mem_append_left v hm)
  exact ⟨u, v, hl, by rw [hl, List.erase_append_right _ hiu, List.erase_cons_head],
    fun hm => hiv (hperm.mem_iff.mpr hm), hperm.nodup_iff.mp hn⟩

/-- The ring of a group that an index has left. -/
theorem ring_remove (h : g.Threads lists) {i : Fin size} {c : Fin (bound + 1)}
    (hi : g.count.get i = some c) :
    Cycle.Chain (g.remove i).Linked ((lists c).erase i : List (Fin size)) := by
  obtain ⟨u, v, hl, herase, hiw, hn⟩ := h.split_at hi
  have hrotated : ((u ++ v : List (Fin size)) : Cycle (Fin size)) = (v ++ u : List _) :=
    Cycle.coe_eq_coe.mpr List.isRotated_append
  rw [herase, hrotated]
  obtain ⟨hchain, hnext, hprevious, -⟩ := h.neighbours hl
  generalize v ++ u = w at *
  cases w with
  | nil => exact Cycle.Chain.nil _
  | cons b w =>
    obtain ⟨z, hz⟩ : ∃ z, (b :: w).getLast? = some z :=
      ⟨_, List.getLast?_eq_some_getLast (List.cons_ne_nil b w)⟩
    have hb := hnext b rfl
    have hbi : g.next.get i ≠ i := by
      rw [hb]
      exact fun hbi => hiw (hbi ▸ List.mem_cons_self)
    have hlinked : ∀ k j, (g.remove i).Linked k j ↔
        (if z = k then b else g.next.get k) = j ∧ (if b = j then z else g.previous.get j) = k := by
      intro k j
      rw [Linked, next_remove hi hbi, previous_remove hi hbi, hb, hprevious z hz]
    refine cycle_chain_iff.mpr ⟨isChain_of_inner hn hchain fun k _ j _ hkj hlast hfirst => ?_, ?_⟩
    · have hzk : z ≠ k := fun h => hlast (h ▸ hz)
      have hbj : b ≠ j := fun h => hfirst (h ▸ rfl)
      rw [hlinked, if_neg hzk, if_neg hbj]
      exact hkj
    · rintro k hk _ ⟨⟩
      cases hz.symm.trans hk
      rw [hlinked, if_pos rfl, if_pos rfl]
      exact ⟨rfl, rfl⟩

/-- Leaving a ring leaves the links of all other rings. -/
theorem links_remove (h : g.Threads lists) {i j : Fin size} {c d : Fin (bound + 1)}
    (hi : g.count.get i = some c) (hdc : d ≠ c) (hj : j ∈ lists d) :
    (g.remove i).next.get j = g.next.get j ∧ (g.remove i).previous.get j = g.previous.get j := by
  obtain ⟨u, v, hl, -, -, -⟩ := h.split_at hi
  obtain ⟨-, hnext, hprevious, hnil⟩ := h.neighbours hl
  have hother : ∀ k ∈ v ++ u, k ≠ j := by
    intro k hk
    refine (h.ne_of_mem hdc hj ?_).symm
    rw [hl, List.perm_middle.mem_iff]
    exact List.mem_cons_of_mem i (List.perm_append_comm.mem_iff.mp hk)
  by_cases hne : g.next.get i = i
  · simp [remove, hi, hne]
  · generalize v ++ u = w at *
    cases w with
    | nil => exact absurd (hnil rfl) hne
    | cons b w =>
      obtain ⟨z, hz⟩ : ∃ z, (b :: w).getLast? = some z :=
        ⟨_, List.getLast?_eq_some_getLast (List.cons_ne_nil b w)⟩
      rw [next_remove hi hne, previous_remove hi hne, hnext b rfl, hprevious z hz,
        if_neg (hother z (List.mem_of_getLast? hz)), if_neg (hother b List.mem_cons_self)]
      exact ⟨rfl, rfl⟩

theorem erase_of_ne (h : g.Threads lists) {i : Fin size} {c d : Fin (bound + 1)}
    (hi : g.count.get i = some c) (hdc : d ≠ c) : (lists d).erase i = lists d :=
  List.erase_of_not_mem fun hm => h.ne_of_mem hdc hm ((h.mem_iff c i).mpr hi) rfl

theorem head_remove (h : g.Threads lists) {i : Fin size} {c : Fin (bound + 1)}
    (hi : g.count.get i = some c) (d : Fin (bound + 1)) :
    (g.remove i).heads.get d = ((lists d).erase i).head? := by
  obtain ⟨u, v, hl, herase, hiw, -⟩ := h.split_at hi
  obtain ⟨-, hnext, -, hnil⟩ := h.neighbours hl
  have hhead := h.head c
  rw [hl] at hhead
  have hother (hdc : d ≠ c) : ((lists d).erase i).head? = g.heads.get d := by
    rw [h.erase_of_ne hi hdc, h.head]
  cases u with
  | nil =>
    cases v with
    | nil =>
      have hself := hnil rfl
      by_cases hdc : d = c
      · simp [remove, hi, hself, hdc, herase]
      · simp [remove, hi, hself, hother hdc, Ne.symm hdc]
    | cons b v =>
      have hb : g.next.get i = b := hnext b (by simp)
      have hbi : b ≠ i := fun hbi => hiw (by simp [hbi])
      by_cases hdc : d = c
      · simp [remove, hi, hb, hbi, hhead, hdc, herase]
      · simp [remove, hi, hb, hbi, hhead, hother hdc, Ne.symm hdc]
  | cons a u =>
    have hai : a ≠ i := fun hai => hiw (by simp [hai])
    have hne : g.next.get i ≠ i := by
      obtain ⟨b, hb⟩ : ∃ b, (v ++ a :: u).head? = some b := ⟨_, List.head?_eq_some_head (by simp)⟩
      rw [hnext b hb]
      exact fun hbi => hiw (hbi ▸ List.mem_of_head? hb)
    by_cases hdc : d = c
    · simp [remove, hi, hne, hhead, hdc, hai, herase]
    · simp [remove, hi, hne, hhead, hai, hother hdc]

theorem remove (h : g.Threads lists) (i : Fin size) :
    (g.remove i).Threads fun d => (lists d).erase i := by
  cases hi : g.count.get i with
  | none =>
    have hsame : (fun d => (lists d).erase i) = lists :=
      funext fun d => List.erase_of_not_mem (h.not_mem hi d)
    rwa [remove_of_none hi, hsame]
  | some c =>
    constructor
    case mem_iff =>
      intro d j
      rw [count_remove, (h.nodup d).mem_erase_iff, h.mem_iff]
      by_cases hij : i = j <;> simp [hij, eq_comm]
    case nodup => exact fun d => (h.nodup d).erase i
    case ring =>
      intro d
      by_cases hdc : d = c
      · rw [hdc]
        exact h.ring_remove hi
      · rw [h.erase_of_ne hi hdc]
        exact ring_congr (h.ring d) fun j hj => h.links_remove hi hdc hj
    case head => exact h.head_remove hi
    case length_eq => rw [length_remove hi, countP_remove hi, h.length_eq]

/-- An index with a new count goes from its ring to the end of another one. -/
theorem update (h : g.Threads lists) {i : Fin size} {c : Fin (bound + 1)}
    (hc : g.count.get i ≠ some c) : (g.update i c).Threads fun d =>
      if d = c then (lists d).erase i ++ [i] else (lists d).erase i := by
  rw [CountGroups.update, if_neg hc]
  have hnext := (h.remove i).insert (by rw [count_remove, if_pos rfl]) c
  convert hnext using 2 with d
  rw [Function.update_apply]
  split
  · next hd => rw [hd]
  · rfl

end Threads

/-- The recorded count of an index after its update is the new one. -/
@[simp] theorem count_update (g : CountGroups size bound) (i j : Fin size) (c : Fin (bound + 1)) :
    (g.update i c).count.get j = if i = j then some c else g.count.get j := by
  unfold update
  split
  · next h =>
    split
    · next hij => rw [← hij, h]
    · rfl
  · rw [count_insert, count_remove]
    split <;> rfl

section Walk

/-- The walk comes to these indices one after the other, and then it ends. -/
inductive Yields (g : CountGroups size bound) : Cursor size → List (Fin size) → Prop
  | ended {cursor : Cursor size} (h : g.advance cursor = none) : Yields g cursor []
  | visits {cursor rest : Cursor size} {i : Fin size} {l : List (Fin size)}
      (h : g.advance cursor = some (i, rest)) (hl : Yields g rest l) : Yields g cursor (i :: l)

theorem Yields.visited_eq {cursor : Cursor size} {l : List (Fin size)} (h : g.Yields cursor l)
    {steps : ℕ} (hs : l.length ≤ steps) : g.visited steps cursor = l := by
  induction h generalizing steps with
  | ended h => cases steps <;> simp [visited, h]
  | visits h _ ih =>
    cases steps with
    | zero => cases hs
    | succ steps =>
      simp only [visited, h]
      rw [ih (Nat.le_of_succ_le_succ hs)]

/-- From any index of a ring on, the walk comes to the rest of its list. -/
theorem Threads.yields_rest (h : g.Threads lists) {c : Fin (bound + 1)} {front rest : List (Fin size)}
    (hl : lists c = front ++ rest) : g.Yields ⟨(lists c).head?, rest.head?⟩ rest := by
  induction rest generalizing front with
  | nil => exact .ended rfl
  | cons i rest ih =>
    have hnext : (if some (g.next.get i) = (lists c).head? then none else some (g.next.get i)) =
        rest.head? := by
      obtain ⟨hchain, hclosed⟩ := cycle_chain_iff.mp (h.ring c)
      cases rest with
      | nil =>
        obtain ⟨a, ha⟩ : ∃ a, (lists c).head? = some a := ⟨_, List.head?_eq_some_head (by simp [hl])⟩
        rw [ha, (hclosed i (by simp [hl]) a ha).1, if_pos rfl]
        rfl
      | cons b rest =>
        have hib : g.Linked i b := by
          rw [hl] at hchain
          exact (List.isChain_cons_cons.mp hchain.right_of_append).1
        -- The next index is not the first one, which comes no later than `i`.
        have hb : some b ≠ (lists c).head? := by
          intro hb
          have hn := h.nodup c
          rw [hl, List.append_cons] at hn
          rw [hl, List.append_cons, List.head?_append_of_ne_nil _ (by simp)] at hb
          exact (List.nodup_append.mp hn).2.2 b (List.mem_of_head? hb.symm) b List.mem_cons_self rfl
        rw [hib.1, if_neg hb]
        rfl
    have hrest : lists c = (front ++ [i]) ++ rest := by rw [hl, List.append_cons]
    refine .visits ?_ (ih hrest)
    rw [← hnext]
    rfl

theorem Threads.yields_walk (h : g.Threads lists) (c : Fin (bound + 1)) :
    g.Yields (g.walk c) (lists c) := by
  have hwalk : g.walk c = ⟨(lists c).head?, (lists c).head?⟩ := by
    rw [walk, dif_pos c.isLt, h.head]
  rw [hwalk]
  exact h.yields_rest (List.nil_append _).symm

theorem yields_walk_of_not_lt {c : ℕ} (hc : ¬c < bound + 1) : g.Yields (g.walk c) [] := by
  apply Yields.ended
  rw [walk, dif_neg hc]
  rfl

theorem Threads.withCount_eq (h : g.Threads lists) (c : Fin (bound + 1)) : g.withCount c = lists c := by
  apply (h.yields_walk c).visited_eq
  have hle := ((h.nodup c).subperm fun i _ => List.mem_finRange i).length_le
  rwa [List.length_finRange] at hle

theorem withCount_of_not_lt {c : ℕ} (hc : ¬c < bound + 1) : g.withCount c = [] :=
  (yields_walk_of_not_lt hc).visited_eq (Nat.zero_le size)

end Walk

/-- The links form rings. -/
def Valid (g : CountGroups size bound) : Prop := ∃ lists, g.Threads lists

theorem Valid.remove (h : g.Valid) (i : Fin size) : (g.remove i).Valid :=
  let ⟨_, h⟩ := h
  ⟨_, h.remove i⟩

theorem Valid.update (h : g.Valid) (i : Fin size) (c : Fin (bound + 1)) : (g.update i c).Valid := by
  obtain ⟨lists, h⟩ := h
  by_cases hc : g.count.get i = some c
  · exact ⟨lists, by rwa [CountGroups.update, if_pos hc]⟩
  · exact ⟨_, h.update hc⟩

theorem threads_foldl_insert (counts : Vector (Fin (bound + 1)) size) {l : List (Fin size)}
    (hl : l.Nodup) (h : g.Threads lists) (hg : ∀ i ∈ l, g.count.get i = none) :
    (l.foldl (fun g i => g.insert i (counts.get i)) g).Threads fun c =>
      lists c ++ l.filter fun i => counts.get i = c := by
  induction l generalizing g lists with
  | nil => simpa using h
  | cons i l ih =>
    obtain ⟨hi, hl⟩ := List.nodup_cons.mp hl
    have hrest : ∀ j ∈ l, (g.insert i (counts.get i)).count.get j = none := fun j hj => by
      have hij : i ≠ j := fun hij => hi (hij ▸ hj)
      rw [count_insert, if_neg hij]
      exact hg j (List.mem_cons_of_mem i hj)
    have hlists : (fun c => lists c ++ (i :: l).filter fun i => counts.get i = c) = fun c =>
        Function.update lists (counts.get i) (lists (counts.get i) ++ [i]) c ++
          l.filter fun i => counts.get i = c := by
      funext c
      rw [Function.update_apply, List.filter_cons]
      by_cases hc : counts.get i = c
      · simp [hc]
      · simp [hc, Ne.symm hc]
    rw [hlists]
    exact ih hl (h.insert (hg i List.mem_cons_self) (counts.get i)) hrest

theorem threads_ofCounts (counts : Vector (Fin (bound + 1)) size) :
    (ofCounts counts).Threads fun c => (List.finRange size).filter fun i => counts.get i = c := by
  have h := threads_foldl_insert counts (List.nodup_finRange size) threads_empty
    fun i _ => get_replicate none i
  simp only [List.nil_append] at h
  exact h

theorem valid_ofCounts (counts : Vector (Fin (bound + 1)) size) : (ofCounts counts).Valid :=
  ⟨_, threads_ofCounts counts⟩

@[simp] theorem count_ofCounts (counts : Vector (Fin (bound + 1)) size) (i : Fin size) :
    (ofCounts counts).count.get i = some (counts.get i) := by
  rw [← (threads_ofCounts counts).mem_iff]
  simp

@[simp] theorem contains_ofCounts (counts : Vector (Fin (bound + 1)) size) (i : Fin size) :
    (ofCounts counts).contains i = true := by
  rw [contains, count_ofCounts, Option.isSome_some]

@[simp] theorem contains_remove (g : CountGroups size bound) (i j : Fin size) :
    (g.remove i).contains j = if i = j then false else g.contains j := by
  simp only [contains, count_remove]
  split <;> rfl

@[simp] theorem contains_update (g : CountGroups size bound) (i j : Fin size) (c : Fin (bound + 1)) :
    (g.update i c).contains j = if i = j then true else g.contains j := by
  simp only [contains, count_update]
  split <;> rfl

theorem Valid.mem_withCount (h : g.Valid) {i : Fin size} {k : ℕ} :
    i ∈ g.withCount k ↔ ∃ c, g.count.get i = some c ∧ c.val = k := by
  obtain ⟨lists, h⟩ := h
  by_cases hk : k < bound + 1
  · rw [h.withCount_eq ⟨k, hk⟩, h.mem_iff]
    exact ⟨fun hc => ⟨_, hc, rfl⟩, fun ⟨c, hc, hv⟩ => by rw [hc]; congr 1; exact Fin.ext hv⟩
  · rw [withCount_of_not_lt hk]
    exact ⟨fun hm => absurd hm List.not_mem_nil, fun ⟨c, _, hv⟩ => absurd (hv ▸ c.isLt) hk⟩

theorem Valid.contains_of_mem (h : g.Valid) {i : Fin size} {k : ℕ} (hi : i ∈ g.withCount k) :
    g.contains i := by
  obtain ⟨c, hc, _⟩ := h.mem_withCount.mp hi
  simp [contains, hc]

theorem Valid.nodup_withCount (h : g.Valid) (k : ℕ) : (g.withCount k).Nodup := by
  obtain ⟨lists, h⟩ := h
  by_cases hk : k < bound + 1
  · rw [h.withCount_eq ⟨k, hk⟩]
    exact h.nodup _
  · rw [withCount_of_not_lt hk]
    exact List.nodup_nil

theorem Valid.length_eq (h : g.Valid) :
    g.length = ((List.finRange size).filter g.contains).length := by
  obtain ⟨lists, h⟩ := h
  rw [h.length_eq, countP_eq_finRange, List.countP_eq_length_filter]
  rfl

end CountGroups

end ExactSimplex
