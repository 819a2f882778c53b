import ExactSimplex.Machine.Basic
import ExactSimplex.Proofs.Checked
import Mathlib.Data.List.Perm.Basic
import Mathlib.Data.List.Nodup
import Mathlib.Data.Option.Basic

/-! # Lists and where their members stand

A list of variables comes with a second list, in which the position of every member stands under its number.
Noting all positions makes the second list fit the first one, if what stood there before was about the same
members, and an exchange of one member for another one keeps the two in step.
-/
namespace ExactSimplex.Machine
variable {positions result : List (Option ℕ)} {members others : List ℕ}

/-- Under every member stands its position, and under no other number stands one. -/
def Indexes (positions : List (Option ℕ)) (members : List ℕ) : Prop :=
  ∀ j i : ℕ, positions[j]? = some (some i) ↔ members[i]? = some j

theorem zipIdx_notePositions (k : ℕ) (hnodup : members.Nodup)
    (h : (members.zipIdx k).foldlM (fun positions e => write positions e.1 (some e.2)) positions = .ok result) :
    result.length = positions.length ∧ ∀ j i, result[j]? = some (some i) ↔
      (∃ t, members[t]? = some j ∧ i = k + t) ∨ (j ∉ members ∧ positions[j]? = some (some i)) := by
  induction members generalizing positions k with
  | nil =>
    cases h
    simp
  | cons v members ih =>
    rw [List.zipIdx_cons, List.foldlM_cons] at h
    obtain ⟨hv, hnodup⟩ := List.nodup_cons.mp hnodup
    cases hwrite : write positions v (some k) with
    | error failure =>
      rw [hwrite] at h
      cases h
    | ok next =>
      rw [hwrite] at h
      obtain ⟨hlt, rfl⟩ := write_eq_ok_iff.mp hwrite
      obtain ⟨hlength, hall⟩ := ih (k + 1) hnodup h
      refine ⟨hlength.trans List.length_set, fun j i => (hall j i).trans ?_⟩
      by_cases hj : j = v
      · subst hj
        have hfirst : ∀ t, members[t]? = some j → False := fun t ht => hv (List.mem_of_getElem? ht)
        constructor
        · rintro (⟨t, ht, -⟩ | ⟨-, hset⟩)
          · exact (hfirst t ht).elim
          · rw [List.getElem?_set_self hlt, Option.some_inj, Option.some_inj] at hset
            exact .inl ⟨0, rfl, hset.symm⟩
        · rintro (⟨t, ht, rfl⟩ | ⟨hnot, -⟩)
          · cases t with
            | zero => exact .inr ⟨hv, List.getElem?_set_self hlt⟩
            | succ t => exact (hfirst t ht).elim
          · exact absurd List.mem_cons_self hnot
      · rw [List.getElem?_set_ne (Ne.symm hj), List.mem_cons, not_or]
        refine or_congr ⟨?_, ?_⟩ (and_congr_left fun _ => ⟨fun hn => ⟨hj, hn⟩, fun hn => hn.2⟩)
        · rintro ⟨t, ht, rfl⟩
          exact ⟨t + 1, ht, by omega⟩
        · rintro ⟨t, ht, rfl⟩
          cases t with
          | zero => exact absurd (Option.some.inj ht).symm hj
          | succ t => exact ⟨t, ht, by omega⟩

/-- After noting the positions of all members, they are right, if no other number had one before. -/
theorem indexes_of_notePositions (hnodup : members.Nodup) (h : notePositions positions members = .ok result)
    (hbefore : ∀ j i, positions[j]? = some (some i) → j ∈ members) :
    result.length = positions.length ∧ Indexes result members := by
  obtain ⟨hlength, hall⟩ := zipIdx_notePositions 0 hnodup h
  refine ⟨hlength, fun j i => (hall j i).trans ?_⟩
  constructor
  · rintro (⟨t, ht, rfl⟩ | ⟨hnot, hold⟩)
    · rwa [Nat.zero_add]
    · exact absurd (hbefore j i hold) hnot
  · exact fun hi => .inl ⟨i, hi, (Nat.zero_add i).symm⟩

theorem exists_notePositions (h : ∀ j ∈ members, j < positions.length) :
    ∃ result, notePositions positions members = .ok result := by
  refine exists_foldlM (I := fun noted => noted.length = positions.length) rfl fun noted e he hnoted => ?_
  have hlt : e.1 < noted.length := hnoted.symm ▸ h e.1 (List.fst_mem_of_mem_zipIdx he)
  exact ⟨_, write_of_lt hlt _, List.length_set.trans hnoted⟩

/-- One member is exchanged for a new one, in both lists. -/
theorem Indexes.exchange (h : Indexes positions members) (hnodup : members.Nodup) {r v q : ℕ}
    (hv : members[r]? = some v) (hq : q ∉ members) (hlt : q < positions.length) :
    Indexes ((positions.set q (some r)).set v none) (members.set r q) := by
  have hr : r < members.length := (List.getElem?_eq_some_iff.mp hv).1
  have hvlt : v < positions.length := (List.getElem?_eq_some_iff.mp ((h v r).mpr hv)).1
  have hvq : v ≠ q := fun hvq => hq (hvq ▸ List.mem_of_getElem? hv)
  intro j i
  by_cases hjv : j = v
  · subst hjv
    rw [List.getElem?_set_self (by rwa [List.length_set])]
    refine iff_of_false (by simp) fun hi => ?_
    by_cases hir : i = r
    · subst hir
      rw [List.getElem?_set_self hr, Option.some_inj] at hi
      exact absurd hi.symm hvq
    · rw [List.getElem?_set_ne (Ne.symm hir)] at hi
      obtain ⟨hi', hival⟩ := List.getElem?_eq_some_iff.mp hi
      obtain ⟨_, hrval⟩ := List.getElem?_eq_some_iff.mp hv
      exact absurd (hnodup.getElem_inj_iff.mp (hival.trans hrval.symm)) hir
  · rw [List.getElem?_set_ne (Ne.symm hjv)]
    by_cases hjq : j = q
    · subst hjq
      rw [List.getElem?_set_self hlt, Option.some_inj, Option.some_inj]
      constructor
      · rintro rfl
        exact List.getElem?_set_self hr
      · intro hi
        by_contra hne
        rw [List.getElem?_set_ne hne] at hi
        exact hq (List.mem_of_getElem? hi)
    · rw [List.getElem?_set_ne (Ne.symm hjq), h j i]
      by_cases hir : r = i
      · subst hir
        rw [List.getElem?_set_self hr, hv, Option.some_inj, Option.some_inj]
        exact ⟨fun hj => absurd hj.symm hjv, fun hj => absurd hj.symm hjq⟩
      · rw [List.getElem?_set_ne hir]

/-- Two lists exchange a member. -/
theorem perm_exchange {r k v q : ℕ} (hv : members[r]? = some v) (hq : others[k]? = some q) :
    (members.set r q ++ others.set k v).Perm (members ++ others) := by
  obtain ⟨hr, rfl⟩ := List.getElem?_eq_some_iff.mp hv
  obtain ⟨hk, rfl⟩ := List.getElem?_eq_some_iff.mp hq
  obtain ⟨l₁, l₂, hl, -, hlset⟩ := @List.exists_of_set _ r others[k] members hr
  obtain ⟨m₁, m₂, hm, -, hmset⟩ := @List.exists_of_set _ k members[r] others hk
  rw [hlset, hmset, List.perm_iff_count]
  intro a
  conv_rhs => rw [hl, hm]
  simp only [List.count_append, List.count_cons]
  omega

/-- Reading a list at all its places in some order gives its entries in some order. -/
theorem perm_of_mapM_read {α : Type} {xs ys : List α} {order : List ℕ}
    (horder : order.Perm (List.range xs.length)) (h : order.mapM (read xs) = .ok ys) : ys.Perm xs := by
  have hsome : ys.map some = order.map fun k => xs[k]? := by
    refine List.ext_getElem? fun i => ?_
    rw [List.getElem?_map, List.getElem?_map]
    have hall := forall₂_of_mapM h
    cases ho : order[i]? with
    | none =>
      rw [List.getElem?_eq_none_iff, hall.length_eq] at ho
      rw [List.getElem?_eq_none_iff.mpr ho]
      rfl
    | some k =>
      obtain ⟨hi, rfl⟩ := List.getElem?_eq_some_iff.mp ho
      have hy := hall.get hi (hall.length_eq ▸ hi)
      rw [List.getElem?_eq_getElem (hall.length_eq ▸ hi)]
      exact congrArg some (read_eq_ok_iff.mp hy).symm
  refine (List.map_perm_map_iff (Option.some_injective α)).mp ?_
  rw [hsome]
  refine (horder.map _).trans (List.Perm.of_eq (List.ext_getElem? fun i => ?_))
  rw [List.getElem?_map, List.getElem?_map]
  by_cases hi : i < xs.length
  · rw [List.getElem?_range hi, Option.map_some, List.getElem?_eq_getElem hi]
    rfl
  · rw [List.getElem?_eq_none_iff.mpr (Nat.not_lt.mp hi), List.getElem?_eq_none_iff.mpr (by simpa using hi)]
    rfl

end ExactSimplex.Machine
