import Mathlib.Data.Finset.Card
import ExactSimplex.Proofs.Factor.Safety

/-! # The chosen pivot is the cheapest one

The lines are visited in the order of their ranks, where the column with `k` values has rank `2 * k` and the
row with `k` values has rank `2 * k + 1`. A value that has `r` values in its row and `c` in its column is seen
in the first of these two lines. Every line that comes no later has no more than `c` values and, as a column,
no more than `r`, so that the floor on which the search stops there is no higher than the cost of the value.
-/
namespace ExactSimplex.Active
variable {m : ℕ} {A : Active m}

/-- The position is in an active row and column and its value is not zero. -/
def Nonzero (A : Active m) (position : Pivot m) : Prop :=
  A.rowGroups.contains position.row ∧ A.columnGroups.contains position.column ∧
    A.value position.row position.column ≠ 0

instance (A : Active m) : DecidablePred A.Nonzero := fun _ =>
  inferInstanceAs (Decidable (_ ∧ _ ∧ _))

/-- The nonzero values in a row of the active part. -/
def rowNonzeros (A : Active m) (p : Fin m) : ℕ :=
  (Finset.univ.filter fun j => A.Nonzero ⟨p, j⟩).card

/-- The nonzero values in a column of the active part. -/
def columnNonzeros (A : Active m) (q : Fin m) : ℕ :=
  (Finset.univ.filter fun i => A.Nonzero ⟨i, q⟩).card

/-- The product of the other nonzero values in the row and in the column of a position. -/
def markowitzCost (A : Active m) (position : Pivot m) : ℕ :=
  (A.rowNonzeros position.row - 1) * (A.columnNonzeros position.column - 1)

/-- The active parts that pivots on nonzero values lead to. -/
inductive Reached (columns : Vector (SparseVec m) m) : Active m → Prop
  | start : Reached columns (ofColumns columns)
  | pivot {A B : Active m} {position : Pivot m} {multipliers : SparseVec m} (hA : Reached columns A)
      (hp : A.Nonzero position) (hB : A.pivot position = some (B, multipliers)) : Reached columns B

section Counts

theorem Valid.value_ne_zero_iff (hA : A.Valid) {i j : Fin m} :
    A.value i j ≠ 0 ↔ ((A.rows.get i).get j).isSome := by
  cases h : (A.rows.get i).get j with
  | none => simp [value, h]
  | some v =>
    rw [value_of_some h]
    exact iff_of_true (hA.ne_zero i j v h) rfl

theorem Valid.nonzero_iff (hA : A.Valid) {position : Pivot m} :
    A.Nonzero position ↔ A.Holds position := by
  rw [Nonzero, Holds, hA.value_ne_zero_iff]

theorem Valid.rowNonzeros_eq (hA : A.Valid) {p : Fin m} (hp : A.rowGroups.contains p) :
    A.rowNonzeros p = A.rowCount p := by
  rw [rowNonzeros, card_filter_eq_countP]
  change _ = (A.rows.get p).countP Option.isSome
  rw [countP_eq_finRange]
  apply List.countP_congr
  intro j _
  rw [decide_eq_true_iff, hA.nonzero_iff]
  exact ⟨fun h => h.2.2, fun h => ⟨hp, hA.column_active p j hp h, h⟩⟩

theorem Valid.columnNonzeros_eq (hA : A.Valid) {q : Fin m} (hq : A.columnGroups.contains q) :
    A.columnNonzeros q = A.columnCount q := by
  rw [columnNonzeros, card_filter_eq_countP]
  change _ = (A.columns.get q).countP id
  rw [countP_eq_finRange]
  apply List.countP_congr
  intro i _
  rw [decide_eq_true_iff, hA.nonzero_iff, id_eq, hA.mirrored i q hq]
  exact ⟨fun h => ⟨h.1, h.2.2⟩, fun h => ⟨h.1, hq, h.2⟩⟩

theorem Valid.markowitzCost_eq (hA : A.Valid) {position : Pivot m} (h : A.Holds position) :
    A.markowitzCost position =
      (A.rowCount position.row - 1) * (A.columnCount position.column - 1) := by
  rw [markowitzCost, hA.rowNonzeros_eq h.1, hA.columnNonzeros_eq h.2.1]

end Counts

section Groups

theorem Valid.nodup_block (hA : A.Valid) (k : ℕ) : (A.block k).Nodup := by
  refine List.nodup_append.mpr ⟨?_, ?_, ?_⟩
  · split
    · exact (hA.columnGroups.nodup_withCount k).map fun a b hab => by cases hab; rfl
    · exact List.nodup_nil
  · exact (hA.rowGroups.nodup_withCount k).map fun a b hab => by cases hab; rfl
  · rintro a ha b hb rfl
    obtain ⟨p, _, rfl⟩ := List.mem_map.mp hb
    split at ha
    · simp at ha
    · cases ha

theorem Valid.nodup_lines (hA : A.Valid) : A.lines.Nodup := by
  rw [lines_eq]
  refine List.nodup_flatMap.mpr ⟨fun k _ => hA.nodup_block k, ?_⟩
  refine (List.pairwise_lt_range' 1).imp ?_
  intro k k' hlt l hl hl'
  rcases mem_block.mp hl with ⟨_, _, _, rfl⟩ | ⟨_, _, rfl⟩ <;>
    rcases mem_block.mp hl' with ⟨_, _, _, he⟩ | ⟨_, _, he⟩ <;> cases he <;> omega

/-- Each active row and column is visited once at most. -/
theorem Valid.length_lines_le (hA : A.Valid) :
    A.lines.length ≤ A.rowGroups.length + A.columnGroups.length := by
  let columns := ((List.finRange m).filter A.columnGroups.contains).map fun q =>
    (A.columnCount q, Line.column q)
  let rows := ((List.finRange m).filter A.rowGroups.contains).map fun p => (A.rowCount p, Line.row p)
  have hsubset : A.lines ⊆ rows ++ columns := by
    rintro ⟨k, line⟩ hl
    obtain ⟨_, _, hl⟩ := hA.mem_lines.mp hl
    cases line with
    | column q =>
      obtain ⟨_, hq, rfl⟩ := hl
      exact List.mem_append_right _ (List.mem_map.mpr ⟨q, by simpa using hq, rfl⟩)
    | row p =>
      obtain ⟨hp, rfl⟩ := hl
      exact List.mem_append_left _ (List.mem_map.mpr ⟨p, by simpa using hp, rfl⟩)
  have hle := (List.subperm_of_subset hA.nodup_lines hsubset).length_le
  rwa [List.length_append, List.length_map, List.length_map, ← hA.rowGroups.length_eq,
    ← hA.columnGroups.length_eq] at hle

end Groups

section Ranks

/-- Lines are visited in the order of this number. -/
def rank : ℕ × Line m → ℕ
  | (k, .column _) => 2 * k
  | (k, .row _) => 2 * k + 1

theorem rank_of_mem_block {k : ℕ} {l : ℕ × Line m} (h : l ∈ A.block k) :
    2 * k ≤ rank l ∧ rank l ≤ 2 * k + 1 := by
  rcases mem_block.mp h with ⟨_, _, _, rfl⟩ | ⟨_, _, rfl⟩ <;> simp [rank]

theorem pairwise_rank_block (A : Active m) (k : ℕ) :
    (A.block k).Pairwise fun l l' => rank l ≤ rank l' := by
  refine List.pairwise_append.mpr ⟨?_, ?_, ?_⟩
  · split
    · exact List.pairwise_map.mpr (List.pairwise_of_forall fun _ _ => le_rfl)
    · exact List.Pairwise.nil
  · exact List.pairwise_map.mpr (List.pairwise_of_forall fun _ _ => le_rfl)
  · intro l hl l' hl'
    obtain ⟨p, _, rfl⟩ := List.mem_map.mp hl'
    exact (rank_of_mem_block (A := A) (List.mem_append_left _ hl)).2

theorem pairwise_rank : A.lines.Pairwise fun l l' => rank l ≤ rank l' := by
  rw [lines_eq]
  refine List.pairwise_flatMap.mpr ⟨fun k _ => A.pairwise_rank_block k, ?_⟩
  refine (List.pairwise_lt_range' 1).imp ?_
  intro k k' hlt l hl l' hl'
  have h := (rank_of_mem_block hl).2
  have h' := (rank_of_mem_block hl').1
  omega

/-- The floor at a line that comes no later than a column with `c` values and a row with `r`. -/
theorem floorCost_le {l : ℕ × Line m} {r c : ℕ} (hc : rank l ≤ 2 * c) (hr : rank l ≤ 2 * r + 1) :
    floorCost l.1 l.2 ≤ (r - 1) * (c - 1) := by
  obtain ⟨k, line⟩ := l
  cases line with
  | column q =>
    simp only [rank] at hc hr
    exact Nat.mul_le_mul (by omega) (by omega)
  | row p =>
    simp only [rank] at hc hr
    rw [floorCost, mul_comm]
    exact Nat.mul_le_mul (by omega) (by omega)

theorem Valid.cost_of_mem_offers (hA : A.Valid) {l : ℕ × Line m} (hl : l ∈ A.lines)
    {offer : ℕ × Pivot m} (ho : offer ∈ A.offers l.1 l.2) :
    offer.1 = A.markowitzCost offer.2 := by
  rw [hA.markowitzCost_eq (hA.holds_offer hl ho)]
  obtain ⟨k, line⟩ := l
  obtain ⟨_, _, hl⟩ := hA.mem_lines.mp hl
  cases line with
  | column q =>
    obtain ⟨p, _, rfl⟩ := List.mem_map.mp ho
    rw [hl.2.2]
  | row p =>
    obtain ⟨q, _, rfl⟩ := List.mem_map.mp ho
    rw [hl.2, mul_comm]

/-- A value with others in its column is offered by the earlier one of its two lines. -/
theorem Valid.exists_offer (hA : A.Valid) {position : Pivot m} (h : A.Holds position)
    (hc : A.columnCount position.column ≠ 1) :
    ∃ l ∈ A.lines, (A.markowitzCost position, position) ∈ A.offers l.1 l.2 ∧
      rank l ≤ 2 * A.columnCount position.column ∧ rank l ≤ 2 * A.rowCount position.row + 1 := by
  obtain ⟨hrow, hcolumn⟩ := hA.counts_pos h
  have hle := hA.columnCount_le h.2.1
  have hcost := hA.markowitzCost_eq h
  obtain ⟨p, q⟩ := position
  obtain ⟨hp, hq, hs⟩ := h
  dsimp only at hc hrow hcolumn hle hcost ⊢
  by_cases hcr : A.columnCount q ≤ A.rowCount p
  · refine ⟨(A.columnCount q, .column q), hA.mem_lines.mpr ⟨hcolumn, hle, by omega, hq, rfl⟩, ?_,
      le_rfl, ?_⟩
    · rw [hcost]
      exact List.mem_map.mpr ⟨p, mem_rowsIn.mpr ((hA.mirrored p q hq).mpr ⟨hp, hs⟩), rfl⟩
    · change 2 * A.columnCount q ≤ _
      omega
  · refine ⟨(A.rowCount p, .row p), hA.mem_lines.mpr ⟨hrow, by omega, hp, rfl⟩, ?_, ?_, le_rfl⟩
    · rw [hcost, mul_comm]
      exact List.mem_map.mpr ⟨q, mem_columnsIn.mpr hs, rfl⟩
    · change 2 * A.rowCount p + 1 ≤ _
      omega

end Ranks

section Search

theorem cheapest_le {offers : List (ℕ × Pivot m)} {found : ℕ × Pivot m}
    (h : cheapest offers = some found) {offer : ℕ × Pivot m} (ho : offer ∈ offers) :
    found.1 ≤ offer.1 := by
  have hunbeaten : decide (offer.1 < found.1) = false := by
    refine firstBest_unbeaten ?_ ?_ h offer ho
    · intro a
      exact decide_eq_false (lt_irrefl a.1)
    · intro a b c hab hbc
      exact decide_eq_true (lt_trans (of_decide_eq_true hab) (of_decide_eq_true hbc))
  exact not_lt.mp (of_decide_eq_false hunbeaten)

theorem cheapest_append_le {best offers : List (ℕ × Pivot m)} {found : ℕ × Pivot m}
    (h : cheapest (best ++ (cheapest offers).toList) = some found) :
    (∀ offer ∈ best, found.1 ≤ offer.1) ∧ ∀ offer ∈ offers, found.1 ≤ offer.1 := by
  refine ⟨fun offer ho => cheapest_le h (List.mem_append_left _ ho), fun offer ho => ?_⟩
  cases hc : cheapest offers with
  | none => simp [firstBest_eq_none_iff.mp hc] at ho
  | some first =>
    rw [hc] at h
    exact (cheapest_le h (List.mem_append_right _ (by simp))).trans (cheapest_le hc ho)

/-- What the search finds undercuts its start and every offer of a line whose cost is no lower than the
floors up to that line, provided that the limit lets the search see all lines. -/
theorem search_le {limit : ℕ} {lines : List (ℕ × Line m)} {considered : ℕ}
    {best : Option (ℕ × Pivot m)} {found : ℕ × Pivot m}
    (h : A.search limit lines considered best = some found)
    (hlimit : considered + lines.length ≤ limit)
    (hsorted : lines.Pairwise fun l l' => rank l ≤ rank l') :
    (∀ start, best = some start → found.1 ≤ start.1) ∧
    ∀ l ∈ lines, ∀ offer ∈ A.offers l.1 l.2,
      (∀ l' : ℕ × Line m, rank l' ≤ rank l → floorCost l'.1 l'.2 ≤ offer.1) → found.1 ≤ offer.1 := by
  induction lines generalizing considered best with
  | nil =>
    refine ⟨fun start hs => ?_, fun l hl => absurd hl List.not_mem_nil⟩
    cases hs.symm.trans h
    exact le_rfl
  | cons first rest ih =>
    obtain ⟨k, line⟩ := first
    obtain ⟨hfirst, hsorted⟩ := List.pairwise_cons.mp hsorted
    rw [List.length_cons] at hlimit
    rw [search] at h
    split at h
    · next hnone =>
      obtain ⟨hbest, hoffers⟩ := List.append_eq_nil_iff.mp (firstBest_eq_none_iff.mp hnone)
      have hrest := ih h (by omega) hsorted
      refine ⟨fun start hs => ?_, fun l hl offer ho hfloor => ?_⟩
      · rw [hs] at hbest
        cases hbest
      · rcases List.mem_cons.mp hl with rfl | hl
        · rw [firstBest_eq_none_iff.mp (Option.toList_eq_nil_iff.mp hoffers)] at ho
          cases ho
        · exact hrest.2 l hl offer ho hfloor
    · next cheaper hcheaper =>
      obtain ⟨hbest, hoffers⟩ := cheapest_append_le hcheaper
      have hstart : ∀ start, best = some start → cheaper.1 ≤ start.1 := fun start hs =>
        hbest start (Option.mem_toList.mpr hs)
      split at h
      · next hstop =>
        cases h
        refine ⟨hstart, fun l hl offer ho hfloor => ?_⟩
        rcases List.mem_cons.mp hl with rfl | hl
        · exact hoffers offer ho
        · -- with a line left the limit cannot be what stopped the search
          have hlength := List.length_pos_of_mem hl
          have hle : found.1 ≤ floorCost k line := by
            simp only [Bool.or_eq_true, decide_eq_true_eq] at hstop
            omega
          exact hle.trans (hfloor (k, line) (hfirst l hl))
      · obtain ⟨hfound, hrest⟩ := ih h (by omega) hsorted
        have hle := hfound cheaper rfl
        refine ⟨fun start hs => hle.trans (hstart start hs), fun l hl offer ho hfloor => ?_⟩
        rcases List.mem_cons.mp hl with rfl | hl
        · exact hle.trans (hoffers offer ho)
        · exact hrest l hl offer ho hfloor

theorem Valid.markowitzCost_choosePivot_le (hA : A.Valid) {limit : ℕ}
    (hlimit : A.rowGroups.length + A.columnGroups.length ≤ limit) {position other : Pivot m}
    (h : A.choosePivot limit = some position) (ho : A.Holds other) :
    A.markowitzCost position ≤ A.markowitzCost other := by
  unfold choosePivot at h
  split at h
  · next found hf =>
    cases h
    rw [hA.markowitzCost_eq (hA.holds_singleton hf), hA.columnCount_singleton hf, Nat.sub_self,
      Nat.mul_zero]
    exact Nat.zero_le _
  · next hnone =>
    obtain ⟨found, hf, rfl⟩ := Option.map_eq_some_iff.mp h
    have hlength := hA.length_lines_le
    obtain ⟨l, hl, hoffer, hcolumn, hrow⟩ := hA.exists_offer ho (hA.columnCount_ne_one hnone ho)
    obtain ⟨_, hle⟩ := search_le hf (by omega) pairwise_rank
    have hcost : found.1 = A.markowitzCost found.2 := by
      rcases search_mem hf with hs | ⟨l', hl', ho'⟩
      · cases hs
      · exact hA.cost_of_mem_offers hl' ho'
    rw [← hcost]
    refine hle l hl _ hoffer fun l' hl' => ?_
    rw [hA.markowitzCost_eq ho]
    exact floorCost_le (hl'.trans hcolumn) (hl'.trans hrow)

end Search

section Reached
variable {columns : Vector (SparseVec m) m}

theorem Reached.valid (h : Reached columns A) (hc : ∀ j, ∀ e ∈ columns.get j, e.2 ≠ 0) :
    A.Valid := by
  induction h with
  | start => exact valid_ofColumns hc
  | pivot _ hp hB ih =>
    obtain ⟨hrow, hcolumn, hvalue⟩ := ih.nonzero_iff.mp hp
    obtain ⟨_, _, hpivot, hdone⟩ := ih.pivot hrow hcolumn hvalue
    cases hpivot.symm.trans hB
    exact hdone.valid

/-- In every active part that pivots on nonzero values lead to, a pivot is chosen exactly if a nonzero value is
left, it is on such a value, and if the limit is no lower than the number of lines, no nonzero value is
cheaper. -/
theorem Reached.choosePivot_cheapest (h : Reached columns A)
    (hc : ∀ j, ∀ e ∈ columns.get j, e.2 ≠ 0) (limit : ℕ) :
    (A.choosePivot limit = none ↔ ∀ position, ¬A.Nonzero position) ∧
    (∀ position, A.choosePivot limit = some position → A.Nonzero position) ∧
    (A.rowGroups.length + A.columnGroups.length ≤ limit →
      ∀ position, A.choosePivot limit = some position →
        ∀ other, A.Nonzero other → A.markowitzCost position ≤ A.markowitzCost other) := by
  have hA := h.valid hc
  refine ⟨⟨fun hnone position hp => ?_, fun hnone => ?_⟩,
    fun position hp => hA.nonzero_iff.mpr (hA.holds_choosePivot hp),
    fun hlimit position hp other ho =>
      hA.markowitzCost_choosePivot_le hlimit hp (hA.nonzero_iff.mp ho)⟩
  · obtain ⟨hrow, _, hvalue⟩ := hA.nonzero_iff.mp hp
    rw [hA.choosePivot_eq_none hnone hrow] at hvalue
    cases hvalue
  · cases hp : A.choosePivot limit with
    | none => rfl
    | some position => exact absurd (hA.nonzero_iff.mpr (hA.holds_choosePivot hp)) (hnone position)

/-- The pivot fills in the column that is chosen next, where the cost is lower than in the two columns with
three values. -/
theorem choosePivot_cheapest_of_filled_column :
    ∃ (B : Active 4) (multipliers : SparseVec 4),
      (ofColumns #v[[(0, 2), (1, 1)], [(1, 1), (2, 1), (3, 1)], [(0, 1), (2, 1)],
        [(1, 5), (2, 1), (3, 2)]]).pivot ⟨0, 0⟩ = some (B, multipliers) ∧
      B.choosePivot 6 = some ⟨1, 2⟩ ∧ B.Nonzero ⟨1, 2⟩ ∧ B.markowitzCost ⟨1, 2⟩ = 2 ∧
      B.markowitzCost ⟨1, 1⟩ = 4 ∧ ∀ other, B.Nonzero other → 2 ≤ B.markowitzCost other := by
  have hrun : (match (ofColumns (m := 4) #v[[(0, 2), (1, 1)], [(1, 1), (2, 1), (3, 1)],
        [(0, 1), (2, 1)], [(1, 5), (2, 1), (3, 2)]]).pivot ⟨0, 0⟩ with
      | some (B, _) => decide (B.choosePivot 6 = some ⟨1, 2⟩ ∧ B.markowitzCost ⟨1, 2⟩ = 2 ∧
          B.markowitzCost ⟨1, 1⟩ = 4 ∧ B.rowGroups.length + B.columnGroups.length ≤ 6)
      | none => false) = true := by decide +kernel
  split at hrun
  · next B multipliers hB =>
    obtain ⟨hchosen, hcost, hother, hlimit⟩ := of_decide_eq_true hrun
    have hreached := Reached.start.pivot (by decide +kernel) hB
    obtain ⟨_, hnonzero, hcheapest⟩ := hreached.choosePivot_cheapest (by decide) 6
    exact ⟨B, multipliers, hB, hchosen, hnonzero _ hchosen, hcost, hother,
      fun other ho => hcost ▸ hcheapest hlimit _ hchosen other ho⟩
  · cases hrun

end Reached

end ExactSimplex.Active
