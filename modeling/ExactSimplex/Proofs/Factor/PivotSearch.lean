import ExactSimplex.Factor.PivotSearch
import ExactSimplex.Proofs.Choice
import ExactSimplex.Proofs.Factor.Active

/-! # A pivot is found while a value is left

Whatever the search limit, the chosen position holds a stored value of an active row and column, and
no position is chosen only if no active row has a value.
-/
namespace ExactSimplex.Active
variable {m : ℕ} {A : Active m}

/-- The position holds a stored value in the active part. -/
def Holds (A : Active m) (position : Pivot m) : Prop :=
  A.rowGroups.contains position.row ∧ A.columnGroups.contains position.column ∧
    ((A.rows.get position.row).get position.column).isSome

theorem Valid.mem_rowGroup (hA : A.Valid) {p : Fin m} {k : ℕ} :
    p ∈ A.rowGroups.withCount k ↔ A.rowGroups.contains p ∧ A.rowCount p = k := by
  rw [hA.rowGroups.mem_withCount, CountGroups.contains, Option.isSome_iff_exists]
  constructor
  · rintro ⟨c, hc, rfl⟩
    exact ⟨⟨c, hc⟩, congrArg Fin.val (hA.row_count p c hc).symm⟩
  · rintro ⟨⟨c, hc⟩, hk⟩
    exact ⟨c, hc, (congrArg Fin.val (hA.row_count p c hc)).trans hk⟩

theorem Valid.mem_columnGroup (hA : A.Valid) {q : Fin m} {k : ℕ} :
    q ∈ A.columnGroups.withCount k ↔ A.columnGroups.contains q ∧ A.columnCount q = k := by
  rw [hA.columnGroups.mem_withCount, CountGroups.contains, Option.isSome_iff_exists]
  constructor
  · rintro ⟨c, hc, rfl⟩
    exact ⟨⟨c, hc⟩, congrArg Fin.val (hA.column_count q c hc).symm⟩
  · rintro ⟨⟨c, hc⟩, hk⟩
    exact ⟨c, hc, (congrArg Fin.val (hA.column_count q c hc)).trans hk⟩

/-- The lines with `k` values: the columns, from two values on, then the rows. -/
def block (A : Active m) (k : ℕ) : List (ℕ × Line m) :=
  (if 1 < k then (A.columnGroups.withCount k).map fun q => (k, .column q) else []) ++
    (A.rowGroups.withCount k).map fun p => (k, .row p)

theorem lines_eq (A : Active m) : A.lines = (List.range' 1 A.rowGroups.length).flatMap A.block := rfl

theorem mem_block {k : ℕ} {l : ℕ × Line m} :
    l ∈ A.block k ↔ (∃ q ∈ A.columnGroups.withCount k, 1 < k ∧ l = (k, .column q)) ∨
      ∃ p ∈ A.rowGroups.withCount k, l = (k, .row p) := by
  by_cases hk : 1 < k <;> simp [block, hk, eq_comm]

/-- The lines that are visited are the active columns with two values or more and the active rows with one
value or more. -/
theorem Valid.mem_lines (hA : A.Valid) {k : ℕ} {line : Line m} :
    (k, line) ∈ A.lines ↔ 1 ≤ k ∧ k ≤ A.rowGroups.length ∧
      match line with
      | .column q => 1 < k ∧ A.columnGroups.contains q ∧ A.columnCount q = k
      | .row p => A.rowGroups.contains p ∧ A.rowCount p = k := by
  simp only [lines_eq, List.mem_flatMap, List.mem_range'_1, mem_block, hA.mem_rowGroup,
    hA.mem_columnGroup]
  cases line with
  | column q =>
    constructor
    · rintro ⟨c, hc, ⟨q', hq, hk, he⟩ | ⟨p, _, he⟩⟩
      · cases he
        exact ⟨hc.1, by omega, hk, hq⟩
      · cases he
    · rintro ⟨h₁, h₂, hk, hq⟩
      exact ⟨k, ⟨h₁, by omega⟩, Or.inl ⟨q, hq, hk, rfl⟩⟩
  | row p =>
    constructor
    · rintro ⟨c, hc, ⟨q, _, _, he⟩ | ⟨p', hp, he⟩⟩
      · cases he
      · cases he
        exact ⟨hc.1, by omega, hp⟩
    · rintro ⟨h₁, h₂, hp⟩
      exact ⟨k, ⟨h₁, by omega⟩, Or.inr ⟨p, hp, rfl⟩⟩

theorem Valid.holds_of_mem_rowsIn (hA : A.Valid) {p q : Fin m} (hq : A.columnGroups.contains q)
    (hp : p ∈ A.rowsIn q) : A.Holds ⟨p, q⟩ := by
  obtain ⟨h₁, h₂⟩ := (hA.mirrored p q hq).mp (mem_rowsIn.mp hp)
  exact ⟨h₁, hq, h₂⟩

theorem Valid.holds_singleton (hA : A.Valid) {position : Pivot m}
    (h : A.singleton? = some position) : A.Holds position := by
  have hm := mem_of_firstBest h
  obtain ⟨q, hq, hpos⟩ := List.mem_filterMap.mp hm
  obtain ⟨p, hp, rfl⟩ := Option.map_eq_some_iff.mp hpos
  exact hA.holds_of_mem_rowsIn (hA.columnGroups.contains_of_mem hq) (List.mem_of_head? hp)

theorem Valid.holds_offer (hA : A.Valid) {k : ℕ} {line : Line m} (hl : (k, line) ∈ A.lines)
    {offer : ℕ × Pivot m} (ho : offer ∈ A.offers k line) : A.Holds offer.2 := by
  obtain ⟨_, _, hl⟩ := hA.mem_lines.mp hl
  cases line with
  | column q =>
    obtain ⟨p, hp, rfl⟩ := List.mem_map.mp ho
    exact hA.holds_of_mem_rowsIn hl.2.1 hp
  | row p =>
    obtain ⟨q, hq, rfl⟩ := List.mem_map.mp ho
    have hs : ((A.rows.get p).get q).isSome := by simpa [columnsIn] using hq
    exact ⟨hl.1, hA.column_active p q hl.1 hs, hs⟩

theorem mem_of_cheapest {best offers : List (ℕ × Pivot m)} {found : ℕ × Pivot m}
    (h : cheapest (best ++ (cheapest offers).toList) = some found) :
    found ∈ best ∨ found ∈ offers := by
  rcases List.mem_append.mp (mem_of_firstBest h) with hm | hm
  · exact Or.inl hm
  · exact Or.inr (mem_of_firstBest (Option.mem_toList.mp hm))

theorem search_mem {limit : ℕ} {lines : List (ℕ × Line m)} {considered : ℕ}
    {best : Option (ℕ × Pivot m)} {found : ℕ × Pivot m}
    (h : A.search limit lines considered best = some found) :
    best = some found ∨ ∃ l ∈ lines, found ∈ A.offers l.1 l.2 := by
  induction lines generalizing considered best with
  | nil => exact Or.inl h
  | cons l rest ih =>
    obtain ⟨k, line⟩ := l
    rw [search] at h
    split at h
    · rcases ih h with h | ⟨l, hl, ho⟩
      · cases h
      · exact Or.inr ⟨l, List.mem_cons_of_mem _ hl, ho⟩
    · next next hc =>
      have hnext : best = some next ∨ next ∈ A.offers k line := by
        rcases mem_of_cheapest hc with hm | hm
        · exact Or.inl (Option.mem_toList.mp hm)
        · exact Or.inr hm
      split at h
      · cases h
        exact hnext.imp_right fun ho => ⟨(k, line), List.mem_cons_self, ho⟩
      · rcases ih h with h | ⟨l, hl, ho⟩
        · cases h
          exact hnext.imp_right fun ho => ⟨(k, line), List.mem_cons_self, ho⟩
        · exact Or.inr ⟨l, List.mem_cons_of_mem _ hl, ho⟩

theorem Valid.holds_choosePivot (hA : A.Valid) {limit : ℕ} {position : Pivot m}
    (h : A.choosePivot limit = some position) : A.Holds position := by
  unfold choosePivot at h
  split at h
  · next found hf =>
    cases h
    exact hA.holds_singleton hf
  · obtain ⟨found, hf, rfl⟩ := Option.map_eq_some_iff.mp h
    rcases search_mem hf with h | ⟨l, hl, ho⟩
    · cases h
    · exact hA.holds_offer hl ho

theorem search_eq_none {limit : ℕ} {lines : List (ℕ × Line m)} {considered : ℕ}
    {best : Option (ℕ × Pivot m)} (h : A.search limit lines considered best = none) :
    best = none ∧ ∀ l ∈ lines, A.offers l.1 l.2 = [] := by
  induction lines generalizing considered best with
  | nil => exact ⟨h, fun l hl => absurd hl List.not_mem_nil⟩
  | cons l rest ih =>
    obtain ⟨k, line⟩ := l
    rw [search] at h
    split at h
    · next hc =>
      have he := List.append_eq_nil_iff.mp (firstBest_eq_none_iff.mp hc)
      refine ⟨Option.toList_eq_nil_iff.mp he.1, fun l hl => ?_⟩
      rcases List.mem_cons.mp hl with rfl | hl
      · exact firstBest_eq_none_iff.mp (Option.toList_eq_nil_iff.mp he.2)
      · exact (ih h).2 l hl
    · split at h
      · cases h
      · exact absurd (ih h).1 (by simp)

theorem Valid.columnCount_le (hA : A.Valid) {q : Fin m} (hq : A.columnGroups.contains q) :
    A.columnCount q ≤ A.rowGroups.length := by
  change (A.columns.get q).countP id ≤ A.rowGroups.length
  rw [hA.rowGroups.length_eq, countP_eq_finRange, ← List.countP_eq_length_filter]
  exact List.countP_mono_left fun i _ hi => ((hA.mirrored i q hq).mp hi).1

theorem Valid.columnCount_singleton (hA : A.Valid) {position : Pivot m}
    (h : A.singleton? = some position) : A.columnCount position.column = 1 := by
  obtain ⟨q, hq, hposition⟩ := List.mem_filterMap.mp (mem_of_firstBest h)
  obtain ⟨p, _, rfl⟩ := Option.map_eq_some_iff.mp hposition
  exact (hA.mem_columnGroup.mp hq).2

theorem Valid.columnCount_ne_one (hA : A.Valid) (hnone : A.singleton? = none) {position : Pivot m}
    (h : A.Holds position) : A.columnCount position.column ≠ 1 := by
  intro hone
  -- the only row in such a column would have been offered
  have hnil := firstBest_eq_none_iff.mp hnone
  rw [List.filterMap_eq_nil_iff] at hnil
  have hhead := Option.map_eq_none_iff.mp (hnil _ (hA.mem_columnGroup.mpr ⟨h.2.1, hone⟩))
  have hmem : position.row ∈ A.rowsIn position.column :=
    mem_rowsIn.mpr ((hA.mirrored _ _ h.2.1).mpr ⟨h.1, h.2.2⟩)
  rw [List.head?_eq_none_iff.mp hhead] at hmem
  cases hmem

theorem Valid.choosePivot_eq_none (hA : A.Valid) {limit : ℕ} (h : A.choosePivot limit = none)
    {i : Fin m} (hi : A.rowGroups.contains i) (j : Fin m) : (A.rows.get i).get j = none := by
  by_contra hne
  have hs : ((A.rows.get i).get j).isSome := Option.isSome_iff_ne_none.mpr hne
  have hj := hA.column_active i j hi hs
  have hholds : A.Holds ⟨i, j⟩ := ⟨hi, hj, hs⟩
  have hmem : i ∈ A.rowsIn j := mem_rowsIn.mpr ((hA.mirrored i j hj).mpr ⟨hi, hs⟩)
  unfold choosePivot at h
  split at h
  · cases h
  · next hsingle =>
    have hone : A.columnCount j ≠ 1 := hA.columnCount_ne_one hsingle hholds
    have hpos : 0 < A.columnCount j := memberCount_pos (mem_rowsIn.mp hmem)
    have hline : (A.columnCount j, Line.column j) ∈ A.lines :=
      hA.mem_lines.mpr ⟨hpos, hA.columnCount_le hj, by omega, hj, rfl⟩
    have hnone := (search_eq_none (Option.map_eq_none_iff.mp h)).2 _ hline
    rw [List.map_eq_nil_iff.mp hnone] at hmem
    cases hmem

end ExactSimplex.Active
