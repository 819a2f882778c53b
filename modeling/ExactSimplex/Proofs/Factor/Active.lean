import Mathlib.Data.Matrix.Basic
import ExactSimplex.Factor.Active
import ExactSimplex.Proofs.Factor.CountGroups

/-! # The active part stays mirrored and counted

No stored value is zero, active rows only have values in active columns, the sets of active columns
mirror the active rows, and every active line is in the group of its count. A pivot on a stored
value of an active row and column always succeeds, keeps all of this, and changes the matrix of
stored values by adding the recorded multiples of the pivot row.
-/
namespace ExactSimplex.Active
variable {m : ℕ}

/-- The stored value at a position, zero if there is none. -/
def value (A : Active m) (i j : Fin m) : ℚ := ((A.rows.get i).get j).getD 0

structure Valid (A : Active m) : Prop where
  rowGroups : A.rowGroups.Valid
  columnGroups : A.columnGroups.Valid
  row_count : ∀ i c, A.rowGroups.count.get i = some c → c = valueCount (A.rows.get i)
  column_count : ∀ j c, A.columnGroups.count.get j = some c → c = memberCount (A.columns.get j)
  ne_zero : ∀ i j v, (A.rows.get i).get j = some v → v ≠ 0
  column_active : ∀ i j, A.rowGroups.contains i → ((A.rows.get i).get j).isSome →
    A.columnGroups.contains j
  mirrored : ∀ i j, A.columnGroups.contains j →
    ((A.columns.get j).get i = true ↔ A.rowGroups.contains i ∧ ((A.rows.get i).get j).isSome)

theorem value_of_some {A : Active m} {i j : Fin m} {v : ℚ} (h : (A.rows.get i).get j = some v) :
    A.value i j = v := by
  rw [value, h, Option.getD_some]

theorem mem_columnsIn {A : Active m} {i j : Fin m} :
    j ∈ A.columnsIn i ↔ ((A.rows.get i).get j).isSome := by
  simp [columnsIn]

theorem mem_rowsIn {A : Active m} {j i : Fin m} : i ∈ A.rowsIn j ↔ (A.columns.get j).get i = true := by
  simp [rowsIn]

theorem mem_othersIn {A : Active m} {p q : Fin m} {e : Fin m × ℚ} :
    e ∈ A.othersIn p q ↔ e.1 ≠ q ∧ (A.rows.get p).get e.1 = some e.2 := by
  obtain ⟨j, v⟩ := e
  simp only [othersIn, List.mem_filterMap, List.mem_finRange, true_and]
  constructor
  · rintro ⟨k, hk⟩
    split at hk
    · cases hk
    · next hne =>
      obtain ⟨w, hw, he⟩ := Option.map_eq_some_iff.mp hk
      cases he
      exact ⟨hne, hw⟩
  · rintro ⟨hne, hv⟩
    exact ⟨j, by rw [if_neg hne, hv]; rfl⟩

theorem keys_othersIn_nodup (A : Active m) (p q : Fin m) :
    (SparseVec.keys (A.othersIn p q)).Nodup := by
  have h : (SparseVec.keys (A.othersIn p q)).Sublist (List.finRange m) := by
    unfold SparseVec.keys othersIn
    generalize List.finRange m = l
    induction l with
    | nil => simp
    | cons j l ih =>
      rw [List.filterMap_cons]
      split
      · exact ih.cons j
      · next e he =>
        split at he
        · cases he
        · obtain ⟨w, _, rfl⟩ := Option.map_eq_some_iff.mp he
          exact ih.cons_cons j
  exact (List.nodup_finRange m).sublist h

theorem mem_keys_othersIn {A : Active m} {p q j : Fin m} :
    j ∈ SparseVec.keys (A.othersIn p q) ↔ j ≠ q ∧ ((A.rows.get p).get j).isSome := by
  rw [SparseVec.mem_keys]
  constructor
  · rintro ⟨v, hv⟩
    have h := mem_othersIn.mp hv
    exact ⟨h.1, by rw [h.2]; rfl⟩
  · rintro ⟨hne, hv⟩
    obtain ⟨v, hv⟩ := Option.isSome_iff_exists.mp hv
    exact ⟨v, mem_othersIn.mpr ⟨hne, hv⟩⟩

theorem coeff_othersIn (A : Active m) (p q j : Fin m) :
    SparseVec.coeff (A.othersIn p q) j = if j = q then 0 else A.value p j := by
  by_cases hk : j ∈ SparseVec.keys (A.othersIn p q)
  · obtain ⟨v, hv⟩ := SparseVec.mem_keys.mp hk
    have h := mem_othersIn.mp hv
    rw [SparseVec.coeff_of_mem (keys_othersIn_nodup A p q) hv, if_neg h.1, value_of_some h.2]
  · rw [SparseVec.coeff_eq_zero hk]
    split
    · rfl
    · next hne =>
      have hnone : (A.rows.get p).get j = none := by
        by_contra h
        exact hk (mem_keys_othersIn.mpr ⟨hne, Option.isSome_iff_ne_none.mpr h⟩)
      rw [value, hnone, Option.getD_none]

/-- What adding to a stored value leaves. -/
def accumulate : Option ℚ → ℚ → Option ℚ
  | none, change => some change
  | some v, change => if v + change = 0 then none else some (v + change)

/-- A row without its value in the pivot column, plus a multiple of the rest of the pivot row. -/
def combine (row : Vector (Option ℚ) m) (q : Fin m) (ratio : ℚ) (others : SparseVec m) :
    Vector (Option ℚ) m :=
  others.foldl (fun row e => put row e.1 (accumulate (row.get e.1) (ratio * e.2))) (put row q none)

theorem getD_accumulate (o : Option ℚ) (change : ℚ) :
    (accumulate o change).getD 0 = o.getD 0 + change := by
  cases o with
  | none => simp [accumulate]
  | some v =>
    rw [accumulate]
    split
    · next h => rw [Option.getD_none, Option.getD_some, h]
    · rfl

theorem accumulate_ne_zero {o : Option ℚ} {change v : ℚ} (hc : change ≠ 0)
    (h : accumulate o change = some v) : v ≠ 0 := by
  cases o with
  | none =>
    cases h
    exact hc
  | some w =>
    rw [accumulate] at h
    split at h
    · cases h
    · next hne =>
      cases h
      exact hne

theorem get_foldl_accumulate {others : SparseVec m} (hn : (SparseVec.keys others).Nodup) (ratio : ℚ)
    (row : Vector (Option ℚ) m) (j : Fin m) :
    (others.foldl (fun row e => put row e.1 (accumulate (row.get e.1) (ratio * e.2))) row).get j =
      if j ∈ SparseVec.keys others then accumulate (row.get j) (ratio * SparseVec.coeff others j)
      else row.get j := by
  induction others generalizing row with
  | nil => simp
  | cons e others ih =>
    rw [SparseVec.keys_cons, List.nodup_cons] at hn
    rw [List.foldl_cons, ih hn.2, get_put, SparseVec.coeff_cons]
    have hcons : j ∈ SparseVec.keys (e :: others) ↔ e.1 = j ∨ j ∈ SparseVec.keys others := by
      simp [eq_comm]
    by_cases hj : e.1 = j
    · subst hj
      have hz : SparseVec.coeff others e.1 = 0 := SparseVec.coeff_eq_zero hn.1
      rw [if_neg hn.1, if_pos rfl, if_pos (hcons.mpr (Or.inl rfl)), if_pos rfl, hz, add_zero]
    · simp only [hcons, hj, false_or, if_false, zero_add]

theorem get_combine {row : Vector (Option ℚ) m} {q : Fin m} {ratio : ℚ} {others : SparseVec m}
    (hn : (SparseVec.keys others).Nodup) (j : Fin m) :
    (combine row q ratio others).get j =
      if j ∈ SparseVec.keys others then
        accumulate (if q = j then none else row.get j) (ratio * SparseVec.coeff others j)
      else if q = j then none else row.get j := by
  rw [combine, get_foldl_accumulate hn, get_put]

section AddValue
variable (i : Fin m) (ratio : ℚ) (row : Vector (Option ℚ) m) (columns : Vector (Vector Bool m) m)

theorem addValue_fst (e : Fin m × ℚ) : (addValue i ratio (row, columns) e).1 =
    put row e.1 (accumulate (row.get e.1) (ratio * e.2)) := by
  rw [addValue]
  cases row.get e.1 with
  | none => rfl
  | some v =>
    simp only [accumulate]
    split <;> rfl

/-- The set of the column keeps its member, loses it or gets a new one. -/
theorem get_addValue_snd {e : Fin m × ℚ} (h : (columns.get e.1).get i = (row.get e.1).isSome)
    (j k : Fin m) : ((addValue i ratio (row, columns) e).2.get j).get k =
      if e.1 = j ∧ i = k then (accumulate (row.get e.1) (ratio * e.2)).isSome
      else (columns.get j).get k := by
  have hput : ∀ b, ((put columns e.1 (put (columns.get e.1) i b)).get j).get k =
      if e.1 = j ∧ i = k then b else (columns.get j).get k := by
    intro b
    rw [get_put]
    by_cases hj : e.1 = j
    · subst hj
      rw [if_pos rfl, get_put]
      simp only [true_and]
    · rw [if_neg hj, if_neg fun h => hj h.1]
  rw [addValue]
  cases hrow : row.get e.1 with
  | none => exact hput true
  | some v =>
    simp only [accumulate]
    split
    · exact hput false
    · rw [hrow] at h
      split
      · next hjk => rw [← hjk.1, ← hjk.2, h]; rfl
      · rfl

theorem foldl_addValue_fst (others : SparseVec m) :
    (others.foldl (addValue i ratio) (row, columns)).1 =
      others.foldl (fun row e => put row e.1 (accumulate (row.get e.1) (ratio * e.2))) row := by
  induction others generalizing row columns with
  | nil => rfl
  | cons e others ih =>
    rw [List.foldl_cons, List.foldl_cons, ← addValue_fst i ratio row columns e]
    exact ih _ _

/-- After all values the sets say where row `i` has a value now, if they did so before. -/
theorem get_foldl_addValue_snd {others : SparseVec m} (hn : (SparseVec.keys others).Nodup)
    (h : ∀ j ∈ SparseVec.keys others, (columns.get j).get i = (row.get j).isSome) (j k : Fin m) :
    ((others.foldl (addValue i ratio) (row, columns)).2.get j).get k =
      if j ∈ SparseVec.keys others ∧ i = k then
        ((others.foldl (addValue i ratio) (row, columns)).1.get j).isSome
      else (columns.get j).get k := by
  induction others generalizing row columns with
  | nil => simp
  | cons e others ih =>
    rw [SparseVec.keys_cons, List.nodup_cons] at hn
    have he := get_addValue_snd i ratio row columns (h e.1 List.mem_cons_self)
    have hrest : ∀ l ∈ SparseVec.keys others, ((addValue i ratio (row, columns) e).2.get l).get i =
        ((addValue i ratio (row, columns) e).1.get l).isSome := by
      intro l hl
      have hne : e.1 ≠ l := fun hel => hn.1 (hel ▸ hl)
      rw [he, if_neg fun h => hne h.1, addValue_fst, get_put, if_neg hne]
      exact h l (List.mem_cons_of_mem e.1 hl)
    rw [List.foldl_cons, ih _ _ hn.2 hrest, he, SparseVec.keys_cons]
    by_cases hj : e.1 = j
    · subst hj
      rw [if_neg fun h => hn.1 h.1, foldl_addValue_fst, get_foldl_accumulate hn.2, if_neg hn.1,
        addValue_fst, get_put, if_pos rfl]
      simp
    · simp [hj, Ne.symm hj]

end AddValue

theorem memberCount_pos {column : Vector Bool m} {i : Fin m} (h : column.get i = true) :
    0 < (memberCount column).val := by
  apply Vector.countP_pos_iff.mpr
  exact ⟨true, h ▸ Vector.getElem_mem i.isLt, rfl⟩

/-- The multiple of row `p` that clears row `i` in column `q`. -/
def ratio (A : Active m) (p q i : Fin m) : ℚ := -A.value i q / A.value p q

/-- The state in which some targets of a pivot on `(p, q)` are still to be cleared. -/
structure Clearing (A : Active m) (p q : Fin m) (pending : List (Fin m)) (C : Active m)
    (multipliers : SparseVec m) : Prop where
  rowGroups : C.rowGroups.Valid
  contains_row : ∀ i, C.rowGroups.contains i = if p = i then false else A.rowGroups.contains i
  columnGroups_eq : C.columnGroups = A.columnGroups.remove q
  row_count : ∀ i c, C.rowGroups.count.get i = some c → c = valueCount (C.rows.get i)
  ne_zero : ∀ i j v, (C.rows.get i).get j = some v → v ≠ 0
  kept : ∀ i, A.rowGroups.contains i = false ∨ i = p ∨ i ∈ pending → C.rows.get i = A.rows.get i
  cleared : ∀ i, C.rowGroups.contains i → i ∉ pending → (C.rows.get i).get q = none
  column_active : ∀ i j, C.rowGroups.contains i → ((C.rows.get i).get j).isSome →
    A.columnGroups.contains j
  mirrored : ∀ i j, j ≠ q → A.columnGroups.contains j →
    ((C.columns.get j).get i = true ↔ C.rowGroups.contains i ∧ ((C.rows.get i).get j).isSome)
  columns_kept : ∀ j, j ≠ q → j ∉ SparseVec.keys (A.othersIn p q) →
    C.columns.get j = A.columns.get j
  value_eq : ∀ i j, C.value i j = A.value i j + SparseVec.coeff multipliers i * A.value p j
  keys_cleared : ∀ i ∈ SparseVec.keys multipliers, A.rowGroups.contains i ∧ i ≠ p ∧ i ∉ pending

section Pivot
variable {A : Active m} {p q : Fin m}

theorem getD_combine (A : Active m) (row : Vector (Option ℚ) m) {pivotValue v : ℚ}
    (hp : (A.rows.get p).get q = some pivotValue) (hpv : pivotValue ≠ 0)
    (hv : row.get q = some v) (j : Fin m) :
    ((combine row q (-v / pivotValue) (A.othersIn p q)).get j).getD 0 =
      (row.get j).getD 0 + -v / pivotValue * A.value p j := by
  rw [get_combine (keys_othersIn_nodup A p q)]
  by_cases hj : q = j
  · subst hj
    have hq : q ∉ SparseVec.keys (A.othersIn p q) := fun h => (mem_keys_othersIn.mp h).1 rfl
    rw [if_neg hq, if_pos rfl, hv, value_of_some hp, Option.getD_none, Option.getD_some,
      div_mul_cancel₀ _ hpv]
    ring
  · rw [if_neg hj]
    split
    · rw [getD_accumulate, coeff_othersIn, if_neg (Ne.symm hj)]
    · next hk =>
      have hz := SparseVec.coeff_eq_zero hk
      rw [coeff_othersIn, if_neg (Ne.symm hj)] at hz
      rw [hz, mul_zero, add_zero]

theorem combine_ne_zero (hA : A.Valid) {row : Vector (Option ℚ) m}
    (hrow : ∀ j v, row.get j = some v → v ≠ 0) {ratio : ℚ} (hr : ratio ≠ 0) (j : Fin m) (v : ℚ)
    (h : (combine row q ratio (A.othersIn p q)).get j = some v) : v ≠ 0 := by
  rw [get_combine (keys_othersIn_nodup A p q)] at h
  split at h
  · next hk =>
    refine accumulate_ne_zero (mul_ne_zero hr ?_) h
    obtain ⟨w, hw⟩ := SparseVec.mem_keys.mp hk
    rw [SparseVec.coeff_of_mem (keys_othersIn_nodup A p q) hw]
    exact hA.ne_zero p j w (mem_othersIn.mp hw).2
  · split at h
    · cases h
    · exact hrow j v h

/-- The active part with row `i` cleared by a multiple of row `p`. -/
def clearedAt (A C : Active m) (p q i : Fin m) (ratio : ℚ) : Active m :=
  let cleared := (A.othersIn p q).foldl (addValue i ratio) (put (C.rows.get i) q none, C.columns)
  { C with
    rows := put C.rows i cleared.1
    columns := cleared.2
    rowGroups := C.rowGroups.update i (valueCount cleared.1) }

section ClearedAt
variable (A C : Active m) (p q i : Fin m) (ratio : ℚ)

theorem get_rows_clearedAt (k : Fin m) : (clearedAt A C p q i ratio).rows.get k =
    if i = k then combine (C.rows.get i) q ratio (A.othersIn p q) else C.rows.get k := by
  rw [clearedAt, get_put, foldl_addValue_fst, combine]

theorem contains_clearedAt (hi : C.rowGroups.contains i) (k : Fin m) :
    (clearedAt A C p q i ratio).rowGroups.contains k = C.rowGroups.contains k := by
  refine (CountGroups.contains_update _ _ _ _).trans ?_
  split
  · next hik => rw [← hik, hi]
  · rfl

variable {A C p q i} in
theorem get_columns_clearedAt (h : ∀ j ∈ SparseVec.keys (A.othersIn p q),
      (C.columns.get j).get i = ((C.rows.get i).get j).isSome) (j k : Fin m) :
    ((clearedAt A C p q i ratio).columns.get j).get k =
      if j ∈ SparseVec.keys (A.othersIn p q) ∧ i = k then
        ((combine (C.rows.get i) q ratio (A.othersIn p q)).get j).isSome
      else (C.columns.get j).get k := by
  rw [combine, ← foldl_addValue_fst i ratio _ C.columns]
  refine get_foldl_addValue_snd i ratio _ C.columns (keys_othersIn_nodup A p q) (fun l hl => ?_) j k
  rw [get_put, if_neg (Ne.symm (mem_keys_othersIn.mp hl).1)]
  exact h l hl

variable {A C p q i} in
theorem columns_clearedAt_eq (h : ∀ j ∈ SparseVec.keys (A.othersIn p q),
      (C.columns.get j).get i = ((C.rows.get i).get j).isSome) {j : Fin m}
    (hj : j ∉ SparseVec.keys (A.othersIn p q)) :
    (clearedAt A C p q i ratio).columns.get j = C.columns.get j := by
  apply table_ext
  intro k
  rw [get_columns_clearedAt ratio h, if_neg fun h => hj h.1]

theorem row_count_clearedAt (hC : ∀ k c, C.rowGroups.count.get k = some c →
      c = valueCount (C.rows.get k)) (k : Fin m) (c : Fin (m + 1))
    (hc : (clearedAt A C p q i ratio).rowGroups.count.get k = some c) :
    c = valueCount ((clearedAt A C p q i ratio).rows.get k) := by
  rw [get_rows_clearedAt]
  simp only [clearedAt, CountGroups.count_update, foldl_addValue_fst] at hc
  by_cases hik : i = k
  · rw [if_pos hik] at hc ⊢
    exact (Option.some.inj hc).symm
  · rw [if_neg hik] at hc ⊢
    exact hC k c hc

theorem get_combine_pivot (row : Vector (Option ℚ) m) :
    (combine row q ratio (A.othersIn p q)).get q = none := by
  rw [get_combine (keys_othersIn_nodup A p q), if_neg fun h => (mem_keys_othersIn.mp h).1 rfl,
    if_pos rfl]

theorem isSome_combine {row : Vector (Option ℚ) m} {j : Fin m}
    (h : ((combine row q ratio (A.othersIn p q)).get j).isSome) :
    ((A.rows.get p).get j).isSome ∨ (row.get j).isSome := by
  rw [get_combine (keys_othersIn_nodup A p q)] at h
  split at h
  · next hj => exact Or.inl (mem_keys_othersIn.mp hj).2
  · split at h
    · cases h
    · exact Or.inr h

end ClearedAt

theorem Clearing.step (hA : A.Valid) {pivotValue : ℚ} (hp : (A.rows.get p).get q = some pivotValue)
    (hpa : A.rowGroups.contains p) {i : Fin m} {pending : List (Fin m)} {C : Active m}
    {multipliers : SparseVec m} (hC : Clearing A p q (i :: pending) C multipliers)
    (hi : i ∉ pending) (hip : i ≠ p) (hia : A.rowGroups.contains i)
    (hiq : ((A.rows.get i).get q).isSome) :
    ∃ D, clear q pivotValue (A.othersIn p q) (C, multipliers) i =
        some (D, multipliers ++ [(i, A.ratio p q i)]) ∧
      Clearing A p q pending D (multipliers ++ [(i, A.ratio p q i)]) := by
  obtain ⟨v, hv⟩ := Option.isSome_iff_exists.mp hiq
  have hpv : pivotValue ≠ 0 := hA.ne_zero p q pivotValue hp
  have hv0 : v ≠ 0 := hA.ne_zero i q v hv
  have hrow : C.rows.get i = A.rows.get i := hC.kept i (Or.inr (Or.inr List.mem_cons_self))
  have hratio : -v / pivotValue ≠ 0 := div_ne_zero (neg_ne_zero.mpr hv0) hpv
  have hCi : C.rowGroups.contains i = true := by
    rw [hC.contains_row, if_neg (Ne.symm hip), hia]
  have hcoeff : SparseVec.coeff multipliers i = 0 :=
    SparseVec.coeff_eq_zero fun h => (hC.keys_cleared i h).2.2 List.mem_cons_self
  -- the columns of the pivot row are active, so their sets tell where row `i` has values
  have hsets : ∀ j ∈ SparseVec.keys (A.othersIn p q),
      (C.columns.get j).get i = ((C.rows.get i).get j).isSome := by
    intro j hj
    obtain ⟨hjq, hs⟩ := mem_keys_othersIn.mp hj
    rw [Bool.eq_iff_iff, hC.mirrored i j hjq (hA.column_active p j hpa hs), hCi]
    exact and_iff_right rfl
  rw [ratio, value_of_some hv, value_of_some hp]
  refine ⟨clearedAt A C p q i (-v / pivotValue), ?_, ?_⟩
  · simp only [clear, hrow, hv, multiplier?, if_neg hv0, divide?, if_neg hpv, Option.map_some,
      clearedAt]
  constructor
  case rowGroups => exact hC.rowGroups.update i _
  case contains_row => exact fun k => (contains_clearedAt A C p q i _ hCi k).trans (hC.contains_row k)
  case columnGroups_eq => exact hC.columnGroups_eq
  case row_count => exact row_count_clearedAt A C p q i _ hC.row_count
  case ne_zero =>
    intro k j w hw
    rw [get_rows_clearedAt] at hw
    by_cases hik : i = k
    · rw [if_pos hik] at hw
      exact combine_ne_zero hA (hC.ne_zero i) hratio j w hw
    · rw [if_neg hik] at hw
      exact hC.ne_zero k j w hw
  case kept =>
    intro k hk
    have hik : i ≠ k := by
      rintro rfl
      rcases hk with hk | hk | hk
      · rw [hia] at hk
        cases hk
      · exact hip hk
      · exact hi hk
    rw [get_rows_clearedAt, if_neg hik]
    exact hC.kept k (hk.imp_right fun h => h.imp_right (List.mem_cons_of_mem i))
  case cleared =>
    intro k hk hkp
    rw [get_rows_clearedAt]
    by_cases hik : i = k
    · rw [if_pos hik, get_combine_pivot]
    · rw [if_neg hik]
      rw [contains_clearedAt A C p q i _ hCi] at hk
      refine hC.cleared k hk fun h => ?_
      exact (List.mem_cons.mp h).elim (fun h => hik h.symm) hkp
  case column_active =>
    intro k j hk hs
    rw [get_rows_clearedAt] at hs
    rw [contains_clearedAt A C p q i _ hCi] at hk
    by_cases hik : i = k
    · subst hik
      rw [if_pos rfl] at hs
      rcases isSome_combine A p q _ hs with hj | hj
      · exact hA.column_active p j hpa hj
      · exact hC.column_active i j hk hj
    · rw [if_neg hik] at hs
      exact hC.column_active k j hk hs
  case mirrored =>
    intro k j hjq hj
    rw [get_rows_clearedAt, contains_clearedAt A C p q i _ hCi,
      get_columns_clearedAt _ hsets]
    by_cases hik : i = k
    · subst hik
      rw [if_pos rfl]
      by_cases hjk : j ∈ SparseVec.keys (A.othersIn p q)
      · rw [if_pos ⟨hjk, rfl⟩]
        simp [hCi]
      · rw [if_neg fun h => hjk h.1, hC.mirrored i j hjq hj,
          get_combine (keys_othersIn_nodup A p q), if_neg hjk, if_neg (Ne.symm hjq)]
    · rw [if_neg hik, if_neg fun h => hik h.2]
      exact hC.mirrored k j hjq hj
  case columns_kept =>
    exact fun j hjq hj => (columns_clearedAt_eq _ hsets hj).trans (hC.columns_kept j hjq hj)
  case value_eq =>
    intro k j
    rw [SparseVec.coeff_append, value, get_rows_clearedAt]
    by_cases hik : i = k
    · subst hik
      rw [if_pos rfl, hcoeff, hrow, getD_combine A _ hp hpv hv]
      simp [value]
    · rw [if_neg hik]
      have h := hC.value_eq k j
      simp only [value] at h ⊢
      simp [h, hik]
  case keys_cleared =>
    intro k hk
    rw [SparseVec.keys_append, List.mem_append] at hk
    rcases hk with hk | hk
    · obtain ⟨h₁, h₂, h₃⟩ := hC.keys_cleared k hk
      exact ⟨h₁, h₂, fun h => h₃ (List.mem_cons_of_mem i h)⟩
    · rw [List.mem_singleton.mp hk]
      exact ⟨hia, hip, hi⟩

theorem Clearing.run (hA : A.Valid) {pivotValue : ℚ} (hp : (A.rows.get p).get q = some pivotValue)
    (hpa : A.rowGroups.contains p) {pending : List (Fin m)} (hn : pending.Nodup)
    (ht : ∀ i ∈ pending, i ≠ p ∧ A.rowGroups.contains i ∧ ((A.rows.get i).get q).isSome)
    {C : Active m} {multipliers : SparseVec m} (hC : Clearing A p q pending C multipliers) :
    ∃ D, pending.foldlM (clear q pivotValue (A.othersIn p q)) (C, multipliers) =
        some (D, multipliers ++ pending.map fun i => (i, A.ratio p q i)) ∧
      Clearing A p q [] D (multipliers ++ pending.map fun i => (i, A.ratio p q i)) := by
  induction pending generalizing C multipliers with
  | nil =>
    rw [List.map_nil, List.append_nil]
    exact ⟨C, rfl, hC⟩
  | cons i pending ih =>
    obtain ⟨hi, hn⟩ := List.nodup_cons.mp hn
    obtain ⟨hip, hia, hiq⟩ := ht i List.mem_cons_self
    obtain ⟨D, hs, hD⟩ := hC.step hA hp hpa hi hip hia hiq
    obtain ⟨G, hr, hG⟩ := ih hn (fun k hk => ht k (List.mem_cons_of_mem i hk)) hD
    rw [List.map_cons, List.append_cons]
    exact ⟨G, by rw [List.foldlM_cons, hs]; exact hr, hG⟩

/-- The sets of the columns without the pivot row. -/
def withoutRow (A : Active m) (p : Fin m) : Vector (Vector Bool m) m :=
  (A.columnsIn p).foldl (fun columns j => put columns j (put (columns.get j) p false)) A.columns

theorem get_withoutRow (A : Active m) (p i j : Fin m) : ((A.withoutRow p).get j).get i =
    if ((A.rows.get p).get j).isSome ∧ p = i then false else (A.columns.get j).get i := by
  have hfold : ∀ (l : List (Fin m)) (columns : Vector (Vector Bool m) m),
      ((l.foldl (fun columns j => put columns j (put (columns.get j) p false)) columns).get j).get i =
        if j ∈ l ∧ p = i then false else (columns.get j).get i := by
    intro l
    induction l with
    | nil => simp
    | cons k l ih =>
      intro columns
      rw [List.foldl_cons, ih, get_put]
      by_cases hk : k = j
      · subst hk
        by_cases hi : p = i <;> simp [hi]
      · simp [hk, Ne.symm hk]
  rw [withoutRow, hfold]
  simp only [mem_columnsIn]

/-- The state before any target has been cleared. -/
def beforeClearing (A : Active m) (p q : Fin m) : Active m :=
  { A with
    columns := put (A.withoutRow p) q (Vector.replicate m false)
    rowGroups := A.rowGroups.remove p
    columnGroups := A.columnGroups.remove q }

theorem get_columns_beforeClearing (A : Active m) {p q j : Fin m} (hj : j ≠ q) :
    (A.beforeClearing p q).columns.get j = (A.withoutRow p).get j := by
  rw [beforeClearing, get_put, if_neg (Ne.symm hj)]

/-- The pivot row is no target. -/
theorem filter_withoutRow (hpq : ((A.rows.get p).get q).isSome) :
    ((List.finRange m).filter fun i => ((A.withoutRow p).get q).get i) =
      (A.rowsIn q).filter fun i => i ≠ p := by
  rw [rowsIn, List.filter_filter]
  refine List.filter_congr fun i _ => ?_
  rw [get_withoutRow]
  by_cases hi : p = i
  · simp [hi, hi ▸ hpq]
  · simp [hi, Ne.symm hi]

theorem Clearing.start (hA : A.Valid) (hqa : A.columnGroups.contains q) :
    Clearing A p q ((A.rowsIn q).filter fun i => i ≠ p) (A.beforeClearing p q) [] := by
  have hcontains : ∀ i, (A.rowGroups.remove p).contains i = true → A.rowGroups.contains i = true := by
    intro i hi
    rw [CountGroups.contains_remove] at hi
    split at hi
    · cases hi
    · exact hi
  constructor
  case rowGroups => exact hA.rowGroups.remove p
  case contains_row => exact fun i => CountGroups.contains_remove _ _ _
  case columnGroups_eq => rfl
  case row_count =>
    intro i c hc
    simp only [beforeClearing, CountGroups.count_remove] at hc ⊢
    split at hc
    · cases hc
    · exact hA.row_count i c hc
  case ne_zero => exact hA.ne_zero
  case kept => exact fun _ _ => rfl
  case cleared =>
    intro i hi hip
    have hne : i ≠ p := by
      rintro rfl
      simp [beforeClearing] at hi
    by_contra h
    apply hip
    rw [List.mem_filter, mem_rowsIn, hA.mirrored i q hqa]
    exact ⟨⟨hcontains i hi, Option.isSome_iff_ne_none.mpr h⟩, by simpa using hne⟩
  case column_active => exact fun i j hi => hA.column_active i j (hcontains i hi)
  case mirrored =>
    intro i j hjq hj
    rw [get_columns_beforeClearing A hjq, get_withoutRow, beforeClearing, CountGroups.contains_remove]
    by_cases hi : p = i
    · subst hi
      simp only [and_true, if_true, Bool.false_eq_true, false_and, iff_false]
      split
      · simp
      · next hs => exact fun h => hs ((hA.mirrored p j hj).mp h).2
    · simp only [hi, and_false, if_false]
      exact hA.mirrored i j hj
  case columns_kept =>
    intro j hjq hj
    have hs : ¬((A.rows.get p).get j).isSome := fun h => hj (mem_keys_othersIn.mpr ⟨hjq, h⟩)
    refine table_ext fun i => ?_
    rw [get_columns_beforeClearing A hjq, get_withoutRow, if_neg fun h => hs h.1]
  case value_eq => exact fun i j => by simp [value, beforeClearing]
  case keys_cleared => exact fun i hi => absurd hi List.not_mem_nil

theorem count_foldl_update (others : SparseVec m) (f : Fin m → Fin (m + 1)) (g : CountGroups m m)
    (j : Fin m) : (others.foldl (fun groups e => groups.update e.1 (f e.1)) g).count.get j =
      if j ∈ SparseVec.keys others then some (f j) else g.count.get j := by
  induction others generalizing g with
  | nil => simp
  | cons e others ih =>
    rw [List.foldl_cons, ih, CountGroups.count_update]
    by_cases hj : e.1 = j
    · subst hj
      simp
    · simp [hj, Ne.symm hj]

theorem valid_foldl_update {others : SparseVec m} {f : Fin m → Fin (m + 1)} {g : CountGroups m m}
    (h : g.Valid) : (others.foldl (fun groups e => groups.update e.1 (f e.1)) g).Valid := by
  induction others generalizing g with
  | nil => exact h
  | cons e others ih => exact ih (h.update e.1 (f e.1))

/-- What a pivot on `(p, q)` does: both lines leave the active part, and the recorded multiples of
the pivot row are added to other active rows. -/
structure Pivoted (A : Active m) (p q : Fin m) (B : Active m) (multipliers : SparseVec m) : Prop where
  valid : B.Valid
  contains_row : ∀ i, B.rowGroups.contains i = if p = i then false else A.rowGroups.contains i
  contains_column : ∀ j, B.columnGroups.contains j = if q = j then false else A.columnGroups.contains j
  kept : ∀ i, A.rowGroups.contains i = false ∨ i = p → B.rows.get i = A.rows.get i
  value_eq : ∀ i j, B.value i j = A.value i j + SparseVec.coeff multipliers i * A.value p j
  pivot_not_mem : p ∉ SparseVec.keys multipliers
  multipliers_eq : multipliers =
    ((A.rowsIn q).filter fun i => i ≠ p).map fun i => (i, A.ratio p q i)

theorem Clearing.finish (hA : A.Valid) (hpa : A.rowGroups.contains p) {C : Active m}
    {multipliers : SparseVec m} (hC : Clearing A p q [] C multipliers)
    (hm : multipliers = ((A.rowsIn q).filter fun i => i ≠ p).map fun i => (i, A.ratio p q i)) :
    Pivoted A p q
      { C with
        columnGroups := (A.othersIn p q).foldl
          (fun groups e => groups.update e.1 (memberCount (C.columns.get e.1))) C.columnGroups }
      multipliers := by
  have hcount := count_foldl_update (A.othersIn p q) (fun j => memberCount (C.columns.get j))
    C.columnGroups
  have hcontains : ∀ j, ((A.othersIn p q).foldl (fun groups e =>
      groups.update e.1 (memberCount (C.columns.get e.1))) C.columnGroups).contains j =
      if q = j then false else A.columnGroups.contains j := by
    intro j
    rw [← CountGroups.contains_remove, ← hC.columnGroups_eq, CountGroups.contains, hcount,
      CountGroups.contains]
    split
    · next hj =>
      -- the columns that are counted again are still there
      obtain ⟨hjq, hs⟩ := mem_keys_othersIn.mp hj
      have hja := hA.column_active p j hpa hs
      rw [← CountGroups.contains, hC.columnGroups_eq, CountGroups.contains_remove, if_neg (Ne.symm hjq),
        hja]
      rfl
    · rfl
  constructor
  case contains_row => exact hC.contains_row
  case contains_column => exact hcontains
  case kept => exact fun i hi => hC.kept i (hi.imp_right Or.inl)
  case value_eq => exact hC.value_eq
  case pivot_not_mem => exact fun h => (hC.keys_cleared p h).2.1 rfl
  case multipliers_eq => exact hm
  case valid =>
    constructor
    case rowGroups => exact hC.rowGroups
    case columnGroups =>
      have hg : C.columnGroups.Valid := by
        rw [hC.columnGroups_eq]
        exact hA.columnGroups.remove q
      exact valid_foldl_update (f := fun j => memberCount (C.columns.get j)) hg
    case row_count => exact hC.row_count
    case column_count =>
      intro j c hc
      rw [hcount, hC.columnGroups_eq, CountGroups.count_remove] at hc
      split at hc
      · exact (Option.some.inj hc).symm
      · next hj =>
        split at hc
        · cases hc
        · next hqj =>
          simp only [hC.columns_kept j (Ne.symm hqj) hj]
          exact hA.column_count j c hc
    case ne_zero => exact hC.ne_zero
    case column_active =>
      intro i j hi hs
      have hj := hC.column_active i j hi hs
      simp only [hcontains]
      split
      · next hqj =>
        simp only [← hqj] at hs
        rw [hC.cleared i hi List.not_mem_nil] at hs
        cases hs
      · exact hj
    case mirrored =>
      intro i j hj
      simp only [hcontains] at hj
      split at hj
      · cases hj
      · next hqj => exact hC.mirrored i j (Ne.symm hqj) hj

/-- A pivot on a stored value of an active row and an active column succeeds. -/
theorem Valid.pivot (hA : A.Valid) (hpa : A.rowGroups.contains p) (hqa : A.columnGroups.contains q)
    (hpq : ((A.rows.get p).get q).isSome) :
    ∃ B multipliers, A.pivot ⟨p, q⟩ = some (B, multipliers) ∧ Pivoted A p q B multipliers := by
  obtain ⟨pivotValue, hp⟩ := Option.isSome_iff_exists.mp hpq
  have htargets : ∀ i ∈ (A.rowsIn q).filter (fun i => i ≠ p),
      i ≠ p ∧ A.rowGroups.contains i ∧ ((A.rows.get i).get q).isSome := by
    intro i hi
    obtain ⟨hi, hne⟩ := List.mem_filter.mp hi
    exact ⟨by simpa using hne, (hA.mirrored i q hqa).mp (mem_rowsIn.mp hi)⟩
  have hn : ((A.rowsIn q).filter fun i => i ≠ p).Nodup :=
    ((List.nodup_finRange m).filter _).filter _
  obtain ⟨C, hs, hC⟩ := Clearing.run hA hp hpa hn htargets (Clearing.start hA hqa)
  rw [List.nil_append] at hs hC
  generalize hm : (((A.rowsIn q).filter fun i => i ≠ p).map fun i => (i, A.ratio p q i)) = multipliers
    at hs hC
  refine ⟨_, multipliers, ?_, hC.finish hA hpa hm.symm⟩
  rw [← filter_withoutRow hpq, beforeClearing, withoutRow] at hs
  simp only [Active.pivot, rowsIn, hp, hs, Option.pure_def, Option.bind_eq_bind, Option.bind_some]

/-- The recorded multiples are not zero, because no zero is stored. -/
theorem Pivoted.ne_zero {B : Active m} {multipliers : SparseVec m} (h : Pivoted A p q B multipliers)
    (hA : A.Valid) (hqa : A.columnGroups.contains q) (hpq : ((A.rows.get p).get q).isSome) :
    ∀ e ∈ multipliers, e.2 ≠ 0 := by
  intro e he
  rw [h.multipliers_eq] at he
  obtain ⟨i, hi, rfl⟩ := List.mem_map.mp he
  have hiq := ((hA.mirrored i q hqa).mp (mem_rowsIn.mp (List.mem_filter.mp hi).1)).2
  obtain ⟨v, hv⟩ := Option.isSome_iff_exists.mp hiq
  obtain ⟨w, hw⟩ := Option.isSome_iff_exists.mp hpq
  rw [ratio, value_of_some hv, value_of_some hw]
  exact div_ne_zero (neg_ne_zero.mpr (hA.ne_zero i q v hv)) (hA.ne_zero p q w hw)

end Pivot

theorem foldl_lastValue? (s : SparseVec m) (i : Fin m) (found : Option ℚ) :
    s.foldl (fun found e => if e.1 = i then some e.2 else found) found =
      (lastValue? s i).or found := by
  induction s generalizing found with
  | nil => rfl
  | cons e s ih =>
    rw [lastValue?, List.foldl_cons, List.foldl_cons, ih, ih]
    cases lastValue? s i with
    | none => split <;> simp
    | some v => rfl

theorem lastValue?_append (s t : SparseVec m) (i : Fin m) :
    lastValue? (s ++ t) i = (lastValue? t i).or (lastValue? s i) := by
  rw [lastValue?, List.foldl_append, foldl_lastValue? t]
  rfl

theorem lastValue?_cons (e : Fin m × ℚ) (s : SparseVec m) (i : Fin m) :
    lastValue? (e :: s) i = (lastValue? s i).or (if e.1 = i then some e.2 else none) := by
  rw [lastValue?, List.foldl_cons, foldl_lastValue?]

/-- Writing a sparse vector over a dense one leaves its last values. -/
theorem get_writeTo (s : SparseVec m) (w : Vec m) (i : Fin m) :
    (SparseVec.writeTo s w).get i = (lastValue? s i).getD (w.get i) := by
  induction s generalizing w with
  | nil => rfl
  | cons e s ih =>
    have hstep : SparseVec.writeTo (e :: s) w = SparseVec.writeTo s (put w e.1 e.2) := rfl
    rw [hstep, ih, lastValue?_cons, get_put]
    cases lastValue? s i with
    | none => split <;> rfl
    | some v => rfl

theorem mem_of_lastValue? {s : SparseVec m} {i : Fin m} {v : ℚ} (h : lastValue? s i = some v) :
    (i, v) ∈ s := by
  induction s with
  | nil => cases h
  | cons e s ih =>
    rw [lastValue?_cons, Option.or_eq_some_iff] at h
    rcases h with h | ⟨_, h⟩
    · exact List.mem_cons_of_mem e (ih h)
    · split at h
      · next he =>
        cases h
        exact he ▸ List.mem_cons_self
      · cases h

theorem value_ofColumns (columns : Vector (SparseVec m) m) (i j : Fin m) :
    (ofColumns columns).value i j = (lastValue? (columns.get j) i).getD 0 := by
  simp [value, ofColumns]

theorem contains_ofColumns (columns : Vector (SparseVec m) m) (i : Fin m) :
    (ofColumns columns).rowGroups.contains i = true ∧
      (ofColumns columns).columnGroups.contains i = true := by
  simp [ofColumns, CountGroups.contains]

theorem valid_ofColumns {columns : Vector (SparseVec m) m}
    (h : ∀ j, ∀ e ∈ columns.get j, e.2 ≠ 0) : (ofColumns columns).Valid where
  rowGroups := CountGroups.valid_ofCounts _
  columnGroups := CountGroups.valid_ofCounts _
  row_count i c hc := by
    simp only [ofColumns, CountGroups.count_ofCounts, get_map, Option.some.injEq] at hc ⊢
    exact hc.symm
  column_count j c hc := by
    simp only [ofColumns, CountGroups.count_ofCounts, get_map, Option.some.injEq] at hc ⊢
    exact hc.symm
  ne_zero i j v hv := by
    simp only [ofColumns, get_ofFn] at hv
    exact h j (i, v) (mem_of_lastValue? hv)
  column_active i j _ _ := (contains_ofColumns columns j).2
  mirrored i j _ := by
    have hi := (contains_ofColumns columns i).1
    simp only [hi, true_and]
    simp [ofColumns]

end ExactSimplex.Active
