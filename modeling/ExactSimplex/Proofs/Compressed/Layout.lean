import ExactSimplex.Compressed
import ExactSimplex.Proofs.Checked
import ExactSimplex.Proofs.Rows

/-! # Compressed matrices as lists of rows

For every list of rows there is one compressed matrix that stores it: the entries row after row, the
places where the rows start, and the same entries column after column. Building a matrix, appending and
taking out a row lead from these matrices to these matrices. So a compressed matrix is determined by its
rows, however it was made.
-/
namespace ExactSimplex
variable {α : Type} {n : ℕ}

/-- Where lists that are written one after the other start, and where the last one ends. -/
def starts (a : ℕ) : List (List α) → List ℕ
  | [] => [a]
  | l :: ls => a :: starts (a + l.length) ls

section Starts

theorem length_starts (a : ℕ) (ls : List (List α)) : (starts a ls).length = ls.length + 1 := by
  induction ls generalizing a with
  | nil => rfl
  | cons l ls ih => rw [starts, List.length_cons, ih, List.length_cons]

theorem getElem?_starts (a : ℕ) (ls : List (List α)) {k : ℕ} (h : k ≤ ls.length) :
    (starts a ls)[k]? = some (a + (ls.take k).flatten.length) := by
  induction ls generalizing a k with
  | nil =>
    obtain rfl : k = 0 := Nat.le_zero.mp h
    rfl
  | cons l ls ih =>
    cases k with
    | zero => rfl
    | succ k =>
      rw [starts, List.getElem?_cons_succ, ih _ (Nat.le_of_succ_le_succ h), List.take_succ_cons,
        List.flatten_cons, List.length_append, Nat.add_assoc]

theorem starts_append_singleton (a : ℕ) (ls : List (List α)) (l : List α) :
    starts a (ls ++ [l]) = starts a ls ++ [a + (ls ++ [l]).flatten.length] := by
  induction ls generalizing a with
  | nil => simp [starts]
  | cons l' ls ih => simp [starts, ih, Nat.add_assoc]

theorem dropLast_starts (a : ℕ) (ls : List (List α)) :
    (starts a ls).dropLast ++ [a + ls.flatten.length] = starts a ls := by
  induction ls generalizing a with
  | nil => rfl
  | cons l ls ih =>
    have hne : starts (a + l.length) ls ≠ [] := by cases ls <;> exact List.cons_ne_nil _ _
    rw [starts, List.dropLast_cons_of_ne_nil hne, List.cons_append, List.flatten_cons,
      List.length_append, ← Nat.add_assoc, ih]

/-- Without one of the lists its start is gone, and the later ones start earlier by its length. -/
theorem starts_eraseIdx (a : ℕ) (ls : List (List α)) {i : ℕ} (h : i < ls.length) :
    starts a (ls.eraseIdx i) = (starts a ls).take (i + 1) ++
      ((starts a ls).drop (i + 2)).map fun k => k - ls[i].length := by
  induction ls generalizing a i with
  | nil => cases h
  | cons l ls ih =>
    cases i with
    | zero =>
      have hshift : ∀ (k : ℕ) (ls : List (List α)),
          (starts (k + l.length) ls).map (· - l.length) = starts k ls := by
        intro k ls
        induction ls generalizing k with
        | nil => simp [starts]
        | cons l' ls ih =>
          rw [starts, starts, List.map_cons, Nat.add_sub_cancel, Nat.add_right_comm, ih]
      rw [starts, List.eraseIdx_cons_zero, List.take_succ_cons, List.take_zero, List.drop_succ_cons,
        List.getElem_cons_zero, List.drop_one, List.map_tail, hshift, List.singleton_append]
      cases ls <;> rfl
    | succ i =>
      have h : i < ls.length := Nat.lt_of_succ_lt_succ h
      rw [List.eraseIdx_cons_succ, starts, starts, ih _ h, List.take_succ_cons, List.drop_succ_cons,
        List.cons_append, List.getElem_cons_succ]

theorem length_getElem_le_of_mem_starts (ls : List (List α)) {i k : ℕ} (h : i < ls.length)
    (hk : k ∈ (starts 0 ls).drop (i + 1)) : ls[i].length ≤ k := by
  obtain ⟨t, ht⟩ := List.mem_iff_getElem?.mp hk
  rw [List.getElem?_drop] at ht
  have hlt : i + 1 + t < ls.length + 1 := by
    rw [← length_starts 0 ls]
    exact (List.getElem?_eq_some_iff.mp ht).1
  rw [getElem?_starts 0 ls (by omega), Nat.zero_add] at ht
  cases ht
  have hmem : ls[i] ∈ ls.take (i + 1 + t) :=
    List.mem_take_iff_getElem.mpr ⟨i, by omega, rfl⟩
  exact (List.sublist_flatten_of_mem hmem).length_le

theorem length_take_succ_flatten {ls : List (List α)} {i : ℕ} (h : i < ls.length) :
    (ls.take (i + 1)).flatten.length = (ls.take i).flatten.length + ls[i].length := by
  rw [List.take_succ_eq_append_getElem h, List.flatten_append, List.length_append]
  simp

theorem flatten_eq_append (ls : List (List α)) {i : ℕ} (h : i < ls.length) :
    ls.flatten = (ls.take i).flatten ++ (ls[i] ++ (ls.drop (i + 1)).flatten) := by
  conv_lhs => rw [← List.take_append_drop i ls]
  rw [List.flatten_append, List.drop_eq_getElem_cons h, List.flatten_cons]

/-- Between its start and the next one stands each of the lists. -/
theorem take_drop_flatten (ls : List (List α)) {i : ℕ} (h : i < ls.length) :
    (ls.flatten.drop (ls.take i).flatten.length).take ls[i].length = ls[i] := by
  rw [flatten_eq_append ls h, List.drop_left, List.take_left]

end Starts

namespace CompressedMatrix
variable {A B : CompressedMatrix} {rows : List (List (ℕ × ℚ))}

/-- A line of a store is the list that stands there. -/
theorem line_eq (ls : List (List (ℕ × ℚ))) (i : ℕ) :
    line (ls.flatten.map Prod.snd) (ls.flatten.map Prod.fst) (starts 0 ls) i = read ls i := by
  have hcut : ∀ {β : Type} (f : ℕ × ℚ → β), i < ls.length →
      slice (ls.flatten.map f) (ls.take i).flatten.length (ls.take (i + 1)).flatten.length =
        .ok ((ls[i]?.getD []).map f) := by
    intro β f hi
    have hnext := length_take_succ_flatten hi
    have hend : (ls.take (i + 1)).flatten.length ≤ ls.flatten.length := by
      conv_rhs => rw [← List.take_append_drop (i + 1) ls, List.flatten_append, List.length_append]
      exact Nat.le_add_right _ _
    rw [slice, if_pos ⟨by omega, hend.trans_eq (List.length_map _).symm⟩, hnext,
      Nat.add_sub_cancel_left, ← List.map_drop,
      ← List.map_take, take_drop_flatten ls hi, List.getElem?_eq_getElem hi, Option.getD_some]
  have hstart : ∀ k ≤ ls.length, read (starts 0 ls) k = .ok (ls.take k).flatten.length := by
    intro k hk
    rw [read_eq_ok_iff, getElem?_starts 0 ls hk, Nat.zero_add]
  unfold line
  rcases Nat.lt_trichotomy i ls.length with hi | rfl | hi
  · rw [hstart i hi.le, hstart (i + 1) hi]
    simp only [bind, Except.bind, hcut _ hi, read_of_lt hi]
    rw [List.getElem?_eq_getElem hi, Option.getD_some, List.zip_map', List.map_id'' fun _ => rfl]
    rfl
  · rw [hstart _ le_rfl, read_eq_outside_iff.mpr (length_starts 0 ls).le,
      read_eq_outside_iff.mpr le_rfl]
    rfl
  · rw [read_eq_outside_iff.mpr (Nat.le_of_lt_succ (by rw [length_starts]; omega)),
      read_eq_outside_iff.mpr hi.le]
    rfl

/-- The entries of a column, the rows being numbered from `i` on. -/
def columnFrom (i j : ℕ) : List (List (ℕ × ℚ)) → List (ℕ × ℚ)
  | [] => []
  | row :: rows => ((row.filter fun e => e.1 = j).map fun e => (i, e.2)) ++ columnFrom (i + 1) j rows

def columnsOf (n : ℕ) (rows : List (List (ℕ × ℚ))) : List (List (ℕ × ℚ)) :=
  (List.range n).map fun j => columnFrom 0 j rows

/-- The matrix that stores these rows. -/
def ofRows (n : ℕ) (rows : List (List (ℕ × ℚ))) : CompressedMatrix where
  columnCount := n
  rowValues := rows.flatten.map Prod.snd
  rowIndices := rows.flatten.map Prod.fst
  rowStarts := starts 0 rows
  columnValues := (columnsOf n rows).flatten.map Prod.snd
  columnIndices := (columnsOf n rows).flatten.map Prod.fst
  columnStarts := starts 0 (columnsOf n rows)

@[simp] theorem columnCount_ofRows : (ofRows n rows).columnCount = n := rfl

@[simp] theorem rowCount_ofRows : (ofRows n rows).rowCount = rows.length := by
  rw [rowCount, ofRows, length_starts, Nat.add_sub_cancel]

@[simp] theorem entryCount_ofRows : (ofRows n rows).entryCount = rows.flatten.length :=
  List.length_map _

theorem row_ofRows (i : ℕ) : (ofRows n rows).row i = read rows i := line_eq rows i

theorem column_ofRows {j : ℕ} (h : j < n) : (ofRows n rows).column j = .ok (columnFrom 0 j rows) := by
  refine (line_eq (columnsOf n rows) j).trans (read_eq_ok_iff.mpr ?_)
  rw [columnsOf, List.getElem?_map, List.getElem?_range h]
  rfl

/-- The rows of a matrix can be read off. -/
theorem ofRows_injective : Function.Injective (ofRows n) := fun rows rows' h =>
  ext_read fun i => by rw [← row_ofRows (n := n), ← row_ofRows (n := n), h]

/-- The rows of a matrix are these, whatever its columns are. -/
structure Lists (A : CompressedMatrix) (n : ℕ) (rows : List (List (ℕ × ℚ))) : Prop where
  columnCount_eq : A.columnCount = n
  rowValues_eq : A.rowValues = rows.flatten.map Prod.snd
  rowIndices_eq : A.rowIndices = rows.flatten.map Prod.fst
  rowStarts_eq : A.rowStarts = starts 0 rows

theorem lists_ofRows (n : ℕ) (rows : List (List (ℕ × ℚ))) : (ofRows n rows).Lists n rows :=
  ⟨rfl, rfl, rfl, rfl⟩

section Rows

/-- Entries that are not zero, with their columns in front. -/
def nonzeros (entries : List (ℚ × ℕ)) : List (ℕ × ℚ) :=
  (entries.filter fun e => e.1 ≠ 0).map Prod.swap

theorem foldl_appendEntry (A : CompressedMatrix) (entries : List (ℚ × ℕ)) :
    entries.foldl appendEntry A = { A with
      rowValues := A.rowValues ++ (nonzeros entries).map Prod.snd
      rowIndices := A.rowIndices ++ (nonzeros entries).map Prod.fst } := by
  induction entries generalizing A with
  | nil => simp [nonzeros]
  | cons e entries ih =>
    rw [List.foldl_cons, ih, appendEntry, nonzeros]
    by_cases he : e.1 = 0
    · simp [he, nonzeros]
    · simp [he, nonzeros]

theorem Lists.appendRow (h : A.Lists n rows) (entries : List (ℚ × ℕ)) :
    (A.appendRow entries).Lists n (rows ++ [nonzeros entries]) := by
  have hvalues : A.rowValues ++ (nonzeros entries).map Prod.snd =
      (rows ++ [nonzeros entries]).flatten.map Prod.snd := by
    rw [h.rowValues_eq]
    simp
  rw [CompressedMatrix.appendRow, foldl_appendEntry]
  refine ⟨h.columnCount_eq, hvalues, ?_, ?_⟩
  · dsimp only
    rw [h.rowIndices_eq]
    simp
  · dsimp only
    rw [hvalues, h.rowStarts_eq, starts_append_singleton, List.length_map, Nat.zero_add]

/-- The rows between consecutive starts are appended. -/
theorem Lists.takeRows (h : A.Lists n rows) (all : List (ℚ × ℕ)) {ks : List ℕ} {k : ℕ}
    (hks : (k :: ks).Pairwise (· ≤ ·)) :
    ∃ B, A.takeRows (all.drop k) (k :: ks) = .ok B ∧
      B.Lists n (rows ++ (MatrixStore.slices all (k :: ks)).map nonzeros) := by
  induction ks generalizing A rows k with
  | nil => exact ⟨A, rfl, by simpa [MatrixStore.slices] using h⟩
  | cons k' ks ih =>
    obtain ⟨hk, hks⟩ := List.pairwise_cons.mp hks
    have hkk' : k ≤ k' := hk k' List.mem_cons_self
    obtain ⟨B, hB, hlists⟩ := ih (h.appendRow ((all.drop k).take (k' - k))) hks
    refine ⟨B, ?_, ?_⟩
    · rw [← hB, CompressedMatrix.takeRows, CompressedMatrix.takeRows, List.tail_cons, List.zip_cons_cons,
        List.foldlM_cons]
      simp only [subtract, if_pos hkk', List.tail_cons]
      rw [show all.drop k' = (all.drop k).drop (k' - k) by
        rw [List.drop_drop, Nat.add_sub_cancel' hkk']]
      rfl
    · simpa [MatrixStore.slices, List.append_assoc] using hlists

end Rows

section Columns

/-- The places of the entries of a column, the rows being numbered from `i` on and their entries from
`k` on. -/
def placesFrom (i k j : ℕ) : List (List (ℕ × ℚ)) → List (ℕ × ℕ)
  | [] => []
  | row :: rows => (((row.zipIdx k).filter fun e => e.1.1 = j).map fun e => (i, e.2)) ++
      placesFrom (i + 1) (k + row.length) j rows

theorem change_table {f : ℕ → α} {j : ℕ} (hj : j < n) (g : α → α) :
    change ((List.range n).map f) j g = .ok ((List.range n).map (Function.update f j (g (f j)))) := by
  have hlength : j < ((List.range n).map f).length := by simpa using hj
  rw [change, read_of_lt hlength]
  simp only [bind, Except.bind, write_of_lt hlength, List.getElem_map, List.getElem_range]
  refine congrArg Except.ok (List.ext_getElem (by simp) fun k _ _ => ?_)
  by_cases hk : j = k
  · subst hk
    simp
  · simp [hk, Ne.symm hk]

theorem collect_entries {i k : ℕ} {row rest : List (ℕ × ℚ)} (f : ℕ → List (ℕ × ℕ))
    (hindices : A.rowIndices.drop k = (row ++ rest).map Prod.fst) (hrow : ∀ e ∈ row, e.1 < n) :
    (List.range' k row.length).foldlM (A.collectEntry i) ((List.range n).map f) =
      .ok ((List.range n).map fun j =>
        f j ++ ((row.zipIdx k).filter fun e => e.1.1 = j).map fun e => (i, e.2)) := by
  induction row generalizing k f with
  | nil => simp [pure, Except.pure]
  | cons e row ih =>
    have hread : read A.rowIndices k = .ok e.1 := by
      rw [read_eq_ok_iff, ← List.head?_drop, hindices]
      rfl
    have hnext : A.rowIndices.drop (k + 1) = (row ++ rest).map Prod.fst := by
      rw [← List.drop_drop, hindices]
      rfl
    have he : e.1 < n := hrow e List.mem_cons_self
    rw [List.length_cons, List.range'_succ, List.foldlM_cons, collectEntry, hread]
    simp only [bind, Except.bind, change_table he]
    rw [ih _ hnext fun a ha => hrow a (List.mem_cons_of_mem e ha)]
    refine congrArg Except.ok (List.map_congr_left fun j _ => ?_)
    rw [List.zipIdx_cons, List.filter_cons]
    by_cases hj : e.1 = j
    · subst hj
      simp
    · simp [hj, Function.update_of_ne (Ne.symm hj)]

theorem drop_flatten_map {β : Type} {f : ℕ × ℚ → β} {values : List β} {k : ℕ}
    {row : List (ℕ × ℚ)} (h : values.drop k = (row :: rows).flatten.map f) :
    values.drop (k + row.length) = rows.flatten.map f := by
  rw [← List.drop_drop, h, List.flatten_cons, List.map_append,
    List.drop_append_of_le_length (List.length_map _).ge]
  simp

theorem collect_rows {i k : ℕ} (f : ℕ → List (ℕ × ℕ))
    (hindices : A.rowIndices.drop k = rows.flatten.map Prod.fst)
    (hstarts : A.rowStarts.drop i = starts k rows) (hrows : ∀ row ∈ rows, ∀ e ∈ row, e.1 < n) :
    (List.range' i rows.length).foldlM A.collectRow ((List.range n).map f) =
      .ok ((List.range n).map fun j => f j ++ placesFrom i k j rows) := by
  induction rows generalizing i k f with
  | nil => simp [pure, Except.pure, placesFrom]
  | cons row rows ih =>
    have hnext : A.rowStarts.drop (i + 1) = starts (k + row.length) rows := by
      rw [← List.drop_drop, hstarts]
      rfl
    have hstart : read A.rowStarts i = .ok k := by
      rw [read_eq_ok_iff, ← List.head?_drop, hstarts]
      rfl
    have hstop : read A.rowStarts (i + 1) = .ok (k + row.length) := by
      rw [read_eq_ok_iff, ← List.head?_drop, hnext]
      cases rows <;> rfl
    have hrest := drop_flatten_map hindices
    rw [List.length_cons, List.range'_succ, List.foldlM_cons, collectRow, hstart, hstop]
    simp only [bind, Except.bind, Nat.add_sub_cancel_left]
    rw [collect_entries f hindices (hrows row List.mem_cons_self)]
    refine (ih _ hrest hnext fun r hr => hrows r (List.mem_cons_of_mem row hr)).trans ?_
    refine congrArg Except.ok (List.map_congr_left fun j _ => ?_)
    rw [placesFrom, List.append_assoc]

/-- The value at a place of a column is that of its entry. -/
def HasValues (values : List ℚ) : List (ℕ × ℕ) → List (ℕ × ℚ) → Prop :=
  List.Forall₂ fun p e => p.1 = e.1 ∧ values[p.2]? = some e.2

theorem hasValues_row {values : List ℚ} {i k : ℕ} (j : ℕ) {row rest : List (ℕ × ℚ)}
    (h : values.drop k = (row ++ rest).map Prod.snd) :
    HasValues values (((row.zipIdx k).filter fun e => e.1.1 = j).map fun e => (i, e.2))
      ((row.filter fun e => e.1 = j).map fun e => (i, e.2)) := by
  induction row generalizing k with
  | nil => exact .nil
  | cons e row ih =>
    have hread : values[k]? = some e.2 := by
      rw [← List.head?_drop, h]
      rfl
    have hnext : values.drop (k + 1) = (row ++ rest).map Prod.snd := by
      rw [← List.drop_drop, h]
      rfl
    rw [List.zipIdx_cons, List.filter_cons, List.filter_cons]
    by_cases he : e.1 = j
    · rw [if_pos (by simpa using he), if_pos (by simpa using he)]
      exact .cons ⟨rfl, hread⟩ (ih hnext)
    · rw [if_neg (by simpa using he), if_neg (by simpa using he)]
      exact ih hnext

theorem hasValues_column {values : List ℚ} {i k : ℕ} (j : ℕ)
    (h : values.drop k = rows.flatten.map Prod.snd) :
    HasValues values (placesFrom i k j rows) (columnFrom i j rows) := by
  induction rows generalizing i k with
  | nil => exact .nil
  | cons row rows ih => exact List.rel_append (hasValues_row j h) (ih (drop_flatten_map h))

/-- The matrix with these columns, of which the last one is not closed yet. -/
def withColumns (A : CompressedMatrix) (columns : List (List (ℕ × ℚ))) : CompressedMatrix :=
  { A with
    columnValues := columns.flatten.map Prod.snd
    columnIndices := columns.flatten.map Prod.fst
    columnStarts := (starts 0 columns).dropLast }

theorem foldlM_appendColumnEntry {values : List ℚ} {places : List (ℕ × ℕ)}
    {entries : List (ℕ × ℚ)} (h : HasValues values places entries) (hA : A.rowValues = values) :
    places.foldlM appendColumnEntry A = .ok { A with
      columnValues := A.columnValues ++ entries.map Prod.snd
      columnIndices := A.columnIndices ++ entries.map Prod.fst } := by
  induction h generalizing A with
  | nil => simp [pure, Except.pure]
  | @cons p e places entries hpe hrest ih =>
    have hread : read A.rowValues p.2 = .ok e.2 := by
      rw [hA]
      exact read_eq_ok_iff.mpr hpe.2
    rw [List.foldlM_cons, appendColumnEntry, hread]
    refine (ih (A := { A with
      columnValues := A.columnValues ++ [e.2]
      columnIndices := A.columnIndices ++ [p.1] }) hA).trans ?_
    simp [hpe.1]

theorem appendColumn_withColumns {columns : List (List (ℕ × ℚ))} {places : List (ℕ × ℕ)}
    {entries : List (ℕ × ℚ)} (h : HasValues A.rowValues places entries) :
    (A.withColumns columns).appendColumn places = .ok (A.withColumns (columns ++ [entries])) := by
  have hstarts : (starts 0 columns).dropLast ++ [(columns.flatten.map Prod.snd).length] =
      (starts 0 (columns ++ [entries])).dropLast := by
    rw [starts_append_singleton, List.dropLast_concat, List.length_map]
    simpa using dropLast_starts 0 columns
  rw [appendColumn]
  refine (foldlM_appendColumnEntry h ?_).trans (congrArg Except.ok ?_)
  · rfl
  · simp only [withColumns, hstarts]
    simp

theorem foldlM_appendColumn (columns : List (List (ℕ × ℚ))) {news : List (List (ℕ × ℚ))}
    {buckets : List (List (ℕ × ℕ))}
    (h : List.Forall₂ (HasValues A.rowValues) buckets news) :
    buckets.foldlM appendColumn (A.withColumns columns) = .ok (A.withColumns (columns ++ news)) := by
  induction h generalizing columns with
  | nil => simp [pure, Except.pure]
  | cons hcolumn _ ih =>
    rw [List.foldlM_cons, appendColumn_withColumns hcolumn]
    exact (ih _).trans (by rw [List.append_assoc]; rfl)

/-- The columns are collected from the rows. -/
theorem Lists.rebuildColumns (h : A.Lists n rows) (hrows : ∀ row ∈ rows, ∀ e ∈ row, e.1 < n) :
    A.rebuildColumns = .ok (ofRows n rows) := by
  have hcollect : A.collect = .ok ((List.range n).map fun j => placesFrom 0 0 j rows) := by
    have hcount : A.rowCount = rows.length := by
      rw [rowCount, h.rowStarts_eq, length_starts, Nat.add_sub_cancel]
    rw [collect, hcount, List.range_eq_range', h.columnCount_eq, ← List.length_range (n := n), ← List.map_const']
    exact (collect_rows (i := 0) (k := 0) (fun _ => []) (by rw [h.rowIndices_eq]; rfl)
      (by rw [h.rowStarts_eq]; rfl) hrows).trans (by simp)
  have hvalues : List.Forall₂ (HasValues A.rowValues)
      ((List.range n).map fun j => placesFrom 0 0 j rows) (columnsOf n rows) := by
    rw [columnsOf, List.forall₂_map_left_iff, List.forall₂_map_right_iff]
    exact List.forall₂_same.mpr fun j _ => hasValues_column j (by rw [h.rowValues_eq]; rfl)
  have hfold : List.foldlM appendColumn
      { A with columnValues := [], columnIndices := [], columnStarts := [] }
      ((List.range n).map fun j => placesFrom 0 0 j rows) =
        .ok (A.withColumns (columnsOf n rows)) := foldlM_appendColumn [] hvalues
  rw [CompressedMatrix.rebuildColumns, hcollect]
  simp only [bind, Except.bind, hfold]
  obtain ⟨hn, hv, hi, hs⟩ := h
  have hlast : (starts 0 (columnsOf n rows)).dropLast ++
      [((columnsOf n rows).flatten.map Prod.snd).length] = starts 0 (columnsOf n rows) := by
    rw [List.length_map]
    simpa using dropLast_starts 0 (columnsOf n rows)
  simp only [withColumns, hlast, hn, hv, hi, hs]
  rfl

end Columns

section Calls

theorem mapM_subtract {ks : List ℕ} {count : ℕ} (h : ∀ k ∈ ks, count ≤ k) :
    (ks.mapM fun k => subtract k count) = .ok (ks.map fun k => k - count) := by
  induction ks with
  | nil => rfl
  | cons k ks ih =>
    rw [List.mapM_cons, ih fun a ha => h a (List.mem_cons_of_mem k ha), subtract,
      if_pos (h k List.mem_cons_self)]
    rfl

theorem compressedRows_eq (values : List ℚ) (columns ks : List ℕ) :
    compressedRows values columns ks =
      (MatrixStore.slices (values.zip columns) ks).map nonzeros := by
  have hzip : values.zip columns = (columns.zip values).map Prod.swap := (List.zip_swap _ _).symm
  rw [hzip, MatrixStore.slices, List.map_map, compressedRows]
  refine List.map_congr_left fun r _ => ?_
  have hcut := drop_take_eq_filter_zipIdx (columns.zip values) 0 r.1 r.2
  rw [Nat.sub_zero, Nat.max_zero] at hcut
  rw [Function.comp_apply, ← List.map_drop, ← List.map_take, hcut, nonzeros, List.filter_map,
    List.filter_map, List.map_map, List.map_map, List.filter_filter]
  refine congrArg (List.map Prod.fst) (List.filter_congr fun e _ => ?_)
  rw [Bool.eq_iff_iff]
  simp
  tauto

theorem mem_columns_of_mem_compressedRows {values : List ℚ} {columns ks : List ℕ}
    {row : List (ℕ × ℚ)} (hrow : row ∈ compressedRows values columns ks) {e : ℕ × ℚ} (he : e ∈ row) :
    e.1 ∈ columns := by
  obtain ⟨r, -, rfl⟩ := List.mem_map.mp hrow
  obtain ⟨a, ha, rfl⟩ := List.mem_map.mp he
  have hzip : a.1 ∈ columns.zip values := List.fst_mem_of_mem_zipIdx (List.mem_filter.mp ha).1
  exact (List.of_mem_zip hzip).1

theorem forM_requireIndex (what : Entity) (n : ℕ) (columns : List ℕ) :
    (columns.forM (requireIndex what n) = .ok () ∧ ∀ c ∈ columns, c < n) ∨
    ∃ cause, columns.forM (requireIndex what n) = .error (.refused cause) ∧ ¬ ∀ c ∈ columns, c < n := by
  induction columns with
  | nil => exact .inl ⟨rfl, by simp⟩
  | cons c columns ih =>
    have hcons : (c :: columns).forM (requireIndex what n) =
        (requireIndex what n c >>= fun _ => columns.forM (requireIndex what n)) := rfl
    rw [hcons]
    by_cases hc : c < n
    · rw [requireIndex_of_lt hc]
      rcases ih with ⟨hok, hall⟩ | ⟨cause, herror, hnot⟩
      · exact .inl ⟨hok, by simpa using ⟨hc, hall⟩⟩
      · exact .inr ⟨cause, herror, fun h => hnot fun a ha => h a (List.mem_cons_of_mem c ha)⟩
    · rw [requireIndex_of_not_lt hc]
      exact .inr ⟨_, rfl, fun h => hc (h c List.mem_cons_self)⟩

/-- What compressed data have to satisfy. -/
def FitTogether (values : List ℚ) (columns ks : List ℕ) (n : ℕ) : Prop :=
  columns.length = values.length ∧ ks.head? = some 0 ∧ ks.Pairwise (· ≤ ·) ∧
    ks.getLast? = some values.length ∧ ∀ c ∈ columns, c < n

/-- Data that fit together become the matrix with the rows that they describe; others are refused. -/
theorem create_cases (values : List ℚ) (columns ks : List ℕ) (n : ℕ) :
    (FitTogether values columns ks n ∧
      create values columns ks n = .ok (ofRows n (compressedRows values columns ks))) ∨
    (¬ FitTogether values columns ks n ∧ ∃ cause, create values columns ks n = .error (.refused cause)) := by
  unfold create
  by_cases hlength : columns.length = values.length
  swap
  · exact .inr ⟨fun h => hlength h.1, _, by rw [requireLength_of_ne hlength]; rfl⟩
  by_cases hhead : ks.head? = some 0
  swap
  · exact .inr ⟨fun h => hhead h.2.1, _, by
      rw [requireLength_of hlength, require_of_not hhead]; rfl⟩
  by_cases hlast : ks.getLast? = some values.length
  swap
  · exact .inr ⟨fun h => hlast h.2.2.2.1, _, by
      rw [requireLength_of hlength, require_of hhead, require_of_not hlast]; rfl⟩
  by_cases hsorted : MatrixStore.isSorted ks = true
  swap
  · exact .inr ⟨fun h => hsorted ((MatrixStore.isSorted_iff ks).mpr h.2.2.1), _, by
      rw [requireLength_of hlength, require_of hhead, require_of hlast,
        require_of_not hsorted]; rfl⟩
  rw [requireLength_of hlength, require_of hhead, require_of hlast, require_of hsorted]
  rcases forM_requireIndex .column n columns with ⟨hok, hall⟩ | ⟨cause, herror, hnot⟩
  · refine .inl ⟨⟨hlength, hhead, (MatrixStore.isSorted_iff ks).mp hsorted, hlast, hall⟩, ?_⟩
    obtain ⟨rest, rfl⟩ : ∃ rest, ks = 0 :: rest := by
      cases ks with
      | nil => cases hhead
      | cons k rest => exact ⟨rest, by cases hhead; rfl⟩
    have hempty : (⟨n, [], [], [0], [], [], []⟩ : CompressedMatrix).Lists n [] := ⟨rfl, rfl, rfl, rfl⟩
    obtain ⟨A, hA, hlists⟩ := hempty.takeRows (values.zip columns)
      ((MatrixStore.isSorted_iff _).mp hsorted)
    rw [List.nil_append, ← compressedRows_eq] at hlists
    rw [List.drop_zero] at hA
    simp only [bind, Except.bind, hok, hA]
    exact hlists.rebuildColumns fun row hrow e he =>
      hall e.1 (mem_columns_of_mem_compressedRows hrow he)
  · exact .inr ⟨fun h => hnot h.2.2.2.2, cause, by
      simp only [bind, Except.bind, herror]⟩

theorem lt_of_mem_denseEntries {row : List ℚ} {e : ℕ × ℚ} (he : e ∈ denseEntries row) :
    e.1 < row.length := by
  obtain ⟨a, ha, rfl⟩ := List.mem_map.mp he
  exact List.snd_lt_of_mem_zipIdx (List.mem_filter.mp ha).1

theorem pushRow_ofRows (hrows : ∀ row ∈ rows, ∀ e ∈ row, e.1 < n) (row : List ℚ) :
    (row.length = n ∧
      (pushRow row).run (ofRows n rows) = .ok (.ok (), ofRows n (rows ++ [denseEntries row]))) ∨
    (row.length ≠ n ∧ ∃ cause, (pushRow row).run (ofRows n rows) = .ok (.error cause, ofRows n rows)) := by
  unfold pushRow
  rw [Action.run_get_bind]
  by_cases hrow : row.length = (ofRows n rows).columnCount
  · refine .inl ⟨hrow, ?_⟩
    have hnext := ((lists_ofRows n rows).appendRow row.zipIdx).rebuildColumns (by
      intro r hr e he
      rcases List.mem_append.mp hr with hr | hr
      · exact hrows r hr e he
      · rw [List.mem_singleton.mp hr] at he
        exact (lt_of_mem_denseEntries he).trans_eq hrow)
    rw [Action.run_lift_bind (requireLength_of hrow _), Action.run_lift_bind hnext]
    rfl
  · exact .inr ⟨hrow, _, Action.run_lift_bind_of_refused (requireLength_of_ne hrow _)⟩

theorem drain_flatten {β : Type} (f : ℕ × ℚ → β) {i : ℕ} (h : i < rows.length) :
    drain (rows.flatten.map f) (rows.take i).flatten.length (rows.take (i + 1)).flatten.length =
      .ok ((rows.eraseIdx i).flatten.map f) := by
  have hsplit := flatten_eq_append rows h
  have hnext := length_take_succ_flatten h
  have hbounds : (rows.take i).flatten.length ≤ (rows.take (i + 1)).flatten.length ∧
      (rows.take (i + 1)).flatten.length ≤ (rows.flatten.map f).length := by
    rw [hnext, List.length_map, hsplit]
    simp only [List.length_append]
    omega
  rw [drain, if_pos hbounds, ← List.map_take, ← List.map_drop, ← List.map_append, hnext, hsplit,
    List.take_left, ← List.drop_drop, List.drop_left, List.drop_left, List.eraseIdx_eq_take_drop_succ,
    List.flatten_append]

theorem withoutRow_ofRows {i : ℕ} (hi : i < rows.length) :
    ∃ A, (ofRows n rows).withoutRow i = .ok A ∧ A.Lists n (rows.eraseIdx i) := by
  have hstart : ∀ k ≤ rows.length,
      read (ofRows n rows).rowStarts k = .ok (rows.take k).flatten.length := by
    intro k hk
    exact read_eq_ok_iff.mpr ((getElem?_starts 0 rows hk).trans (by rw [Nat.zero_add]))
  have hcount : subtract (rows.take (i + 1)).flatten.length (rows.take i).flatten.length =
      .ok rows[i].length := by
    have hnext := length_take_succ_flatten hi
    rw [subtract, if_pos (by omega), hnext, Nat.add_sub_cancel_left]
  have hremove : removeAt (ofRows n rows).rowStarts (i + 1) =
      .ok ((starts 0 rows).take (i + 1) ++ (starts 0 rows).drop (i + 2)) := by
    have hlong : i + 1 < (ofRows n rows).rowStarts.length := by
      rw [ofRows, length_starts]
      omega
    rw [removeAt, if_pos hlong]
    exact congrArg _ (List.eraseIdx_eq_take_drop_succ _ _)
  have htake : ((starts 0 rows).take (i + 1)).length = i + 1 := by
    rw [List.length_take, length_starts]
    omega
  have hlater : (((starts 0 rows).drop (i + 2)).mapM fun start => subtract start rows[i].length) =
      .ok (((starts 0 rows).drop (i + 2)).map fun k => k - rows[i].length) :=
    mapM_subtract fun k hk => length_getElem_le_of_mem_starts rows hi
      (List.mem_of_mem_drop (i := 1) (by rwa [List.drop_drop]))
  have hvalues : drain (ofRows n rows).rowValues _ _ = _ := drain_flatten Prod.snd hi
  have hindices : drain (ofRows n rows).rowIndices _ _ = _ := drain_flatten Prod.fst hi
  refine ⟨{ ofRows n rows with
    rowValues := (rows.eraseIdx i).flatten.map Prod.snd
    rowIndices := (rows.eraseIdx i).flatten.map Prod.fst
    rowStarts := starts 0 (rows.eraseIdx i) }, ?_, ⟨rfl, rfl, rfl, rfl⟩⟩
  unfold withoutRow
  simp only [hstart i hi.le, hstart (i + 1) hi, hcount, hvalues, hindices, hremove, bind, Except.bind,
    List.drop_left' htake, List.take_left' htake, hlater, starts_eraseIdx 0 rows hi]
  rfl

theorem removeRow_ofRows (hrows : ∀ row ∈ rows, ∀ e ∈ row, e.1 < n) (i : ℕ) :
    (i < rows.length ∧ (removeRow i).run (ofRows n rows) = .ok (.ok (), ofRows n (rows.eraseIdx i))) ∨
    (¬ i < rows.length ∧
      ∃ cause, (removeRow i).run (ofRows n rows) = .ok (.error cause, ofRows n rows)) := by
  unfold removeRow
  rw [Action.run_get_bind]
  by_cases hi : i < rows.length
  · obtain ⟨A, hA, hlists⟩ := withoutRow_ofRows (n := n) hi
    have hnext := hlists.rebuildColumns fun row hrow => hrows row (List.mem_of_mem_eraseIdx hrow)
    refine .inl ⟨hi, ?_⟩
    rw [Action.run_lift_bind (requireIndex_of_lt (rowCount_ofRows ▸ hi) _), Action.run_lift_bind hA,
      Action.run_lift_bind hnext]
    rfl
  · exact .inr ⟨hi, _, Action.run_lift_bind_of_refused (requireIndex_of_not_lt (rowCount_ofRows ▸ hi) _)⟩

end Calls

section Transposition

/-- A column lists the entries of the rows that belong to it, each as often as it occurs, by increasing
row and in row order within a row. -/
structure Transposed (rows : List (List (ℕ × ℚ))) (j : ℕ) (column : List (ℕ × ℚ)) : Prop where
  lt_length : ∀ e ∈ column, e.1 < rows.length
  sorted : column.Pairwise fun a b => a.1 ≤ b.1
  order_eq : ∀ i row, rows[i]? = some row →
    (column.filter fun e => e.1 = i).map Prod.snd = (row.filter fun e => e.1 = j).map Prod.snd
  count_eq : ∀ i row, rows[i]? = some row → ∀ v, column.count (i, v) = row.count (j, v)

theorem bounds_of_mem_columnFrom {i j : ℕ} {e : ℕ × ℚ} (he : e ∈ columnFrom i j rows) :
    i ≤ e.1 ∧ e.1 < i + rows.length := by
  induction rows generalizing i with
  | nil => cases he
  | cons row rows ih =>
    rw [List.length_cons]
    rcases List.mem_append.mp he with he | he
    · obtain ⟨a, -, rfl⟩ := List.mem_map.mp he
      dsimp only
      omega
    · have := ih he
      omega

theorem sorted_columnFrom (i j : ℕ) (rows : List (List (ℕ × ℚ))) :
    (columnFrom i j rows).Pairwise fun a b => a.1 ≤ b.1 := by
  induction rows generalizing i with
  | nil => exact .nil
  | cons row rows ih =>
    refine List.pairwise_append.mpr ⟨?_, ih (i + 1), fun a ha b hb => ?_⟩
    · exact List.pairwise_map.mpr (List.pairwise_of_forall fun _ _ => le_refl i)
    · obtain ⟨_, -, rfl⟩ := List.mem_map.mp ha
      exact (Nat.le_succ i).trans (bounds_of_mem_columnFrom hb).1

theorem filter_columnFrom {i j k : ℕ} {row : List (ℕ × ℚ)} (h : rows[k]? = some row) :
    (columnFrom i j rows).filter (fun e => e.1 = i + k) =
      (row.filter fun e => e.1 = j).map fun e => (i + k, e.2) := by
  induction rows generalizing i k with
  | nil => cases h
  | cons first rows ih =>
    rw [columnFrom, List.filter_append]
    cases k with
    | zero =>
      cases h
      have hlater : (columnFrom (i + 1) j rows).filter (fun e => e.1 = i) = [] :=
        List.filter_eq_nil_iff.mpr fun e he => by
          have := (bounds_of_mem_columnFrom he).1
          simp only [decide_eq_true_eq]
          omega
      rw [Nat.add_zero, hlater, List.append_nil]
      refine List.filter_eq_self.mpr fun e he => ?_
      obtain ⟨_, -, rfl⟩ := List.mem_map.mp he
      simp
    | succ k =>
      have hfirst : ((first.filter fun e => e.1 = j).map fun e => (i, e.2)).filter
          (fun e => e.1 = i + (k + 1)) = [] :=
        List.filter_eq_nil_iff.mpr fun e he => by
          obtain ⟨_, -, rfl⟩ := List.mem_map.mp he
          simp
      rw [hfirst, List.nil_append, ← Nat.add_assoc, Nat.add_right_comm]
      exact ih h

theorem count_eq_count_values (entries : List (ℕ × ℚ)) (i : ℕ) (v : ℚ) :
    entries.count (i, v) = ((entries.filter fun e => e.1 = i).map Prod.snd).count v := by
  induction entries with
  | nil => rfl
  | cons e entries ih =>
    obtain ⟨j, w⟩ := e
    by_cases hj : j = i <;> by_cases hw : w = v <;> simp [hj, hw, ih]

theorem transposed_columnFrom (rows : List (List (ℕ × ℚ))) (j : ℕ) :
    Transposed rows j (columnFrom 0 j rows) := by
  have horder : ∀ i row, rows[i]? = some row →
      ((columnFrom 0 j rows).filter fun e => e.1 = i).map Prod.snd =
        (row.filter fun e => e.1 = j).map Prod.snd := by
    intro i row hrow
    have h := filter_columnFrom (i := 0) (j := j) hrow
    rw [Nat.zero_add] at h
    rw [h, List.map_map]
    rfl
  refine ⟨fun e he => ?_, sorted_columnFrom 0 j rows, horder, fun i row hrow v => ?_⟩
  · simpa using (bounds_of_mem_columnFrom he).2
  · rw [count_eq_count_values, count_eq_count_values, horder i row hrow]

/-- Every entry of a row belongs to one column. -/
theorem sum_length_filter {row : List (ℕ × ℚ)} (h : ∀ e ∈ row, e.1 < n) :
    ((List.range n).map fun j => (row.filter fun e => e.1 = j).length).sum = row.length := by
  induction row with
  | nil => simp
  | cons e row ih =>
    have he : e.1 < n := h e List.mem_cons_self
    have hone : ((List.range n).map fun j => if e.1 = j then 1 else 0).sum = 1 := by
      rw [← List.sum_toFinset _ List.nodup_range]
      simp [he]
    have hsplit : ∀ j, ((e :: row).filter fun a => a.1 = j).length =
        (if e.1 = j then 1 else 0) + (row.filter fun a => a.1 = j).length := by
      intro j
      rw [List.filter_cons]
      split <;> simp_all [Nat.add_comm]
    simp only [hsplit, List.sum_map_add, hone]
    rw [ih fun a ha => h a (List.mem_cons_of_mem e ha), List.length_cons, Nat.add_comm]

theorem sum_length_columnFrom (i : ℕ) (hrows : ∀ row ∈ rows, ∀ e ∈ row, e.1 < n) :
    ((List.range n).map fun j => (columnFrom i j rows).length).sum = rows.flatten.length := by
  induction rows generalizing i with
  | nil => simp [columnFrom]
  | cons row rows ih =>
    have hrest := ih (i + 1) fun r hr => hrows r (List.mem_cons_of_mem row hr)
    rw [List.flatten_cons, List.length_append, ← hrest,
      ← sum_length_filter (hrows row List.mem_cons_self), ← List.sum_map_add]
    simp [columnFrom]

/-- The columns store as many entries as the rows. -/
theorem length_flatten_columnsOf (hrows : ∀ row ∈ rows, ∀ e ∈ row, e.1 < n) :
    (columnsOf n rows).flatten.length = rows.flatten.length := by
  rw [columnsOf, List.length_flatten, List.map_map]
  exact sum_length_columnFrom 0 hrows

end Transposition

end CompressedMatrix

end ExactSimplex
