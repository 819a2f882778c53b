import ExactSimplex.Proofs.Compressed.Layout

/-! # The matrix store as a list of rows

Seen from outside a matrix is its number of columns and the list of its rows, each a list of columns
with their values. Appending and taking out rows are the same operations on lists, whatever that does to
the places at which the rows start, and the copy by columns says nothing new: matrices with the same rows
are equal in everything that they store.
-/
namespace ExactSimplex.CompressedMatrix
variable {A B : CompressedMatrix} {n : ℕ} {rows : List (List (ℕ × ℚ))}

def edit : RowEdit → Action CompressedMatrix Unit
  | .push row => pushRow row
  | .remove index => removeRow index

/-- The matrix after some calls; one that is refused goes on with the matrix that it leaves. -/
def after (A : CompressedMatrix) (edits : List RowEdit) : Except Failure CompressedMatrix :=
  edits.foldlM (fun A e => ((edit e).run A).map Prod.snd) A

/-- The matrices that can be made: from compressed data, by calls that succeed or are refused. -/
inductive Built : CompressedMatrix → Prop
  | created {values : List ℚ} {columns ks : List ℕ} {n : ℕ} {A : CompressedMatrix}
      (h : create values columns ks n = .ok A) : Built A
  | edited {e : RowEdit} {A B : CompressedMatrix} {outcome : Except Error Unit} (hA : Built A)
      (h : (edit e).run A = .ok (outcome, B)) : Built B

/-- A matrix stands for rows over `n` columns: it shows them and the same entries by columns, it
accepts the calls that make sense for them and refuses the others as it stands, and no other matrix
shows them. -/
structure StandsFor (A : CompressedMatrix) (n : ℕ) (rows : List (List (ℕ × ℚ))) : Prop where
  columnCount_eq : A.columnCount = n
  rowCount_eq : A.rowCount = rows.length
  row_eq : ∀ i, A.row i = read rows i
  column_eq : ∀ j < n, ∃ column, A.column j = .ok column ∧ Transposed rows j column
  entryCount_eq : A.entryCount = (rows.map List.length).sum
  entryCount_eq_columns : A.entryCount = A.columnValues.length
  edit_eq : ∀ e : RowEdit, match e.perform? n rows with
    | some _ => ∃ B, (edit e).run A = .ok (.ok (), B)
    | none => ∃ cause, (edit e).run A = .ok (.error cause, A)
  eq_iff : ∀ B, B.Built → (A = B ↔ B.columnCount = n ∧ ∀ i, B.row i = read rows i)

/-- The columns of all entries are among `n`. -/
def InRange (n : ℕ) (rows : List (List (ℕ × ℚ))) : Prop := ∀ row ∈ rows, ∀ e ∈ row, e.1 < n

theorem InRange.perform {e : RowEdit} {next : List (List (ℕ × ℚ))} (h : InRange n rows)
    (hnext : e.perform? n rows = some next) : InRange n next := by
  cases e with
  | push row =>
    rw [RowEdit.perform?] at hnext
    split at hnext
    · next hrow =>
      cases hnext
      intro r hr e he
      rcases List.mem_append.mp hr with hr | hr
      · exact h r hr e he
      · rw [List.mem_singleton.mp hr] at he
        exact (lt_of_mem_denseEntries he).trans_eq hrow
    · cases hnext
  | remove index =>
    rw [RowEdit.perform?] at hnext
    split at hnext
    · cases hnext
      exact fun r hr => h r (List.mem_of_mem_eraseIdx hr)
    · cases hnext

/-- A call does to the stored rows what it does to a list of rows, or it is refused. -/
theorem edit_ofRows (h : InRange n rows) (e : RowEdit) :
    (∃ next, e.perform? n rows = some next ∧ (edit e).run (ofRows n rows) = .ok (.ok (), ofRows n next)) ∨
    (e.perform? n rows = none ∧
      ∃ cause, (edit e).run (ofRows n rows) = .ok (.error cause, ofRows n rows)) := by
  cases e with
  | push row =>
    rcases pushRow_ofRows h row with ⟨hrow, hrun⟩ | ⟨hrow, hrun⟩
    · exact .inl ⟨_, if_pos hrow, hrun⟩
    · exact .inr ⟨if_neg hrow, hrun⟩
  | remove index =>
    rcases removeRow_ofRows h index with ⟨hindex, hrun⟩ | ⟨hindex, hrun⟩
    · exact .inl ⟨_, if_pos hindex, hrun⟩
    · exact .inr ⟨if_neg hindex, hrun⟩

theorem Built.exists_rows (h : A.Built) : ∃ n rows, InRange n rows ∧ A = ofRows n rows := by
  induction h with
  | @created values columns ks n A h =>
    rcases create_cases values columns ks n with ⟨hfit, hok⟩ | ⟨_, _, hrefused⟩
    · cases hok.symm.trans h
      exact ⟨n, _, fun row hrow e he =>
        hfit.2.2.2.2 e.1 (mem_columns_of_mem_compressedRows hrow he), rfl⟩
    · cases hrefused.symm.trans h
  | @edited e A B outcome _ h ih =>
    obtain ⟨n, rows, hrange, rfl⟩ := ih
    rcases edit_ofRows hrange e with ⟨next, hnext, hrun⟩ | ⟨_, _, hrun⟩
    · cases hrun.symm.trans h
      exact ⟨n, next, hrange.perform hnext, rfl⟩
    · cases hrun.symm.trans h
      exact ⟨n, rows, hrange, rfl⟩

theorem standsFor_ofRows (h : InRange n rows) : (ofRows n rows).StandsFor n rows where
  columnCount_eq := rfl
  rowCount_eq := rowCount_ofRows
  row_eq := row_ofRows
  column_eq j hj := ⟨_, column_ofRows hj, transposed_columnFrom rows j⟩
  entryCount_eq := by rw [entryCount_ofRows, List.length_flatten]
  entryCount_eq_columns := by
    rw [entryCount_ofRows, ofRows, List.length_map, length_flatten_columnsOf h]
  edit_eq e := by
    rcases edit_ofRows h e with ⟨next, hnext, hrun⟩ | ⟨hnone, hrun⟩
    · rw [hnext]
      exact ⟨_, hrun⟩
    · rw [hnone]
      exact hrun
  eq_iff B hB := by
    obtain ⟨n', rows', -, rfl⟩ := hB.exists_rows
    constructor
    · intro hsame
      rw [← hsame]
      exact ⟨rfl, row_ofRows⟩
    · rintro ⟨rfl, hread⟩
      refine congrArg (ofRows _) (ext_read fun i => ?_)
      rw [← hread i, row_ofRows]

/-- Any sequence of calls is the same sequence of edits of the rows. -/
theorem after_ofRows (h : InRange n rows) (edits : List RowEdit) :
    (ofRows n rows).after edits = .ok (ofRows n (RowEdit.performAll n rows edits)) ∧
      InRange n (RowEdit.performAll n rows edits) := by
  induction edits generalizing rows with
  | nil => exact ⟨rfl, h⟩
  | cons e edits ih =>
    have hcons : RowEdit.performAll n rows (e :: edits) =
        RowEdit.performAll n ((e.perform? n rows).getD rows) edits := rfl
    rw [after, List.foldlM_cons, hcons]
    rcases edit_ofRows h e with ⟨next, hnext, hrun⟩ | ⟨hnone, cause, hrun⟩
    · rw [hrun, hnext]
      exact ih (h.perform hnext)
    · rw [hrun, hnone]
      exact ih h

/-- A row that was appended can be taken back. -/
theorem removeRow_of_pushRow (h : InRange n rows) {row : List ℚ}
    (hpush : (pushRow row).run (ofRows n rows) = .ok (.ok (), B)) :
    (removeRow rows.length).run B = .ok (.ok (), ofRows n rows) := by
  rcases pushRow_ofRows h row with ⟨hrow, hrun⟩ | ⟨_, _, hrun⟩
  · cases hrun.symm.trans hpush
    have hnext : InRange n (rows ++ [denseEntries row]) :=
      h.perform (e := .push row) (if_pos hrow)
    rcases removeRow_ofRows hnext rows.length with ⟨_, hremove⟩ | ⟨hlast, _⟩
    · rwa [List.eraseIdx_append_of_length_le le_rfl, Nat.sub_self, List.eraseIdx_cons_zero,
        List.append_nil] at hremove
    · exact absurd (by simp) hlast
  · cases hrun.symm.trans hpush

/-- Compressed data are accepted if their parts fit together, and then the matrix stands for the rows
that they describe, with every row that is appended or taken out. No call fails, what is refused changes
nothing, an appended row can be taken back, and only the rows that remain in the end matter. -/
theorem refines_row_lists (values : List ℚ) (columns ks : List ℕ) (n : ℕ) :
    ((∃ A, create values columns ks n = .ok A) ↔
      columns.length = values.length ∧ ks.head? = some 0 ∧ ks.Pairwise (· ≤ ·) ∧
        ks.getLast? = some values.length ∧ ∀ c ∈ columns, c < n) ∧
    ((∃ A, create values columns ks n = .ok A) ∨
      ∃ cause, create values columns ks n = .error (.refused cause)) ∧
    ∀ A, create values columns ks n = .ok A → ∀ edits, ∃ B, A.after edits = .ok B ∧
      B.StandsFor n (RowEdit.performAll n (compressedRows values columns ks) edits) ∧
      (∀ row C, (pushRow row).run B = .ok (.ok (), C) →
        (removeRow B.rowCount).run C = .ok (.ok (), B)) ∧
      ∀ others C, A.after others = .ok C →
        (B = C ↔ RowEdit.performAll n (compressedRows values columns ks) edits =
          RowEdit.performAll n (compressedRows values columns ks) others) := by
  rcases create_cases values columns ks n with ⟨hfit, hok⟩ | ⟨hnot, cause, hrefused⟩
  · refine ⟨⟨fun _ => hfit, fun _ => ⟨_, hok⟩⟩, .inl ⟨_, hok⟩, fun A hA edits => ?_⟩
    cases hok.symm.trans hA
    have hrange : InRange n (compressedRows values columns ks) := fun row hrow e he =>
      hfit.2.2.2.2 e.1 (mem_columns_of_mem_compressedRows hrow he)
    obtain ⟨hafter, hrows⟩ := after_ofRows hrange edits
    refine ⟨_, hafter, standsFor_ofRows hrows, fun row C hC => ?_, fun others C hC => ?_⟩
    · rw [rowCount_ofRows]
      exact removeRow_of_pushRow hrows hC
    · rw [(after_ofRows hrange others).1] at hC
      cases hC
      exact ofRows_injective.eq_iff
  · refine ⟨⟨fun ⟨A, hA⟩ => ?_, fun hfit => absurd hfit hnot⟩, .inr ⟨cause, hrefused⟩, fun A hA => ?_⟩
    · cases hrefused.symm.trans hA
    · cases hrefused.symm.trans hA

/-- A stored zero, a repeated column, an empty row and two refused calls. -/
theorem refines_row_lists_of_refused_calls :
    ∃ A B C, create [2, 0, 3, 5, -1] [1, 0, 1, 1, 0] [0, 3, 3, 5] 2 = .ok A ∧
      A.after [.push [1], .push [0, 7], .remove 9, .remove 0] = .ok B ∧
      B.StandsFor 2 [[], [(1, 5), (0, -1)], [(1, 7)]] ∧
      A.after [.push [4, 4], .remove 1, .remove 2] = .ok C ∧ A.after [.remove 1] = .ok C := by
  obtain ⟨hiff, -, hmade⟩ := refines_row_lists [2, 0, 3, 5, -1] [1, 0, 1, 1, 0] [0, 3, 3, 5] 2
  obtain ⟨A, hA⟩ := hiff.mpr (by decide)
  obtain ⟨B, hB, hstands, -⟩ := hmade A hA [.push [1], .push [0, 7], .remove 9, .remove 0]
  obtain ⟨C, hC, -, -, hsame⟩ := hmade A hA [.push [4, 4], .remove 1, .remove 2]
  obtain ⟨D, hD, -⟩ := hmade A hA [.remove 1]
  have hCD : C = D := (hsame [.remove 1] D hD).mpr (by decide +kernel)
  exact ⟨A, B, C, hA, hB, hstands, hC, hCD ▸ hD⟩

end ExactSimplex.CompressedMatrix
