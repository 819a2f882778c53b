import ExactSimplex.Proofs.Machine.Problem
import ExactSimplex.Proofs.Program

/-! # The linear program behind a machine

A machine for a matrix in which no row repeats a column is a plain linear program to its caller: the one it was
created with, changed by exactly the edits that were carried out. An edit that is refused leaves the whole
machine as it was.
-/
namespace ExactSimplex.Machine
open ExactSimplex.Action
variable {k : Machine} {s : Session}

/-- The edits of a history that are carried out. -/
def accepted (k : Machine) : List Request → List Edit
  | [] => []
  | .edit change :: history =>
    match (apply change).run k with
    | .ok (.ok (), t) => change :: t.accepted history
    | .ok (.error _, t) => t.accepted history
    | .error _ => []
  | request :: history =>
    match (perform request).run k with
    | .ok (_, t) => t.accepted history
    | .error _ => []

/-- For a caller the machine is the program: in what it answers about the problem and shows to a provider, and in
which edits it refuses and what the others do. A refused edit changes nothing. -/
structure Presents (k : Machine) (P : Program) : Prop where
  problem : (perform .problem).run k =
    .ok (.ok (.problem P.constraints.length P.variableBounds.length P.view), k)
  constraintBounds : ∀ row, (perform (.constraintBounds row)).run k = .ok (.ok (
    match P.constraints[row]? with
    | some c => .bounds c.sides
    | none => .refused (.outOfRange .constraint row P.constraints.length)), k)
  variableBounds : ∀ column, (perform (.variableBounds column)).run k = .ok (.ok (
    match P.variableBounds[column]? with
    | some b => .bounds b
    | none => .refused (.outOfRange .structural column P.variableBounds.length)), k)
  shown : ∀ outcome t, opt.run { k with shown := none, log := #[] } = .ok (outcome, t) →
    ∀ V, t.shown = some V → V = P.view
  edit : ∀ change, match P.edit? change with
    | some Q => ∃ t, (apply change).run k = .ok (.ok (), t) ∧ t.view = .ok Q.view
    | none => ∃ cause, (apply change).run k = .ok (.error cause, k)

theorem Realizes.view_eq (h : k.Realizes s) : k.view = .ok s.program.view := by
  obtain ⟨o, -, rfl⟩ := h.stores
  rw [Session.program, Problem.view_program (Solver.Sound.simple h.sound)]
  exact (s.solver.contents o).view_machine o.threads

theorem Realizes.edit (h : k.Realizes s) (change : Edit) : match s.program.edit? change with
    | some Q => ∃ t, (apply change).run k = .ok (.ok (), t) ∧ t.view = .ok Q.view
    | none => ∃ cause, (apply change).run k = .ok (.error cause, k) := by
  rw [← s.program_apply change]
  rcases h.run_edit change with ⟨t, k', ht, hrun, hnext⟩ | ⟨cause, ht, hrun⟩
  · rw [ht]
    exact ⟨k', hrun, hnext.view_eq⟩
  · rw [ht]
    exact ⟨cause, hrun⟩

theorem Realizes.presents (h : k.Realizes s) : k.Presents s.program where
  problem := by
    rw [h.query rfl, h.sound.perform_problem]
  constraintBounds row :=
    (h.query rfl).trans (congrArg (fun answer => Except.ok (Except.ok answer, k)) (s.perform_constraintBounds row))
  variableBounds column :=
    (h.query rfl).trans (congrArg (fun answer => Except.ok (Except.ok answer, k)) (s.perform_variableBounds column))
  shown outcome t hrun V hV := by
    have hshown := (ends_opt (s := { k with shown := none, log := #[] }) outcome t hrun).2
    obtain ⟨-, -, hview⟩ := shownBy_eq_some_iff.mp (hshown.symm.trans hV)
    cases hview.symm.trans h.view_eq
    rfl
  edit := h.edit

/-- The machine carries out the edits that the session carries out. -/
theorem Realizes.accepted_eq (h : k.Realizes s) (history : List Request) :
    k.accepted history = s.accepted history := by
  induction history generalizing k s with
  | nil => rfl
  | cons request history ih =>
    have hother (ha : k.accepted (request :: history) = match (Machine.perform request).run k with
          | .ok (_, t) => t.accepted history
          | .error _ => [])
        (hs : s.accepted (request :: history) = (s.perform request).1.accepted history) :
        k.accepted (request :: history) = s.accepted (request :: history) := by
      obtain ⟨k', hrun, hnext⟩ := h.perform request
      rw [ha, hs, hrun]
      exact ih hnext
    cases request with
    | edit change =>
      rw [accepted, Session.accepted, Session.perform]
      rcases h.run_edit change with ⟨t, k', ht, hrun, hnext⟩ | ⟨cause, ht, hrun⟩
      · rw [ht, hrun]
        exact congrArg _ (ih hnext)
      · rw [ht, hrun]
        exact ih h
    | _ => exact hother rfl rfl

theorem mapM_denseRow {store : MatrixStore} (h : store.matrix.Simple) :
    (List.range store.compressed.rowCount).mapM store.compressed.denseRow = .ok ((List.finRange store.rowCount).map
      fun i => (List.finRange store.columnCount).map (store.matrix.entry i)) := by
  have hrows : store.compressed.rowCount = store.rowCount := store.matrix.rowCount_compressed
  rw [hrows]
  refine mapM_range fun i => ?_
  rw [← h.denseRow_eq]
  exact store.matrix.denseRow_compressed i

/-- A machine is a linear program to its caller: the one it was created with, changed by exactly the edits that
were carried out. -/
theorem refines_program {config : Config} {matrix : CompressedMatrix} {objective : List ℚ}
    {rowLower rowUpper variableLower variableUpper : List Bound} {schedule : List Turn} {first : Machine}
    (hbuilt : matrix.Built) (hdistinct : matrix.Distinct)
    (hcreate : create config matrix objective rowLower rowUpper variableLower variableUpper schedule = .ok first)
    (history : List Request) :
    ∃ rows P k, (List.range matrix.rowCount).mapM matrix.denseRow = .ok rows ∧
      (first.accepted history).foldlM Program.edit?
        (.ofData rows objective rowLower rowUpper variableLower variableUpper) = some P ∧
      first.after history = .ok k ∧ k.Presents P := by
  obtain ⟨store, hstore, rfl⟩ := hbuilt.exists_store
  have hrows : store.matrix.Distinct := SparseMatrix.distinct_of_compressed hdistinct
  rcases Machine.create_realizes hstore hrows schedule with ⟨s, k, hs, hk, hrealizes⟩ | ⟨cause, -, hrefused⟩
  · cases hk.symm.trans hcreate
    obtain ⟨t, ht, hfinal⟩ := hrealizes.after history
    refine ⟨_, _, t, mapM_denseRow ⟨hstore.mirrored, hrows⟩, ?_, ht, hfinal.presents⟩
    rw [← Session.program_create hs, hrealizes.accepted_eq]
    exact s.foldlM_accepted history
  · cases hrefused.symm.trans hcreate

/-- The right-hand side of a row with two different sides and a row that is too short are refused. The row behind
the one taken out moves up. -/
def sixEdits : List Request :=
  [.edit (.setRightHandSide 1 4), .edit (.setRightHandSide 0 3), .optimize, .edit (.addConstraint [1] ⟨none, none⟩),
    .edit (.addConstraint [1, 0] ⟨none, some 5⟩), .edit (.removeConstraint 1), .edit (.setRightHandSide 1 4)]

theorem refines_program_of_six_edits :
    ∃ A first k, CompressedMatrix.create [1, 1, 1] [0, 1, 0] [0, 2, 3] 2 = .ok A ∧
      create {} A [1, 1] [some 2, some 0] [some 2, some 3] [some 0, some 0] [none, none] [] = .ok first ∧
      (first.accepted sixEdits).length = 4 ∧ first.after sixEdits = .ok k ∧
      k.Presents {
        constraints := [⟨[1, 1], ⟨some 3, some 3⟩⟩, ⟨[1, 0], ⟨none, some 4⟩⟩]
        variableBounds := [⟨some 0, none⟩, ⟨some 0, none⟩]
        costs := [1, 1] } := by
  have hrun : (CompressedMatrix.create [1, 1, 1] [0, 1, 0] [0, 2, 3] 2).toOption.any (fun A => decide A.Distinct &&
      decide ((List.range A.rowCount).mapM A.denseRow = .ok [[1, 1], [1, 0]]) &&
      (create {} A [1, 1] [some 2, some 0] [some 2, some 3] [some 0, some 0] [none, none] []).toOption.any fun first =>
        decide ((first.accepted sixEdits).length = 4) &&
        decide ((first.accepted sixEdits).foldlM Program.edit?
          (.ofData [[1, 1], [1, 0]] [1, 1] [some 2, some 0] [some 2, some 3] [some 0, some 0] [none, none]) = some
          { constraints := [⟨[1, 1], ⟨some 3, some 3⟩⟩, ⟨[1, 0], ⟨none, some 4⟩⟩]
            variableBounds := [⟨some 0, none⟩, ⟨some 0, none⟩]
            costs := [1, 1] })) = true := by decide +kernel
  obtain ⟨A, hA, hrun⟩ := exists_of_toOption_any hrun
  rw [Bool.and_eq_true, Bool.and_eq_true, decide_eq_true_eq, decide_eq_true_eq] at hrun
  obtain ⟨⟨hdistinct, hdense⟩, hrun⟩ := hrun
  obtain ⟨first, hcreate, hedits⟩ := exists_of_toOption_any hrun
  rw [Bool.and_eq_true, decide_eq_true_eq, decide_eq_true_eq] at hedits
  obtain ⟨rows, P, k, hrows, hP, hk, hpresents⟩ := refines_program (.created hA) hdistinct hcreate sixEdits
  cases hrows.symm.trans hdense
  cases hP.symm.trans hedits.2
  exact ⟨A, first, k, hA, hcreate, hedits.1, hk, hpresents⟩

end ExactSimplex.Machine
