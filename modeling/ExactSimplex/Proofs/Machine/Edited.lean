import ExactSimplex.Proofs.Machine.Edits
import ExactSimplex.Proofs.Machine.Views

/-! # Edited machines

An edit that a solver accepts leads the machine with its data to the machine with the data of the edited solver.
One that the solver refuses is refused by the machine, for the same cause.
-/
namespace ExactSimplex
variable {n m : ℕ}
open ExactSimplex.Action Machine

section Clear

theorem indices_slack_basic : indices (Basis.slack n m).basic = List.range' n m := by
  rw [indices_eq_map, List.range'_eq_map_range, ← List.map_coe_finRange_eq_range, List.map_map]
  refine List.map_congr_left fun i _ => ?_
  simp [Basis.slack, Var.index]

theorem indices_slack_nonbasic : indices (Basis.slack n m).nonbasic = List.range n := by
  rw [indices_eq_map, ← List.map_coe_finRange_eq_range]
  refine List.map_congr_left fun j _ => ?_
  simp [Basis.slack, Var.index]

theorem ne_of_getElem?_replicate {k j i : ℕ} : (List.replicate k (none : Option ℕ))[j]? ≠ some (some i) := by
  rw [List.getElem?_replicate]
  split <;> simp

/-- Forgetting the basis leaves the slack basis, whatever the lists were before. -/
theorem cleared_of_size {s : Machine} (hrows : s.numRows = m) (hcols : s.numCols = n) : s.cleared = .ok { s with
    hasBasis := false
    factors := none
    updates := 0
    weights := none
    stuck := none
    basic := indices (Basis.slack n m).basic
    nonbasic := indices (Basis.slack n m).nonbasic
    basicPosition := (Basis.slack n m).basicPositions
    nonbasicPosition := (Basis.slack n m).nonbasicPositions
    x := (PerVar.const 0 : PerVar ℚ n m).list
    d := (Vec.zero n).toList } := by
  subst hrows hcols
  have hbasic := Basis.valid_slack.notePositions_basic (n := s.numCols) (m := s.numRows)
    (List.length_replicate (a := none)) fun _ _ h => absurd h ne_of_getElem?_replicate
  have hnonbasic := Basis.valid_slack.notePositions_nonbasic (n := s.numCols) (m := s.numRows)
    (List.length_replicate (a := none)) fun _ _ h => absurd h ne_of_getElem?_replicate
  rw [indices_slack_basic] at hbasic
  rw [indices_slack_nonbasic] at hnonbasic
  refine (bind_of_ok hbasic).trans ((bind_of_ok hnonbasic).trans ?_)
  rw [indices_slack_basic, indices_slack_nonbasic, ← PerVar.list_const, toList_replicate]
  rfl

end Clear

namespace Solver
variable {S : Solver n m} {o : Surroundings}

/-- What a machine makes of an edit that its solver accepts or refuses. -/
def answer (S : Solver n m) (o : Surroundings) :
    Except Error (Solver n m) → Except Failure (Except Error Unit × Machine)
  | .ok T => .ok (.ok (), T.machine o)
  | .error cause => .ok (.error cause, S.machine o)

theorem run_clearBasis (S : Solver n m) (o : Surroundings) :
    Machine.clearBasis.run (S.machine o) = .ok (.ok (), S.clearBasis.machine o) :=
  run_step (cleared_of_size numRows_machine numCols_machine)

theorem run_invalidateProof (S : Solver n m) (o : Surroundings) :
    invalidateProof.run (S.machine o) = .ok (.ok (), S.withoutProof.machine o) := by
  unfold invalidateProof Solver.withoutProof Solver.machine Solver.contents
  rw [run_modify]
  cases S.start <;> rfl

section Bounds

theorem run_setBounds (S : Solver n m) (o : Surroundings) (v : Var n m) (f : Bounds → Bounds) :
    (do changeBounds v.index f; invalidateProof).run (S.machine o) =
      .ok (.ok (), (S.setBounds v (f (S.problem.bounds.get v))).machine o) := by
  have hbounds : (changeBounds v.index f).run (S.machine o) = .ok (.ok (), ({ S with
      problem := { S.problem with bounds := S.problem.bounds.set v (f (S.problem.bounds.get v)) } } :
        Solver n m).machine o) :=
    run_step (bind_of_ok (PerVar.change_list S.problem.bounds v f))
  exact (run_bind_of_value hbounds).trans (run_invalidateProof _ o)

theorem run_setSide (S : Solver n m) (o : Surroundings) (i : Fin m) (side : Side) (value : Bound) :
    (Machine.setSide i side value).run (S.machine o) = .ok (.ok (), (S.setSide i side value).machine o) := by
  refine (run_lift_bind (requireIndex_of_lt (numRows_machine.symm ▸ i.isLt) _)).trans ?_
  exact S.run_setBounds o (.slack i) _

theorem run_setRightHandSide (S : Solver n m) (o : Surroundings) (i : Fin m) (value : ℚ) :
    (Machine.setRightHandSide i value).run (S.machine o) = S.answer o (S.setRightHandSide i value) := by
  refine (run_lift_bind (requireIndex_of_lt (numRows_machine.symm ▸ i.isLt) _)).trans ?_
  refine (run_lift_bind ((S.contents o).read_bounds o.threads (.slack i))).trans ?_
  have hset (f : Bounds → Bounds) := S.run_setBounds o (.slack i) f
  unfold Solver.setRightHandSide
  dsimp only [PerVar.get] at hset ⊢
  rw [show (S.contents o).problem = S.problem from rfl]
  generalize S.problem.bounds.slack.get i = b at hset ⊢
  obtain ⟨lower, upper⟩ := b
  cases lower with
  | none => exact hset _
  | some lower =>
    cases upper with
    | none => exact hset _
    | some upper =>
      dsimp only
      split
      · exact hset _
      · rfl

theorem run_setSides (S : Solver n m) (o : Surroundings) (i : Fin m) (sides : Bounds) :
    (Machine.setSides i sides).run (S.machine o) = .ok (.ok (), (S.setSides i sides).machine o) := by
  refine (run_lift_bind (requireIndex_of_lt (numRows_machine.symm ▸ i.isLt) _)).trans ?_
  exact S.run_setBounds o (.slack i) _

theorem run_setVariableBound (S : Solver n m) (o : Surroundings) (j : Fin n) (side : Side) (value : Bound) :
    (Machine.setVariableBound j side value).run (S.machine o) =
      .ok (.ok (), (S.setVariableBound j side value).machine o) := by
  refine (run_lift_bind (requireIndex_of_lt j.isLt _)).trans ?_
  exact S.run_setBounds o (.structural j) _

theorem run_setVariableBounds (S : Solver n m) (o : Surroundings) (j : Fin n) (b : Bounds) :
    (Machine.setVariableBounds j b).run (S.machine o) =
      .ok (.ok (), (S.setBounds (.structural j) b).machine o) := by
  refine (run_lift_bind (requireIndex_of_lt j.isLt _)).trans ?_
  exact S.run_setBounds o (.structural j) _

end Bounds

section Rows

theorem run_setObjective (S : Solver n m) (o : Surroundings) (costs : Vec n) :
    (Machine.setObjective costs.toList).run (S.machine o) = .ok (.ok (), (S.setObjective costs).machine o) := by
  refine (run_lift_bind (requireLength_of (Vector.length_toList) _)).trans ?_
  exact run_invalidateProof { S with problem := { S.problem with objective := costs } } o

/-- The rows of a matrix can be stored. -/
theorem inRange_entries (A : SparseMatrix m n) :
    CompressedMatrix.InRange n (A.rows.toList.map SparseVec.entries) := by
  intro row hrow e he
  obtain ⟨line, -, rfl⟩ := List.mem_map.mp hrow
  obtain ⟨a, -, rfl⟩ := List.mem_map.mp he
  exact a.1.isLt

theorem run_pushRow (A : SparseMatrix m n) (row : Vec n) :
    (CompressedMatrix.pushRow row.toList).run A.compressed = .ok (.ok (), (A.pushRow row).compressed) := by
  have hrows : (A.pushRow row).compressed =
      .ofRows n (A.rows.toList.map SparseVec.entries ++ [denseEntries row.toList]) := by
    simp only [SparseMatrix.compressed, SparseMatrix.pushRow, SparseMatrix.ofRows, Vector.toList_push,
      List.map_append, List.map_cons, List.map_nil, Vec.entries_support]
  rcases CompressedMatrix.pushRow_ofRows (inRange_entries A) row.toList with ⟨-, hrun⟩ | ⟨hlength, -⟩
  · rw [hrows]
    exact hrun
  · exact absurd Vector.length_toList hlength

theorem run_removeRow (A : SparseMatrix m n) (i : Fin m) :
    (CompressedMatrix.removeRow i).run A.compressed = .ok (.ok (), (A.removeRow i).compressed) := by
  have hrows : (A.removeRow i).compressed = .ofRows n ((A.rows.toList.map SparseVec.entries).eraseIdx i) := by
    simp only [SparseMatrix.compressed, SparseMatrix.removeRow, SparseMatrix.ofRows, Vector.toList_eraseIdx,
      List.eraseIdx_map]
  rcases CompressedMatrix.removeRow_ofRows (inRange_entries A) i with ⟨-, hrun⟩ | ⟨hlt, -⟩
  · rw [hrows]
    exact hrun
  · exact absurd (by simp) hlt

theorem run_addConstraint (S : Solver n m) (o : Surroundings) (row : Vec n) (sides : Bounds) :
    (Machine.addConstraint row.toList sides).run (S.machine o) =
      .ok (.ok (), (S.addConstraint row sides).machine o) := by
  have hpush : (onMatrix (CompressedMatrix.pushRow row.toList)).run (S.machine o) =
      .ok (.ok (), { S.machine o with matrix := (S.problem.matrix.pushRow row).compressed }) := by
    rw [run_onMatrix]
    exact congrArg (Except.map _) (run_pushRow S.problem.matrix row)
  have hbounds : S.problem.bounds.list ++ [sides.slack] =
      (⟨S.problem.bounds.structural, S.problem.bounds.slack.push sides.slack⟩ : PerVar Bounds n (m + 1)).list := by
    rw [PerVar.list, PerVar.list, List.append_assoc, Vector.toList_push]
  have hclear : Machine.clearBasis.run { S.machine o with
      matrix := (S.problem.matrix.pushRow row).compressed
      bounds := S.problem.bounds.list ++ [sides.slack]
      guess := none
      proof := none
      stuck := none } = .ok (.ok (), (S.addConstraint row sides).machine o) := by
    rw [hbounds]
    exact run_step (cleared_of_size (SparseMatrix.rowCount_compressed _) rfl)
  exact (run_lift_bind (requireLength_of Vector.length_toList _)).trans ((run_bind_of_value hpush).trans hclear)

theorem run_removeConstraint (S : Solver n m) (o : Surroundings) (i : Fin m) :
    (Machine.removeConstraint i).run (S.machine o) = .ok (.ok (), (S.removeConstraint i).machine o) := by
  have hremove : (onMatrix (CompressedMatrix.removeRow i)).run (S.machine o) =
      .ok (.ok (), { S.machine o with matrix := (S.problem.matrix.removeRow i).compressed }) := by
    rw [run_onMatrix]
    exact congrArg (Except.map _) (run_removeRow S.problem.matrix i)
  have hbounds : removeAt S.problem.bounds.list (n + i) = .ok (⟨S.problem.bounds.structural,
      S.problem.bounds.slack.eraseIdx i i.isLt⟩ : PerVar Bounds n (m - 1)).list := by
    unfold removeAt PerVar.list
    rw [if_pos (by simp), List.eraseIdx_append_of_length_le (by simp), Vector.toList_eraseIdx, Vector.length_toList,
      Nat.add_sub_cancel_left]
  have hstep : (step fun t : Machine => do
      let bounds ← removeAt t.bounds (n + i)
      return { t with bounds := bounds }).run
        { S.machine o with matrix := (S.problem.matrix.removeRow i).compressed } = .ok (.ok (), { S.machine o with
          matrix := (S.problem.matrix.removeRow i).compressed
          bounds := (⟨S.problem.bounds.structural, S.problem.bounds.slack.eraseIdx i i.isLt⟩ :
            PerVar Bounds n (m - 1)).list }) := run_step (bind_of_ok hbounds)
  have hclear : Machine.clearBasis.run { S.machine o with
      matrix := (S.problem.matrix.removeRow i).compressed
      bounds := (⟨S.problem.bounds.structural, S.problem.bounds.slack.eraseIdx i i.isLt⟩ :
        PerVar Bounds n (m - 1)).list
      guess := none
      proof := none
      stuck := none } = .ok (.ok (), (S.removeConstraint i).machine o) :=
    run_step (cleared_of_size (SparseMatrix.rowCount_compressed _) rfl)
  refine (run_lift_bind (requireIndex_of_lt (numRows_machine.symm ▸ i.isLt) _)).trans ?_
  exact (run_bind_of_value hremove).trans ((run_bind_of_value hstep).trans hclear)

end Rows

section Hints

section Import
variable (bounds : PerVar Bounds n m) (statuses : PerVar Status n m)

/-- What has been imported after some of the variables. -/
def imports (e : PerVar ℚ n m × List (Var n m) × List (Var n m)) (v : Var n m) :
    PerVar ℚ n m × List (Var n m) × List (Var n m) :=
  if statuses.get v == .basic then (e.1, e.2.1 ++ [v], e.2.2)
  else (e.1.set v (statusValue (bounds.get v) (statuses.get v)), e.2.1, e.2.2 ++ [v])

theorem placed_of_status {s : Machine} (hs : s.bounds = bounds.list)
    (e : PerVar ℚ n m × List (Var n m) × List (Var n m)) (v : Var n m) :
    s.placed (e.1.list, e.2.1.map Var.index, e.2.2.map Var.index) (statuses.get v) v.index =
      .ok ((imports bounds statuses e v).1.list, (imports bounds statuses e v).2.1.map Var.index,
        (imports bounds statuses e v).2.2.map Var.index) := by
  have hread : read s.bounds v.index = .ok (bounds.get v) := hs ▸ PerVar.read_list bounds v
  refine (bind_of_ok hread).trans ?_
  unfold imports
  cases statuses.get v with
  | basic => simp [pure, Except.pure]
  | atLower => exact (bind_of_ok (PerVar.write_list e.1 v _)).trans (by simp [statusValue, pure, Except.pure])
  | atUpper => exact (bind_of_ok (PerVar.write_list e.1 v _)).trans (by simp [statusValue, pure, Except.pure])
  | free => exact (bind_of_ok (PerVar.write_list e.1 v _)).trans (by simp [statusValue, pure, Except.pure])

theorem foldl_imports (vs : List (Var n m)) (e : PerVar ℚ n m × List (Var n m) × List (Var n m)) :
    (vs.foldl (imports bounds statuses) e).2 =
      (e.2.1 ++ vs.filter fun v => statuses.get v == .basic,
        e.2.2 ++ vs.filter fun v => !(statuses.get v == .basic)) ∧
    ∀ w, (vs.foldl (imports bounds statuses) e).1.get w =
      if w ∈ vs ∧ statuses.get w ≠ .basic then statusValue (bounds.get w) (statuses.get w) else e.1.get w := by
  induction vs generalizing e with
  | nil => simp
  | cons v vs ih =>
    rw [List.foldl_cons]
    obtain ⟨hlists, hvalues⟩ := ih (imports bounds statuses e v)
    refine ⟨?_, fun w => ?_⟩
    · rw [hlists, imports]
      cases hv : statuses.get v == .basic <;> simp [hv]
    · rw [hvalues, imports]
      by_cases hv : statuses.get v = .basic
      · by_cases hw : w = v
        · subst hw
          simp [hv]
        · simp [hv, hw]
      · by_cases hw : w = v
        · subst hw
          simp [hv]
        · simp [hv, hw, Ne.symm hw]

theorem foldlM_placed {s : Machine} (hs : s.bounds = bounds.list) :
    statuses.list.zipIdx.foldlM (fun e v => s.placed e v.1 v.2) ((PerVar.const 0 : PerVar ℚ n m).list, [], []) =
      .ok ((statusValues bounds statuses).list, (withStatus statuses fun s => s == .basic).map Var.index,
        (withStatus statuses fun s => !(s == .basic)).map Var.index) := by
  obtain ⟨hlists, hvalues⟩ := foldl_imports bounds statuses (Var.all n m) (PerVar.const 0, [], [])
  have hfold := foldlM_of_step (f := fun e v => s.placed e (statuses.get v) v.index)
    (g := fun e : PerVar ℚ n m × List (Var n m) × List (Var n m) =>
    (e.1.list, e.2.1.map Var.index, e.2.2.map Var.index)) (h := imports bounds statuses) (l := Var.all n m)
    (fun e v _ => placed_of_status bounds statuses hs e v) (PerVar.const 0, [], [])
  rw [PerVar.zipIdx_list, List.foldlM_map]
  refine hfold.trans (congrArg Except.ok ?_)
  rw [hlists]
  refine Prod.ext (congrArg PerVar.list (PerVar.ext_get fun w => ?_)) rfl
  rw [hvalues, get_statusValues]
  by_cases hw : statuses.get w = .basic
  · rw [if_neg fun h => h.2 hw, hw]
    cases w <;> simp [PerVar.const, PerVar.get, statusValue]
  · rw [if_pos ⟨Var.mem_all w, hw⟩]

end Import

theorem run_imported (S : Solver n m) (o : Surroundings) (statuses : PerVar Status n m) {T : Solver n m}
    (hT : S.importBasis statuses = .ok T) :
    (do Machine.clearBasis; step (imported statuses.list); invalidateProof).run (S.machine o) =
      .ok (.ok (), T.machine o) := by
  unfold Solver.importBasis at hT
  dsimp only at hT
  split at hT
  · next hb =>
    cases hT
    have hothers : (withStatus statuses fun s => !(s == .basic)).length = n := by
      have := length_withStatus statuses fun s => s == .basic
      omega
    have hvalid : (Basis.ofLists (tableOf (withStatus statuses fun s => s == .basic) hb) (tableOf _ hothers)).Valid :=
      valid_withStatus hb hothers
    have hnone (l : List (Option ℕ)) (j i : ℕ) : (l.map fun _ => (none : Option ℕ))[j]? ≠ some (some i) := by
      rw [List.getElem?_map]
      cases l[j]? <;> simp
    have hlength : ((Basis.slack n m).basicPositions.map fun _ => (none : Option ℕ)).length = n + m := by
      rw [List.length_map, length_basicPositions]
    have hlength' : ((Basis.slack n m).nonbasicPositions.map fun _ => (none : Option ℕ)).length = n + m := by
      rw [List.length_map, length_nonbasicPositions]
    have himported : imported statuses.list (S.clearBasis.machine o) = .ok (({ S with
        start := .imported ⟨Basis.ofLists (tableOf _ hb) (tableOf _ hothers), statusValues S.problem.bounds statuses,
          Vec.zero n⟩ } : Solver n m).machine o) := by
      refine (bind_of_ok (foldlM_placed S.problem.bounds statuses rfl)).trans ?_
      refine (bind_of_ok (hvalid.notePositions_basic hlength fun j i h => absurd h (hnone _ j i))).trans ?_
      exact bind_of_ok (hvalid.notePositions_nonbasic hlength' fun j i h => absurd h (hnone _ j i))
    exact (run_bind_of_value (S.run_clearBasis o)).trans ((run_bind_of_value (run_step himported)).trans
      (run_invalidateProof _ o))
  · cases hT

theorem run_setBase (S : Solver n m) (o : Surroundings) (structural slack : List Status) :
    (Machine.setBase structural slack).run (S.machine o) = S.answer o (S.setStatuses structural slack) := by
  unfold Machine.setBase Solver.setStatuses
  rw [run_get_bind, numRows_machine, numCols_machine]
  rcases expectLength_cases .variableStatuses n structural with
    ⟨structural, rfl, hs, hrequire⟩ | ⟨cause, hs, hrequire, -⟩
  · rw [hs, run_lift_bind hrequire]
    rcases expectLength_cases .constraintStatuses m slack with
      ⟨slack, rfl, hs, hrequire⟩ | ⟨cause, hs, hrequire, -⟩
    · rw [hs, run_lift_bind hrequire]
      have hcount : (structural.toList ++ slack.toList).count .basic =
          (withStatus ⟨structural, slack⟩ fun s => s == .basic).length := by
        change (PerVar.list ⟨structural, slack⟩).count .basic = _
        rw [PerVar.list_eq_map, List.count, List.countP_map, List.countP_eq_length_filter]
        rfl
      rw [hcount]
      by_cases hb : (withStatus ⟨structural, slack⟩ fun s => s == .basic).length = m
      · rw [run_lift_bind (require_of hb _)]
        exact (S.run_imported o ⟨structural, slack⟩ (dif_pos hb)).trans
          (congrArg (S.answer o) (dif_pos hb : S.importBasis ⟨structural, slack⟩ = _)).symm
      · rw [run_lift_bind_of_refused (require_of_not hb _)]
        exact (congrArg (S.answer o) (dif_neg hb : S.importBasis ⟨structural, slack⟩ = _)).symm
    · rw [hs, run_lift_bind_of_refused hrequire]
      rfl
  · rw [hs, run_lift_bind_of_refused hrequire]
    rfl

theorem run_setGuess (S : Solver n m) (o : Surroundings) (ray : List Double) :
    (Machine.setGuess ray).run (S.machine o) = S.answer o (S.setGuess ray) := by
  unfold Machine.setGuess Solver.setGuess
  rw [run_get_bind, numRows_machine]
  rcases expectLength_cases .ray m ray with ⟨ray, rfl, hray, hrequire⟩ | ⟨cause, hray, hrequire, -⟩
  · rw [hray, run_lift_bind hrequire]
    rfl
  · rw [hray, run_lift_bind_of_refused hrequire]
    rfl

end Hints

end Solver

namespace Session
variable {s : Session} {o : Surroundings}

/-- The machine that stores the data of a session. -/
def machine (s : Session) (o : Surroundings) : Machine := s.solver.machine o

/-- What a machine makes of an edit that its session accepts or refuses. -/
def answer (s : Session) (o : Surroundings) : Except Error Session → Except Failure (Except Error Unit × Machine)
  | .ok t => .ok (.ok (), t.machine o)
  | .error cause => .ok (.error cause, s.machine o)

theorem answer_solver (s : Session) (o : Surroundings) (x : Except Error (Solver s.columns s.rows)) :
    s.answer o (do let solver ← x; return { s with solver := solver }) = s.solver.answer o x := by
  cases x <;> rfl

/-- An edit of a row or a variable is refused where there is none with its number. -/
theorem run_of_index {what : Entity} {count : ℕ} {q : ℕ → Action Machine Unit} {f : Fin count → Except Error Session}
    (hq : ∀ i : Fin count, (q i).run (s.machine o) = s.answer o (f i))
    (hrefused : ∀ i cause, requireIndex what count i = .error (.refused cause) →
      (q i).run (s.machine o) = .ok (.error cause, s.machine o)) (i : ℕ) :
    (q i).run (s.machine o) = s.answer o (do let i ← expectIndex what count i; f i) := by
  rcases expectIndex_cases what count i with ⟨i, rfl, hi, -⟩ | ⟨cause, hi, hrequire⟩
  · rw [hi]
    exact hq i
  · rw [hi]
    exact hrefused i cause hrequire

/-- An edit with a list is refused where the list has the wrong length. -/
theorem run_of_length {α : Type} {what : Quantity} {count : ℕ} {q : List α → Action Machine Unit}
    {f : Vector α count → Except Error Session}
    (hq : ∀ v : Vector α count, (q v.toList).run (s.machine o) = s.answer o (f v))
    (hrefused : ∀ xs cause, requireLength what count xs = .error (.refused cause) →
      (q xs).run (s.machine o) = .ok (.error cause, s.machine o)) (xs : List α) :
    (q xs).run (s.machine o) = s.answer o (do let v ← expectLength what count xs; f v) := by
  rcases expectLength_cases what count xs with ⟨v, rfl, hv, -⟩ | ⟨cause, hv, hrequire, -⟩
  · rw [hv]
    exact hq v
  · rw [hv]
    exact hrefused xs cause hrequire

theorem run_decode (codes : List ℤ) :
    (∃ statuses, codes.mapM Status.ofCode = .ok statuses ∧ decode codes = .ok statuses) ∨
    ∃ cause, codes.mapM Status.ofCode = .error cause ∧ decode codes = .error (.refused cause) := by
  unfold decode
  cases codes.mapM Status.ofCode with
  | ok statuses => exact .inl ⟨statuses, rfl, rfl⟩
  | error cause => exact .inr ⟨cause, rfl, rfl⟩

theorem run_importBasis (s : Session) (o : Surroundings) (structural slack : List ℤ) :
    (Machine.apply (.importBasis structural slack)).run (s.machine o) =
      s.answer o (s.apply (.importBasis structural slack)) := by
  change (liftM (decode structural) >>= fun a => liftM (decode slack) >>= fun b =>
    setBase a b : Action Machine Unit).run _ =
    s.answer o (structural.mapM Status.ofCode >>= fun a => slack.mapM Status.ofCode >>= fun b =>
      do let solver ← s.solver.setStatuses a b; return { s with solver := solver })
  rcases run_decode structural with ⟨a, ha, hdecode⟩ | ⟨cause, ha, hdecode⟩
  · rw [ha, run_lift_bind hdecode]
    rcases run_decode slack with ⟨b, hb, hdecode⟩ | ⟨cause, hb, hdecode⟩
    · rw [hb, run_lift_bind hdecode]
      exact (s.solver.run_setBase o a b).trans (s.answer_solver o _).symm
    · rw [hb, run_lift_bind_of_refused hdecode]
      rfl
  · rw [ha, run_lift_bind_of_refused hdecode]
    rfl

/-- A machine carries out what its session accepts, and refuses what the session refuses. -/
theorem run_apply (s : Session) (o : Surroundings) (e : Edit) :
    (Machine.apply e).run (s.machine o) = s.answer o (s.apply e) := by
  have hrefused (i : ℕ) (cause : Error) (h : requireIndex .constraint s.rows i = .error (.refused cause)) :
      requireIndex .constraint (s.machine o).numRows i = .error (.refused cause) := by
    rwa [machine, Solver.numRows_machine]
  cases e with
  | clearBasis => exact s.solver.run_clearBasis o
  | addConstraint row sides =>
    exact run_of_length (q := fun row => Machine.addConstraint row sides)
      (f := fun row => .ok ⟨s.columns, s.rows + 1, s.solver.addConstraint row sides⟩)
      (fun row => s.solver.run_addConstraint o row sides) (fun _ _ h => run_lift_bind_of_refused h) row
  | removeConstraint row =>
    exact run_of_index (q := Machine.removeConstraint)
      (f := fun i => .ok ⟨s.columns, s.rows - 1, s.solver.removeConstraint i⟩)
      (fun i => s.solver.run_removeConstraint o i)
      (fun i cause h => run_lift_bind_of_refused (hrefused i cause h)) row
  | setSide row side value =>
    exact run_of_index (q := fun row => Machine.setSide row side value)
      (f := fun i => .ok { s with solver := s.solver.setSide i side value })
      (fun i => s.solver.run_setSide o i side value)
      (fun i cause h => run_lift_bind_of_refused (hrefused i cause h)) row
  | setRightHandSide row value =>
    exact run_of_index (q := fun row => Machine.setRightHandSide row value)
      (fun i => (s.solver.run_setRightHandSide o i value).trans (s.answer_solver o _).symm)
      (fun i cause h => run_lift_bind_of_refused (hrefused i cause h)) row
  | setSides row sides =>
    exact run_of_index (q := fun row => Machine.setSides row sides)
      (f := fun i => .ok { s with solver := s.solver.setSides i sides })
      (fun i => s.solver.run_setSides o i sides)
      (fun i cause h => run_lift_bind_of_refused (hrefused i cause h)) row
  | setVariableBound column side value =>
    exact run_of_index (q := fun column => Machine.setVariableBound column side value)
      (f := fun j => .ok { s with solver := s.solver.setVariableBound j side value })
      (fun j => s.solver.run_setVariableBound o j side value) (fun _ _ h => run_lift_bind_of_refused h) column
  | setVariableBounds column bounds =>
    exact run_of_index (q := fun column => Machine.setVariableBounds column bounds)
      (f := fun j => .ok { s with solver := s.solver.setBounds (.structural j) bounds })
      (fun j => s.solver.run_setVariableBounds o j bounds) (fun _ _ h => run_lift_bind_of_refused h) column
  | setObjective costs =>
    exact run_of_length (q := Machine.setObjective)
      (f := fun costs => .ok { s with solver := s.solver.setObjective costs })
      (fun costs => s.solver.run_setObjective o costs) (fun _ _ h => run_lift_bind_of_refused h) costs
  | setCutOff bound => rfl
  | importBasis structural slack => exact s.run_importBasis o structural slack
  | setGuess ray => exact (s.solver.run_setGuess o ray).trans (s.answer_solver o _).symm
  | setProvider suggestions => rfl

end Session

end ExactSimplex
