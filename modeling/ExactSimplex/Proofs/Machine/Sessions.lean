import ExactSimplex.Proofs.Machine.Solves

/-! # Machines refine sessions

A machine realizes a session if it stores the data of the session and its threads have nothing left to do. Creating
them with the same data, and giving them the same requests, keeps it so: the machine answers like the session,
and it never fails.
-/
namespace ExactSimplex
open ExactSimplex.Action Machine Contents

theorem Session.config_perform (s : Session) (r : Request) : (s.perform r).1.solver.config = s.solver.config := by
  cases r with
  | edit e =>
    rw [perform]
    cases he : s.apply e with
    | error cause => rfl
    | ok t =>
      rcases edited_of_apply he with ⟨v, b, rfl⟩ | ⟨-, hedited⟩
      · rfl
      · cases hedited with
        | imported hT => exact (Solver.keeps_setStatuses hT).config_eq
        | _ => rfl
  | optimize => exact (Solver.keeps_optimize s.solver).1.config_eq
  | proof =>
    rw [perform]
    cases hp : s.solver.infeasibilityProof with
    | error failure => rfl
    | ok result => exact (Solver.keeps_infeasibilityProof hp).config_eq
  | constraintBounds row =>
    rw [perform]
    split <;> rfl
  | variableBounds column =>
    rw [perform]
    split <;> rfl
  | _ => rfl

section Queries
variable (s : Session) (o : Surroundings)

theorem Session.perform_query {r : Request} (hq : r.isQuery = true) : s.perform r = (s, (s.perform r).2) := by
  cases r with
  | problem => rfl
  | config => rfl
  | isCertificate y => rfl
  | constraintBounds row =>
    rw [perform]
    split <;> rfl
  | variableBounds column =>
    rw [perform]
    split <;> rfl
  | _ => cases hq

/-- The reply to a question for bounds. -/
def boundsReply : Except Error Bounds → Reply
  | .ok b => .bounds b
  | .error cause => .refused cause

theorem run_bounds {x : Except Failure Bounds} {y : Except Error Bounds} (hx : x = y.mapError .refused)
    (k : Machine) :
    (do match ← (liftM x : Action Machine Bounds).attempt with
      | .ok b => return Reply.bounds b
      | .error cause => return .refused cause : Action Machine Reply).run k = .ok (.ok (boundsReply y), k) := by
  subst hx
  cases y <;> rfl

theorem Session.run_constraintBounds (row : ℕ) : (Machine.perform (.constraintBounds row)).run (s.machine o) =
    .ok (.ok (s.perform (.constraintBounds row)).2, s.machine o) := by
  have hx : (s.machine o).constraintBounds row =
      ((expectIndex .constraint s.rows row).map s.solver.constraintBounds).mapError .refused := by
    rcases expectIndex_cases .constraint s.rows row with ⟨i, rfl, hi, -⟩ | ⟨cause, hi, hrequire⟩
    · rw [hi]
      exact (s.solver.contents o).constraintBounds_machine o.threads i
    · rw [hi]
      unfold Machine.constraintBounds
      rw [show (s.machine o).numRows = s.rows from Solver.numRows_machine, hrequire]
      rfl
  refine (run_bounds hx (s.machine o)).trans ?_
  unfold Session.perform
  dsimp only
  cases expectIndex .constraint s.rows row <;> rfl

theorem Session.run_variableBounds (column : ℕ) : (Machine.perform (.variableBounds column)).run (s.machine o) =
    .ok (.ok (s.perform (.variableBounds column)).2, s.machine o) := by
  have hx : (s.machine o).variableBounds column =
      ((expectIndex .structural s.columns column).map s.solver.variableBounds).mapError .refused := by
    rcases expectIndex_cases .structural s.columns column with ⟨j, rfl, hj, -⟩ | ⟨cause, hj, hrequire⟩
    · rw [hj]
      exact (s.solver.contents o).variableBounds_machine o.threads j
    · rw [hj]
      unfold Machine.variableBounds
      rw [show (s.machine o).numCols = s.columns from rfl, hrequire]
      rfl
  refine (run_bounds hx (s.machine o)).trans ?_
  unfold Session.perform
  dsimp only
  cases expectIndex .structural s.columns column <;> rfl

/-- A question about the problem has the answer of the session, and changes nothing. -/
theorem Session.run_query {r : Request} (hq : r.isQuery = true) :
    (Machine.perform r).run (s.machine o) = .ok (.ok (s.perform r).2, s.machine o) := by
  cases r with
  | problem =>
    refine (run_lift_bind ((s.solver.contents o).view_machine o.threads)).trans ?_
    have hrows : (s.machine o).numRows = s.rows := Solver.numRows_machine
    rw [hrows]
    rfl
  | config => rfl
  | isCertificate y => exact run_lift_bind ((s.solver.contents o).isFarkasCertificate_machine o.threads y)
  | constraintBounds row => exact s.run_constraintBounds o row
  | variableBounds column => exact s.run_variableBounds o column
  | _ => cases hq

end Queries

/-- The machine stores the data of a sound session. -/
structure Machine.Realizes (k : Machine) (s : Session) : Prop where
  sound : s.Sound
  interval_ne : s.solver.config.refactorInterval ≠ 0
  stores : ∃ o, (s.solver.contents o).Meets o.threads ∧ k = s.machine o

/-- The machine answers a request like the session, and stores its data afterwards. -/
def Machine.Answers (k : Machine) (s : Session) (r : Request) : Prop :=
  ∃ k', (Machine.perform r).run k = .ok (.ok (s.perform r).2, k') ∧ k'.Realizes (s.perform r).1

namespace Machine.Realizes
variable {k : Machine} {s : Session}

/-- The data of the next session are stored. -/
theorem of_perform (h : k.Realizes s) (r : Request) {o : Surroundings}
    (hmeets : ((s.perform r).1.solver.contents o).Meets o.threads) :
    ((s.perform r).1.machine o).Realizes (s.perform r).1 :=
  ⟨h.sound.perform r, by rw [s.config_perform]; exact h.interval_ne, o, hmeets, rfl⟩

/-- An edit is accepted or refused like one of the session. One that is refused changes nothing. -/
theorem run_edit (h : k.Realizes s) (e : Edit) :
    (∃ t k', s.apply e = .ok t ∧ (Machine.apply e).run k = .ok (.ok (), k') ∧ k'.Realizes t) ∨
    ∃ cause, s.apply e = .error cause ∧ (Machine.apply e).run k = .ok (.error cause, k) := by
  obtain ⟨o, hmeets, rfl⟩ := h.stores
  have hrun := s.run_apply o e
  cases he : s.apply e with
  | ok t =>
    have hs : s.perform (.edit e) = (t, .done) := by rw [Session.perform, he]
    have hnext := h.of_perform (.edit e) (o := o) (hmeets.congr rfl)
    rw [hs] at hnext
    rw [he] at hrun
    exact .inl ⟨t, t.machine o, rfl, hrun, hnext⟩
  | error cause =>
    rw [he] at hrun
    exact .inr ⟨cause, rfl, hrun⟩

theorem answers_edit (h : k.Realizes s) (e : Edit) : k.Answers s (.edit e) := by
  unfold Answers
  rcases h.run_edit e with ⟨t, k', ht, hrun, hnext⟩ | ⟨cause, ht, hrun⟩
  · have hattempt : (Machine.apply e).attempt.run k = .ok (.ok (.ok ()), k') := by
      rw [run_attempt, hrun]
      rfl
    have hs : s.perform (.edit e) = (t, .done) := by rw [Session.perform, ht]
    rw [hs]
    exact ⟨k', run_bind_of_value hattempt, hnext⟩
  · have hattempt : (Machine.apply e).attempt.run k = .ok (.ok (.error cause), k) := by
      rw [run_attempt, hrun]
      rfl
    have hs : s.perform (.edit e) = (s, .refused cause) := by rw [Session.perform, ht]
    rw [hs]
    exact ⟨k, run_bind_of_value hattempt, h⟩

theorem query (h : k.Realizes s) {r : Request} (hq : r.isQuery = true) :
    (Machine.perform r).run k = .ok (.ok (s.perform r).2, k) := by
  obtain ⟨o, -, rfl⟩ := h.stores
  exact s.run_query o hq

theorem answers_query (h : k.Realizes s) {r : Request} (hq : r.isQuery = true) : k.Answers s r := by
  refine ⟨k, h.query hq, ?_⟩
  rw [s.perform_query hq]
  exact h

section Requests
variable {o : Surroundings} (h : (s.machine o).Realizes s) (hmeets : (s.solver.contents o).Meets o.threads)
include h hmeets

/-- A solve has the verdict of the session, with the same events and the same view shown. -/
theorem run_opt : ∃ v o', s.solver.optimize.outcome = .ok v ∧
    (s.solver.optimize.solver.contents o').Meets o'.threads ∧
    o'.log = s.solver.optimize.events ∧ o'.shown = s.solver.optimize.shown.map Problem.view ∧
    opt.run { s.machine o with shown := none, log := #[] } = .ok (.ok v, s.solver.optimize.solver.machine o') := by
  obtain ⟨v, perturbed, hv, hlead⟩ :=
    Solver.Sound.leads_opt h.sound h.interval_ne { o with shown := none, log := #[] } rfl rfl
  obtain ⟨threads, hmeets', hrun⟩ := hlead o.threads (hmeets.congr rfl)
  exact ⟨v, ⟨perturbed, s.solver.optimize.shown.map Problem.view, s.solver.optimize.events, threads⟩, hv,
    hmeets'.congr rfl, rfl, rfl, hrun⟩

theorem answers_optimize : (s.machine o).Answers s .optimize := by
  obtain ⟨v, o', hv, hmeets', hlog, hshown, hrun⟩ := run_opt h hmeets
  have hsound : s.solver.optimize.solver.Sound := h.sound.perform .optimize
  have hattempt : opt.attempt.run { s.machine o with shown := none, log := #[] } =
      .ok (.ok (.ok v), s.solver.optimize.solver.machine o') := by
    rw [run_attempt]
    exact congrArg (Except.map _) hrun
  have hreply : Session.solved s.solver.optimize =
      .solved v o'.log.toList o'.shown s.solver.optimize.solver.snapshot := by
    rw [Session.solved, hv, hlog, hshown]
  refine ⟨_, ?_, h.of_perform .optimize hmeets'⟩
  refine (run_bind_of_value hattempt).trans ((run_lift_bind hsound.snapshot_machine).trans ?_)
  rw [Session.perform, hreply]
  rfl

theorem answers_proof : (s.machine o).Answers s .proof := by
  obtain ⟨y, T, hT, hlead⟩ := Solver.Sound.leads_infeasibilityProof h.sound o
  obtain ⟨threads, hmeets', hrun⟩ := hlead o.threads hmeets
  have hproblem : T.problem = s.solver.problem := (Solver.keeps_infeasibilityProof hT).problem_eq
  have hattempt : infeasibilityProof.attempt.run (s.machine o) =
      .ok (.ok (.ok (y.map Vector.toList)), T.machine { o with threads := threads }) := by
    rw [run_attempt]
    exact congrArg (Except.map _) hrun
  refine ⟨_, ?_, h.of_perform .proof (o := { o with threads := threads }) (hmeets'.congr rfl)⟩
  have hs : s.perform .proof = ({ s with solver := T }, .proof (y.map fun y => y.toList)
      (y.map fun y => s.solver.problem.isCertificate y)) := by
    rw [Session.perform, hT]
  rw [hs]
  refine (run_bind_of_value hattempt).trans ?_
  cases y with
  | none => rfl
  | some y =>
    have hcheck := (T.contents { o with threads := threads }).isFarkasCertificate_machine threads y.toList
    refine (run_lift_bind hcheck).trans ?_
    have haccepts : (T.contents { o with threads := threads }).problem.accepts y.toList =
        s.solver.problem.isCertificate y := by
      rw [← Problem.accepts_toList, ← hproblem]
      rfl
    rw [haccepts]
    rfl

end Requests

theorem perform (h : k.Realizes s) (r : Request) : k.Answers s r := by
  obtain ⟨o, hmeets, rfl⟩ := h.stores
  cases r with
  | edit e => exact h.answers_edit e
  | optimize => exact h.answers_optimize hmeets
  | proof => exact h.answers_proof hmeets
  | snapshot => exact ⟨_, run_lift_bind (Solver.Sound.snapshot_machine h.sound), h⟩
  | problem => exact h.answers_query rfl
  | config => exact h.answers_query rfl
  | isCertificate y => exact h.answers_query rfl
  | constraintBounds row => exact h.answers_query rfl
  | variableBounds column => exact h.answers_query rfl

theorem exists_opt (h : k.Realizes s) : ∃ v t, s.solver.optimize.outcome = .ok v ∧
    opt.run { k with shown := none, log := #[] } = .ok (.ok v, t) ∧ t.Realizes (s.perform .optimize).1 ∧
    t.log = s.solver.optimize.events ∧ t.shown = s.solver.optimize.shown.map Problem.view := by
  obtain ⟨o, hmeets, rfl⟩ := h.stores
  obtain ⟨v, o', hv, hmeets', hlog, hshown, hrun⟩ := run_opt h hmeets
  exact ⟨v, _, hv, hrun, h.of_perform .optimize hmeets', hlog, hshown⟩

theorem after (h : k.Realizes s) (history : List Request) :
    ∃ k', k.after history = .ok k' ∧ k'.Realizes (s.after history) := by
  induction history generalizing k s with
  | nil => exact ⟨k, rfl, h⟩
  | cons r history ih =>
    obtain ⟨k', hrun, h'⟩ := h.perform r
    obtain ⟨k'', hafter, h''⟩ := ih h'
    refine ⟨k'', ?_, h''⟩
    unfold Machine.after at hafter ⊢
    rw [List.foldlM_cons]
    have hstep : (do return (← (Machine.perform r).run k).2 : Except Failure Machine) = .ok k' := bind_of_ok hrun
    exact (bind_of_ok hstep).trans hafter

end Machine.Realizes

section Create
variable {config : Config} {store : MatrixStore} {objective : List ℚ}
  {rowLower rowUpper variableLower variableUpper : List Bound} {schedule : List Turn}

theorem list_bounds {n m : ℕ} (least greatest : Vector Bound n) (lower upper : Vector Bound m) :
    (least.toList.zip greatest.toList).map (fun e => (⟨e.1, e.2⟩ : Bounds)) ++
      (lower.toList.zip upper.toList).map (fun e => Bounds.slack ⟨e.1, e.2⟩) =
    (⟨Vector.ofFn fun j => ⟨least.get j, greatest.get j⟩,
      Vector.ofFn fun i => Bounds.slack ⟨lower.get i, upper.get i⟩⟩ : PerVar Bounds n m).list := by
  rw [PerVar.list, toList_eq_map_get least, toList_eq_map_get greatest, toList_eq_map_get lower,
    toList_eq_map_get upper, List.zip_map', List.zip_map', List.map_map, List.map_map, Vector.toList_ofFn,
    Vector.toList_ofFn, List.ofFn_eq_map, List.ofFn_eq_map]
  rfl

/-- A session and a machine for it, or the same refusal of both. -/
def Session.Realized (x : Except Error Session) (y : Except Failure Machine) : Prop :=
  (∃ s k, x = .ok s ∧ y = .ok k ∧ k.Realizes s) ∨ ∃ cause, x = .error cause ∧ y = .error (.refused cause)

theorem Session.realized_of_length {α : Type} {what : Quantity} {count : ℕ} {xs : List α}
    {f : Vector α count → Except Error Session} {g : Unit → Except Failure Machine}
    (h : ∀ v : Vector α count, xs = v.toList → Realized (f v) (g ())) :
    Realized (expectLength what count xs >>= f) (requireLength what count xs >>= g) := by
  rcases expectLength_cases what count xs with ⟨v, hv, hexpect, hrequire⟩ | ⟨cause, hexpect, hrequire, -⟩
  · rw [hexpect, hrequire]
    exact h v hv
  · rw [hexpect, hrequire]
    exact .inr ⟨cause, rfl, rfl⟩

/-- A machine is created from the same data as a session, and refused for the same cause. -/
theorem Machine.create_realizes (hbuilt : store.Built) (hdistinct : store.matrix.Distinct) (schedule : List Turn) :
    Session.Realized (Session.create config store objective rowLower rowUpper variableLower variableUpper)
      (Machine.create config store.compressed objective rowLower rowUpper variableLower variableUpper schedule) := by
  have hrows : store.compressed.rowCount = store.rowCount := store.matrix.rowCount_compressed
  by_cases hinterval : config.refactorInterval = 0
  · refine .inr ⟨.zeroRefactorInterval, ?_, ?_⟩
    · unfold Session.create
      rw [if_pos hinterval]
      rfl
    · unfold Machine.create
      rw [require_of_not (not_not.mpr hinterval)]
      rfl
  · unfold Machine.create Session.create
    rw [if_neg hinterval, require_of hinterval, hrows]
    change Session.Realized (expectLength .objective store.columnCount objective >>= _)
      (requireLength .objective store.columnCount objective >>= _)
    refine Session.realized_of_length fun costs hcosts => Session.realized_of_length fun lower hlower =>
      Session.realized_of_length fun upper hupper => Session.realized_of_length fun least hleast =>
      Session.realized_of_length fun greatest hgreatest => ?_
    subst hcosts hlower hupper hleast hgreatest
    let o : Surroundings := ⟨false, none, #[.created store.rowCount store.columnCount],
      ⟨.spawn (schedule.headD {}).started, none, schedule.tail⟩⟩
    refine .inl ⟨_, _, rfl, bind_of_ok (cleared_of_size hrows rfl), ?_, hinterval, o, ⟨⟨rfl, rfl⟩, ?_, ?_⟩, ?_⟩
    · exact Solver.sound_ofProblem config ⟨hbuilt.mirrored, hdistinct⟩
    · intro _ _ h
      cases h
    · intro _ h
      cases h
    · dsimp only
      rw [list_bounds]
      rfl

end Create

section Reachable
variable {k : Machine}

/-- No row repeats a column. -/
def CompressedMatrix.Distinct (A : CompressedMatrix) : Prop :=
  ∀ i < A.rowCount, ∀ row ∈ (A.row i).toOption, (row.map Prod.fst).Nodup

instance (A : CompressedMatrix) : Decidable A.Distinct :=
  inferInstanceAs (Decidable (∀ i < A.rowCount, ∀ row ∈ (A.row i).toOption, (row.map Prod.fst).Nodup))

theorem SparseMatrix.distinct_of_compressed {m n : ℕ} {A : SparseMatrix m n} (h : A.compressed.Distinct) :
    A.Distinct := by
  intro i
  have hlt : (i : ℕ) < A.compressed.rowCount := by
    rw [A.rowCount_compressed]
    exact i.isLt
  have hrow := h i hlt (SparseVec.entries (A.rows.get i)) (by
    rw [A.row_compressed i]
    exact rfl)
  rw [SparseVec.entries, List.map_map] at hrow
  rw [SparseVec.keys]
  refine List.Nodup.of_map Fin.val ?_
  rw [List.map_map]
  exact hrow

/-- The machines that callers can have: created for a matrix in which no row repeats a column, and then given any
requests. What happens outside of them is arbitrary. -/
def Machine.Reachable (k : Machine) : Prop :=
  ∃ (config : Config) (matrix : CompressedMatrix) (objective : List ℚ)
    (rowLower rowUpper variableLower variableUpper : List Bound) (schedule : List Turn) (first : Machine)
    (history : List Request), matrix.Built ∧ matrix.Distinct ∧
      create config matrix objective rowLower rowUpper variableLower variableUpper schedule = .ok first ∧
      first.after history = .ok k

/-- Every machine that callers can have stores the data of a session that they can have. -/
theorem Machine.Reachable.realizes (h : k.Reachable) : ∃ s : Session, s.Reachable ∧ k.Realizes s := by
  obtain ⟨config, matrix, objective, rowLower, rowUpper, variableLower, variableUpper, schedule, first, history,
    hbuilt, hdistinct, hcreate, hafter⟩ := h
  obtain ⟨store, hstore, rfl⟩ := hbuilt.exists_store
  have hrows : store.matrix.Distinct := SparseMatrix.distinct_of_compressed hdistinct
  rcases Machine.create_realizes hstore hrows schedule with ⟨s, k', hs, hk', hrealizes⟩ | ⟨cause, -, hrefused⟩
  · cases hk'.symm.trans hcreate
    obtain ⟨t, ht, hfinal⟩ := hrealizes.after history
    cases ht.symm.trans hafter
    exact ⟨_, ⟨config, store, _, _, _, _, _, s, history, hstore, hrows, hs, rfl⟩, hfinal⟩
  · cases hrefused.symm.trans hcreate

end Reachable

end ExactSimplex
