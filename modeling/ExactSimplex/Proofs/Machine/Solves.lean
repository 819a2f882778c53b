import ExactSimplex.Proofs.Frame
import ExactSimplex.Proofs.Machine.Edited
import ExactSimplex.Proofs.Machine.Runs

/-! # The solves of a machine

A solve of a machine goes the way of the solve of its solver: the provider and an imported basis give the same
state to start from, the guess is judged in the same way, and the search comes to the same verdict.
-/
namespace ExactSimplex
variable {n m : ℕ}
open ExactSimplex.Action Machine Contents

namespace Solver
variable {S : Solver n m} {o : Surroundings}

section Seed

theorem leads_attempt_of_answer {p : Action Machine Unit} {x : Except Error (Solver n m)}
    (h : ∀ o, p.run (S.machine o) = S.answer o x) (o : Surroundings) :
    (∃ T, x = .ok T ∧ Leads p.attempt (S.contents o) (.ok ()) (T.contents o)) ∨
    ∃ cause, x = .error cause ∧ Leads p.attempt (S.contents o) (.error cause) (S.contents o) := by
  cases x with
  | ok T =>
    refine .inl ⟨T, rfl, fun threads hmeets => ⟨threads, hmeets.congr rfl, ?_⟩⟩
    rw [run_attempt]
    exact congrArg (Except.map _) (h { o with threads := threads })
  | error cause =>
    refine .inr ⟨cause, rfl, fun threads hmeets => ⟨threads, hmeets, ?_⟩⟩
    rw [run_attempt]
    exact congrArg (Except.map _) (h { o with threads := threads })

/-- The solver and the events after a ray is taken for a guess or ignored. -/
def takeRay (S : Solver n m) (events : Array Event) : Option (List Double) → Solver n m × Array Event
  | none => (S, events)
  | some ray =>
    match S.setGuess ray with
    | .ok next => (next, events)
    | .error cause => (S, events.push (.ignoredRay cause))

theorem leads_followRay (S : Solver n m) (o : Surroundings) (ray : Option (List Double)) :
    Leads (followRay ray) (S.contents o) ()
      ((S.takeRay o.log ray).1.contents { o with log := (S.takeRay o.log ray).2 }) := by
  unfold takeRay
  cases ray with
  | none => exact leads_pure _ _
  | some ray =>
    dsimp only
    rcases leads_attempt_of_answer (fun o => S.run_setGuess o ray) o with ⟨T, hT, hlead⟩ | ⟨cause, hT, hlead⟩
    · rw [hT]
      exact hlead.bind (leads_pure _ _)
    · rw [hT]
      exact hlead.bind (leads_record _ _)

theorem leads_follow (S : Solver n m) (o : Surroundings) (hlog : o.log = #[]) (suggestion : Suggestion) :
    Leads (Machine.follow suggestion) (S.contents o) ()
      ((S.follow suggestion).1.contents { o with log := (S.follow suggestion).2 }) := by
  obtain ⟨perturbed, shown, log, threads⟩ := o
  cases hlog
  unfold Solver.follow
  rcases leads_attempt_of_answer (fun o => S.run_setBase o suggestion.structural suggestion.slack)
    ⟨perturbed, shown, #[], threads⟩ with ⟨T, hT, hlead⟩ | ⟨cause, hT, hlead⟩
  · rw [hT]
    refine hlead.bind ((leads_record _ _).bind ?_)
    exact T.leads_followRay ⟨perturbed, shown, #[.importedBasis], threads⟩ suggestion.ray
  · rw [hT]
    refine hlead.bind ((leads_record _ _).bind ?_)
    exact S.leads_followRay ⟨perturbed, shown, #[.ignoredBasis cause], threads⟩ suggestion.ray

/-- Without a basis the provider is asked. -/
theorem leads_seedFromProvider (S : Solver n m) (o : Surroundings) (hlog : o.log = #[]) (hshown : o.shown = none) :
    Leads seedFromProvider (S.withoutProof.contents o) () (S.seeded.1.contents
      { o with log := S.seeded.2.1, shown := S.seeded.2.2.map Problem.view }) := by
  obtain ⟨perturbed, shown, log, o⟩ := o
  cases hlog
  cases hshown
  unfold seeded
  generalize S.withoutProof = T
  intro threads hmeets
  refine reaches_get_bind ?_
  have hpresent : ((T.contents ⟨perturbed, none, #[], o⟩).machine threads).hasBasis = T.start.isPresent := rfl
  rw [hpresent]
  cases hstart : T.start with
  | imported point => exact hmeets.reaches_pure _
  | warm state => exact hmeets.reaches_pure _
  | cold =>
    have hprovider : ((T.contents ⟨perturbed, none, #[], o⟩).machine threads).provider = T.provider := rfl
    rw [hprovider]
    dsimp only [Start.isPresent]
    unfold consult
    cases hp : T.provider with
    | none => exact hmeets.reaches_pure _
    | some suggestions =>
      refine reaches_lift_bind ((T.contents ⟨perturbed, none, #[], o⟩).view_machine threads) ?_
      refine reaches_set_bind (D := ({ T with provider := some suggestions.tail } : Solver n m).contents
        ⟨perturbed, some T.problem.view, #[], o⟩) ?_ (hmeets.congr rfl) ?_
      · unfold contents
        rw [hstart]
        rfl
      cases suggestions with
      | nil =>
        have hT : ({ T with provider := some [] } : Solver n m) = T := by rw [← hp]
        change Leads (pure ()) (({ T with provider := some [] } : Solver n m).contents _) () (T.contents _)
        rw [hT]
        exact leads_pure _ _
      | cons suggestion rest =>
        cases suggestion with
        | none => exact leads_pure _ _
        | some suggestion => exact leads_follow _ ⟨perturbed, some T.problem.view, #[], o⟩ rfl suggestion

end Seed

section Prepare
variable {C : Contents n m} {log : Array Event} {state : State n m}

theorem leads_logicalBasis (hA : C.problem.matrix.Mirrored)
    (hs : State.ofPoint C.problem C.context.config.searchLimit (Point.origin n m) 0 (some (Vector.replicate m 1)) none
      C.log = .ok state) (htau : C.tau = none) :
    Leads logicalBasis C () (state.contents C.context C.problem) := by
  let D : Contents n m := ⟨C.context, C.problem, true, Point.origin n m, none, 0, some (Vector.replicate m 1), none,
    C.log, none⟩
  have hclear : Leads Machine.clearBasis C () { D with hasBasis := false, weights := none } := by
    refine leads_step (fun threads => ?_) (by rw [htau])
    exact cleared_of_size (C.numRows_machine threads) (C.numCols_machine threads)
  refine hclear.bind (Leads.bind (D := D) (leads_modify (fun threads => ?_) rfl) ?_)
  · rw [Contents.numRows_machine, toList_replicate]
    rfl
  · exact leads_refactor (C := D) hA Basis.valid_slack hs

theorem leads_attempt_refactor_of_refused (hA : C.problem.matrix.Mirrored) {cause : Error}
    (hs : State.ofPoint C.problem C.context.config.searchLimit C.point C.pivots C.weights C.stuck C.log =
      .error (.refused cause)) : Leads Machine.refactor.attempt C (.error cause) C := by
  intro threads hmeets
  refine ⟨threads, hmeets, ?_⟩
  have hrun : Machine.refactor.run (C.machine threads) = .ok (.error cause, C.machine threads) := by
    unfold Machine.refactor step
    rw [run_get_bind]
    exact run_lift_bind_of_refused (refactored_machine_of_error hA hs)
  rw [run_attempt, hrun]
  rfl

/-- Take the slack basis if there is no other one. -/
def ensureBasis : Action Machine Unit := do
  if (← get).hasBasis then return () else logicalBasis

theorem leads_ensureBasis_of_present (h : C.hasBasis = true) : Leads ensureBasis C () C := by
  refine leads_get_bind fun threads => ?_
  change Leads (if C.hasBasis = true then _ else _) _ _ _
  rw [if_pos h]
  exact leads_pure _ _

theorem leads_ensureBasis_of_absent {D : Contents n m} (h : C.hasBasis = false) (hD : Leads logicalBasis C () D) :
    Leads ensureBasis C () D := by
  refine leads_get_bind fun threads => ?_
  change Leads (if C.hasBasis = true then _ else _) _ _ _
  rw [if_neg (by simp [h])]
  exact hD

theorem leads_factorizeImported_of_ready (h : C.hasBasis = false ∨ C.factors.isSome = true) :
    Leads factorizeImported C () C := by
  refine leads_get_bind fun threads => ?_
  change Leads (if (C.hasBasis && (C.factors.map fun F => (⟨m, F⟩ : BasisFactors)).isNone) = true then _ else _) _ _ _
  rw [if_neg ?_]
  · exact leads_pure _ _
  · rcases h with h | h
    · simp [h]
    · simp [Option.isSome_iff_ne_none.mp h]

/-- An imported basis is factorized, or it gives way to the slack basis. -/
theorem leads_start_of_imported (h : S.Sound) (o : Surroundings) {point : Point n m} (hst : S.start = .imported point)
    (hs : S.startState o.log = .ok state) :
    Leads (do factorizeImported; ensureBasis) (S.contents o) () (state.contents (S.context o) S.problem) := by
  have hstart := h.start
  unfold startState at hs
  rw [hst] at hs hstart
  dsimp only at hs
  let C : Contents n m := ⟨S.context o, S.problem, true, point, none, 0, none, none, o.log, none⟩
  have hC : S.contents o = C := by
    unfold contents
    rw [hst]
    rfl
  have hA := h.simple.toMirrored
  rw [hC]
  cases hpoint : State.ofPoint S.problem S.config.searchLimit point 0 none none o.log with
  | ok t =>
    rw [hpoint] at hs
    cases hs
    have hfactorize : Leads factorizeImported C () (state.contents (S.context o) S.problem) := by
      refine leads_get_bind fun threads => ?_
      exact (leads_attempt (leads_refactor (C := C) hA hstart hpoint)).bind (leads_pure _ _)
    exact hfactorize.bind (leads_ensureBasis_of_present rfl)
  | error failure =>
    rw [hpoint] at hs
    cases failure with
    | refused cause =>
      let D : Contents n m := { C with log := o.log.push (.unusableBasis cause), hasBasis := false }
      have hfactorize : Leads factorizeImported C () D := by
        refine leads_get_bind fun threads => ?_
        refine (leads_attempt_refactor_of_refused (C := C) hA hpoint).bind ?_
        exact (leads_record _ _).bind (leads_modify (fun _ => rfl) rfl)
      exact hfactorize.bind (leads_ensureBasis_of_absent rfl (leads_logicalBasis (C := D) hA hs rfl))
    | divisionByZero => cases hs
    | outside => cases hs
    | assertion => cases hs
    | exhausted => cases hs

/-- However a solve starts, the factorized basis is that of the state that the search starts from. -/
theorem leads_start (h : S.Sound) (o : Surroundings) (hstuck : S.start.stuck? = none)
    (hs : S.startState o.log = .ok state) :
    Leads (do factorizeImported; ensureBasis) (S.contents o) () (state.contents (S.context o) S.problem) := by
  have hbasis : (S.contents o).hasBasis = S.start.isPresent := rfl
  cases hst : S.start with
  | imported point => exact leads_start_of_imported h o hst hs
  | cold =>
    unfold startState at hs
    rw [hst] at hs hbasis
    refine (leads_factorizeImported_of_ready (.inl hbasis)).bind (leads_ensureBasis_of_absent hbasis ?_)
    exact leads_logicalBasis (C := S.contents o) h.simple.toMirrored hs rfl
  | warm t =>
    unfold startState at hs
    rw [hst] at hs hbasis hstuck
    cases hs
    have hfactors : (S.contents o).factors = S.start.factors? := rfl
    rw [hst] at hfactors
    have hcontents : S.contents o =
        ({ t with stuck := none, log := o.log } : State n m).contents (S.context o) S.problem := by
      rw [contents_of_warm hst]
      have hstuck : t.stuck = none := hstuck
      unfold State.contents
      rw [hstuck]
    rw [← hcontents]
    exact (leads_factorizeImported_of_ready (.inr (by rw [hfactors]; rfl))).bind
      (leads_ensureBasis_of_present hbasis)

end Prepare

section Guess
variable {P : Problem n m} {c : Context} {s : State n m}

theorem rayAt_contents (hA : P.matrix.Mirrored) (s : State n m) (c : Context) (threads : Threads) (ray : Vec m)
    (v : Var n m) :
    ((s.contents c P).machine threads).rayAt ray.toList v.index = .ok (SparseVec.dot (P.column v) ray) := by
  cases v with
  | structural j =>
    unfold Machine.rayAt
    rw [if_pos (by exact j.isLt)]
    have hcolumn : ((s.contents c P).machine threads).matrix.column j =
        .ok (SparseVec.entries (P.matrix.columns.get j)) := hA.column_compressed j
    have hproducts : (SparseVec.entries (P.matrix.columns.get j)).mapM (fun e => do
        return e.2 * (← read ray.toList e.1)) =
        .ok ((P.matrix.columns.get j).map fun e => e.2 * ray.get e.1) := by
      rw [SparseVec.entries, List.mapM_map]
      exact mapM_of_forall fun e _ => bind_of_ok (read_toList ray e.1)
    refine (bind_of_ok hcolumn).trans ((bind_of_ok hproducts).trans ?_)
    rw [addUp_eq_sum, Problem.column, SparseVec.dot, foldl_add_eq_sum, zero_add]
    rfl
  | slack i =>
    unfold Machine.rayAt
    rw [if_neg (by simp [Var.index]), Contents.numCols_machine, Var.index, Nat.add_sub_cancel_left, read_toList]
    simp [Problem.column, SparseVec.dot]

theorem mapM_toList {α β : Type} (f : α → Option β) (v : Vector α m) :
    v.toList.mapM f = (v.mapM f).map Vector.toList := by
  have harray : Vector.toArray <$> v.mapM f = List.toArray <$> v.toList.mapM f := by
    rw [Vector.toArray_mapM, Array.mapM_eq_mapM_toList]
    rfl
  have hlist := congrArg (Option.map Array.toList) harray
  rw [Option.map_eq_map, Option.map_eq_map, Option.map_map, Option.map_map] at hlist
  exact (hlist.trans Option.map_id').symm

/-- The rounded multipliers of a ray guess, or the reason why it is not used. -/
def multipliers (P : Problem n m) (cfg : Config) (s : State n m) (guess : Vector Double m) : Except Event (Vec m) :=
  if guess.any fun v => decide (v = .nan) || v.exceeds cfg.magnitudeLimit then .error .guessInvalid
  else
    match guess.mapM cfg.numbers.ofDouble?, cfg.numbers.ofDouble? cfg.roundingTolerance with
    | some ray, some tolerance =>
      let y := s.basis.basic.map fun v => Problem.snap tolerance (SparseVec.dot (P.column v) ray)
      if y.all fun v => decide (v.abs ≤ tolerance) then .error .guessZero else .ok y
    | _, _ => .error .guessInexact

theorem checkGuess_eq (P : Problem n m) (cfg : Config) (s : State n m) (guess : Vector Double m) :
    P.checkGuess cfg s guess = match multipliers P cfg s guess with
      | .error e => some (.error e)
      | .ok y => (s.factors.solveTransposed y).map fun y =>
        if P.isCertificate y then .ok y else .error .guessRefuted := by
  unfold Problem.checkGuess multipliers
  split
  · rfl
  · cases guess.mapM cfg.numbers.ofDouble? with
    | none => rfl
    | some ray =>
      cases cfg.numbers.ofDouble? cfg.roundingTolerance with
      | none => rfl
      | some tolerance =>
        dsimp only
        split <;> rfl

theorem guessMultipliers_contents (hA : P.matrix.Mirrored) (s : State n m) (c : Context) (threads : Threads)
    (guess : Vector Double m) : ((s.contents c P).machine threads).guessMultipliers guess.toList =
      .ok ((multipliers P c.config s guess).map Vector.toList) := by
  unfold Machine.guessMultipliers multipliers
  rw [Contents.numRows_machine, ← Vector.any_toList]
  have hconfig : ((s.contents c P).machine threads).config = c.config := rfl
  rw [hconfig]
  by_cases hany : (guess.toList.any fun v => decide (v = .nan) || v.exceeds c.config.magnitudeLimit) = true
  · rw [if_pos hany, if_pos (.inr hany)]
    rfl
  · rw [if_neg hany, if_neg (not_or.mpr ⟨not_not.mpr Vector.length_toList, hany⟩), mapM_toList]
    cases guess.mapM c.config.numbers.ofDouble? with
    | none => rfl
    | some ray =>
      cases c.config.numbers.ofDouble? c.config.roundingTolerance with
      | none => rfl
      | some tolerance =>
        have hy : ((s.contents c P).machine threads).basic.mapM (fun j => do
            return Problem.snap tolerance (← ((s.contents c P).machine threads).rayAt ray.toList j)) =
            .ok (s.basis.basic.map fun v => Problem.snap tolerance (SparseVec.dot (P.column v) ray)).toList :=
          mapM_indices _ fun v => bind_of_ok (rayAt_contents hA s c threads ray v)
        refine (bind_of_ok hy).trans ?_
        rw [Vector.all_toList]
        dsimp only
        split <;> rfl

theorem leads_checkGuess (h : s.Sound P) (hA : P.matrix.Mirrored) {guess : Vector Double m}
    (hguess : c.guess = some guess.toList) :
    (∃ e, P.checkGuess c.config s guess = some (.error e) ∧
      Leads Machine.checkGuess (s.contents c P) false ((s.record e).contents c P)) ∨
    ∃ y, P.checkGuess c.config s guess = some (.ok y) ∧
      Leads Machine.checkGuess (s.contents c P) true (s.contents { c with proof := some y.toList } P) := by
  have hmachine (threads : Threads) : ((s.contents c P).machine threads).guess = some guess.toList := hguess
  rw [checkGuess_eq]
  cases hy : multipliers P c.config s guess with
  | error e =>
    refine .inl ⟨e, rfl, leads_get_bind fun threads => ?_⟩
    rw [hmachine]
    refine leads_lift_bind (guessMultipliers_contents hA s c threads guess) ?_
    rw [hy]
    exact (leads_record _ _).bind (leads_pure _ _)
  | ok y =>
    obtain ⟨z, hz, -⟩ := h.factors.solveTransposed_eq y
    have hcheck (threads : Threads) : ((s.contents c P).machine threads).isFarkasCertificate z.toList =
        .ok (P.isCertificate z) := by
      rw [isFarkasCertificate_machine, ← Problem.accepts_toList]
      rfl
    dsimp only
    rw [hz, Option.map_some]
    cases hcert : P.isCertificate z with
    | true =>
      refine .inr ⟨z, rfl, leads_get_bind fun threads => ?_⟩
      rw [hmachine]
      refine leads_lift_bind (guessMultipliers_contents hA s c threads guess) ?_
      rw [hy]
      refine (leads_factorization rfl).bind ?_
      refine leads_lift_bind (BasisFactors.btran_of_solveTransposed h.factors.length_order hz) ?_
      refine leads_lift_bind (hcheck threads) ?_
      rw [hcert]
      exact Leads.bind (D := s.contents { c with proof := some z.toList } P) (leads_modify (fun _ => rfl) rfl)
        (leads_pure _ _)
    | false =>
      refine .inl ⟨.guessRefuted, rfl, leads_get_bind fun threads => ?_⟩
      rw [hmachine]
      refine leads_lift_bind (guessMultipliers_contents hA s c threads guess) ?_
      rw [hy]
      refine (leads_factorization rfl).bind ?_
      refine leads_lift_bind (BasisFactors.btran_of_solveTransposed h.factors.length_order hz) ?_
      refine leads_lift_bind (hcheck threads) ?_
      rw [hcert]
      exact (leads_record _ _).bind (leads_pure _ _)

end Guess

section Search

/-- What is left of a solve when no guess has decided it. -/
def searched : Action Machine Verdict := do
  let verdict ← Machine.solve 2
  modify fun s => if verdict = .optimal then { s with guess := none, proof := none } else s
  record (.finished verdict)
  return verdict

theorem leads_solve_of_contradictory {v : Var n m} {c : Context} {P : Problem n m} (s : State n m)
    (hv : P.contradictory? = some v) : Leads (Machine.solve 2) (s.contents c P) .infeasible
      ((s.record (.contradictoryBounds v.index)).contents { c with proof := some (Vec.zero m).toList } P) := by
  have hrun : Leads Machine.run (s.contents c P) (.verdict .infeasible)
      ((s.record (.contradictoryBounds v.index)).contents { c with proof := some (Vec.zero m).toList } P) := by
    refine leads_get_bind fun threads => ?_
    have hsome : (s.contents c P).problem.contradictory? = some v := hv
    rw [contradictory?_machine, hsome]
    let D := (s.record (.contradictoryBounds v.index)).contents { c with proof := some (Vec.zero m).toList } P
    refine (leads_record _ _).bind (Leads.bind (D := D) (leads_modify (fun threads => ?_) rfl) (leads_pure _ _))
    rw [Contents.numRows_machine, toList_replicate]
    rfl
  exact hrun.bind (leads_pure _ _)

variable {state : State n m}

/-- The search of a machine ends like the search of its solver. -/
theorem leads_searched (h : S.Sound) (hp : S.proof = none) (hs : state.Sound S.problem)
    (hinterval : S.config.refactorInterval ≠ 0) (o : Surroundings) (ho : o.perturbed = false)
    (shown : Option (Problem n m)) :
    ∃ v perturbed, (S.search shown state).outcome = .ok v ∧
      Leads searched (state.contents (S.context o) S.problem) v ((S.search shown state).solver.contents
        { o with perturbed := perturbed, log := (S.search shown state).events }) := by
  unfold search
  cases hc : S.problem.contradictory? with
  | some v =>
    refine ⟨.infeasible, o.perturbed, rfl, (leads_solve_of_contradictory state hc).bind ?_⟩
    exact Leads.bind (leads_modify (fun _ => rfl) rfl) ((leads_record _ _).bind (leads_pure _ _))
  | none =>
    have hcons := Problem.contradictory?_eq_none_iff.mp hc
    obtain ⟨t, v, ht, -⟩ := hs.solve_eq h.simple S.config hcons
    obtain ⟨perturbed, hlead⟩ := leads_solve (c := S.context o) h.simple hinterval rfl hcons hs ho ht
    rw [show state.solve S.problem S.config = .ok (t, v) from ht]
    refine ⟨v, perturbed, rfl, hlead.bind ?_⟩
    dsimp only
    by_cases hv : v = .optimal
    · rw [if_pos hv]
      let T : Solver n m := { S with guess := none }
      let D := t.contents { T.context { o with perturbed := perturbed } with proof := none } S.problem
      have hD : D = t.contents (T.context { o with perturbed := perturbed }) S.problem := by
        rw [context, show T.proof = none from hp]
        rfl
      have hforget : Leads (modify fun s : Machine =>
          if v = .optimal then { s with guess := none, proof := none } else s)
          (t.contents { S.context o with perturbed := perturbed } S.problem) () D :=
        leads_modify (fun _ => if_pos hv) rfl
      rw [hD] at hforget
      exact hforget.bind ((leads_record _ _).bind (leads_pure _ _))
    · rw [if_neg hv]
      refine Leads.bind (leads_modify (fun _ => if_neg hv) rfl) ((leads_record _ _).bind ?_)
      exact leads_pure _ _

/-- The guess is judged first. -/
def guessedOrSearched : Action Machine Verdict := do
  if ← Machine.checkGuess then
    Machine.computePrimal
    Machine.computeDual
    record .guessVerified
    return .infeasible
  else searched

theorem leads_guessedOrSearched (h : S.Sound) (hp : S.proof = none) (hs : state.Sound S.problem)
    (hinterval : S.config.refactorInterval ≠ 0) (o : Surroundings) (ho : o.perturbed = false)
    (shown : Option (Problem n m)) :
    ∃ v perturbed, (S.searchWithGuess shown state).outcome = .ok v ∧
      Leads guessedOrSearched (state.contents (S.context o) S.problem) v
        ((S.searchWithGuess shown state).solver.contents
          { o with perturbed := perturbed, log := (S.searchWithGuess shown state).events }) := by
  have hA := h.simple.toMirrored
  unfold searchWithGuess
  cases hguess : S.guess with
  | none =>
    obtain ⟨v, perturbed, hv, hlead⟩ := leads_searched h hp hs hinterval o ho shown
    refine ⟨v, perturbed, hv, Leads.bind (a := false) ?_ hlead⟩
    refine leads_get_bind fun threads => ?_
    have hnone : (state.contents (S.context o) S.problem).context.guess = none :=
      congrArg (Option.map Vector.toList) hguess
    rw [Contents.guess_machine, hnone]
    exact leads_pure _ _
  | some guess =>
    have hcontext : (S.context o).guess = some guess.toList := by
      rw [context, hguess]
      rfl
    dsimp only
    rcases leads_checkGuess (c := S.context o) hs hA hcontext with ⟨e, he, hcheck⟩ | ⟨y, hy, hcheck⟩
    · rw [show S.problem.checkGuess S.config state guess = _ from he]
      have hrecord : (state.record e).Sound S.problem := hs.of_eq rfl rfl rfl
      obtain ⟨v, perturbed, hv, hlead⟩ := leads_searched h hp hrecord hinterval o ho shown
      exact ⟨v, perturbed, hv, hcheck.bind hlead⟩
    · rw [show S.problem.checkGuess S.config state guess = _ from hy]
      obtain ⟨x, hx, -⟩ := hs.computePrimal_eq hA
      have hs' : ({ state with values := x } : State n m).Sound S.problem := hs.of_eq rfl rfl rfl
      obtain ⟨d, hd, -⟩ := hs'.computeDual_eq
      have hrecompute : state.recompute S.problem = some { state with values := x, reduced := d } := by
        rw [State.recompute, hx, Option.bind_some, hd]
      rw [hrecompute]
      refine ⟨.infeasible, o.perturbed, rfl, hcheck.bind ?_⟩
      refine (leads_computePrimal hs hA hx).bind ((leads_computeDual hs' hd).bind ?_)
      rw [context, hguess]
      exact (leads_record _ _).bind (leads_pure _ _)

end Search

section Optimize

theorem stuck_setStatuses {structural slack : List Status} {T : Solver n m}
    (h : S.setStatuses structural slack = .ok T) :
    T.start.stuck? = none := by
  obtain ⟨statuses, h⟩ := setStatuses_eq h
  unfold importBasis at h
  dsimp only at h
  split at h
  · cases h
    rfl
  · cases h

theorem stuck_seeded (S : Solver n m) : S.seeded.1.start.stuck? = none := by
  unfold seeded
  split
  · next hcold =>
    have hstuck : S.withoutProof.start.stuck? = none := by rw [hcold]; rfl
    unfold consult
    split
    · exact hstuck
    · exact hstuck
    · exact hstuck
    · next suggestion rest _ =>
      obtain ⟨T, hT, hnext⟩ := follow_cases { S.withoutProof with provider := some rest } suggestion
      have hT : T.start.stuck? = none := by
        rcases hT with rfl | hT
        · exact hstuck
        · exact stuck_setStatuses hT
      rcases hnext with heq | ⟨ray, -, hnext⟩
      · rw [heq]
        exact hT
      · obtain ⟨guess, -, hnext⟩ := exists_of_bind_eq_ok hnext
        rw [← Except.ok.inj hnext]
        exact hT
  · unfold withoutProof
    cases S.start <;> rfl

/-- A machine solves like its solver: it comes to the same verdict and stores the data of the solver afterwards. -/
theorem Sound.leads_opt (h : S.Sound) (hinterval : S.config.refactorInterval ≠ 0) (o : Surroundings)
    (hlog : o.log = #[]) (hshown : o.shown = none) :
    ∃ v perturbed, S.optimize.outcome = .ok v ∧ Leads opt (S.contents o) v (S.optimize.solver.contents
      { o with
        perturbed := perturbed
        shown := S.optimize.shown.map Problem.view
        log := S.optimize.events }) := by
  obtain ⟨state, hstate, hs, -, -, heq⟩ := h.optimize_eq_search
  have hint := h.seeded_hinted.1
  have hkeeps := S.keeps_seeded
  let o' : Surroundings := { o with perturbed := false }
  let seeded : Surroundings := { o' with log := S.seeded.2.1, shown := S.seeded.2.2.map Problem.view }
  have hreset : Leads (modify fun s : Machine => { s with stuck := none, proof := none, perturbed := false })
      (S.contents o) () (S.withoutProof.contents o') := by
    have hcontents : S.withoutProof.contents o' = { S.contents o with
        context := { S.context o with proof := none, perturbed := false }
        stuck := none } := by
      unfold Solver.withoutProof contents
      cases S.start <;> rfl
    rw [hcontents]
    exact leads_modify (fun _ => rfl) rfl
  have hprepare : Leads prepare (S.withoutProof.contents o') ()
      (state.contents (S.seeded.1.context seeded) S.seeded.1.problem) :=
    (leads_seedFromProvider S o' hlog hshown).bind (leads_start hint.sound seeded S.stuck_seeded hstate)
  obtain ⟨v, perturbed, hv, hsearch⟩ := leads_guessedOrSearched hint.sound hint.proof_eq hs
    (by rwa [hkeeps.config_eq]) seeded rfl S.seeded.2.2
  rw [S.keeps_optimize.2, heq]
  exact ⟨v, perturbed, hv, hreset.bind (hprepare.bind hsearch)⟩

end Optimize

section Proof

theorem leads_infeasibilityProof_of_stuck {state : State n m} {v : Var n m} {y : Vec m} (hs : state.Sound S.problem)
    (hwarm : S.start = .warm state) (hstuck : state.stuck = some v) (hproof : S.proof = none)
    (hy : stuckRay S.problem state v = some (some y)) (o : Surroundings) :
    Leads Machine.infeasibilityProof (S.contents o) (some y.toList)
      (({ S with proof := some y } : Solver n m).contents o) := by
  unfold stuckRay at hy
  cases hplace : state.basis.place.get v with
  | nonbasic k =>
    rw [hplace] at hy
    cases hy
  | basic i =>
    rw [hplace] at hy
    dsimp only at hy
    obtain ⟨z, hz, hy⟩ := Option.map_eq_some_iff.mp hy
    cases hy
    let C : Contents n m := { state.contents (S.context o) S.problem with log := o.log }
    have hC : S.contents o = C := contents_of_warm hwarm
    have hproof' : C.context.proof = none := congrArg (Option.map Vector.toList) hproof
    have hstuck' : C.stuck.map Var.index = some v.index := congrArg (Option.map Var.index) hstuck
    have hend : ({ S with proof := some y } : Solver n m).contents o =
        { C with context := { C.context with proof := some y.toList } } :=
      contents_of_warm (S := { S with proof := some y }) hwarm
    have hrow (threads : Threads) : read (C.machine threads).basicPosition v.index = .ok (some i.val) :=
      (C.read_basicPosition threads v).trans (congrArg (fun p : Place n m => Except.ok p.row?) hplace)
    rw [hC, hend]
    refine leads_get_bind fun threads => ?_
    rw [Contents.proof_machine, Contents.stuck_machine, hproof', hstuck']
    refine leads_lift_bind (hrow threads) (leads_lift_bind (C.read_bounds threads v) ?_)
    refine leads_lift_bind (PerVar.read_list state.values v) ?_
    dsimp only
    rw [Contents.numRows_machine, toList_replicate]
    refine leads_lift_bind (write_toList (Vec.zero m) i _) ((leads_factorization rfl).bind ?_)
    refine leads_lift_bind (BasisFactors.btran_of_solveTransposed hs.factors.length_order hz) ?_
    exact Leads.bind (D := { C with context := { C.context with proof := some y.toList } })
      (leads_modify (fun _ => rfl) rfl) (leads_pure _ _)

/-- A machine proves infeasibility like its solver. -/
theorem Sound.leads_infeasibilityProof (h : S.Sound) (o : Surroundings) :
    ∃ y T, S.infeasibilityProof = .ok (y, T) ∧
      Leads Machine.infeasibilityProof (S.contents o) (y.map Vector.toList) (T.contents o) := by
  have hfound : ∀ y, S.proof = some y →
      Leads Machine.infeasibilityProof (S.contents o) (some y.toList) (S.contents o) := fun y hy => by
    refine leads_get_bind fun threads => ?_
    rw [Contents.proof_machine, show (S.contents o).context.proof = some y.toList from
      congrArg (Option.map Vector.toList) hy]
    exact leads_pure _ _
  have hnothing : S.proof = none → S.start.stuck? = none →
      Leads Machine.infeasibilityProof (S.contents o) none (S.contents o) := fun hp hstuck => by
    refine leads_get_bind fun threads => ?_
    rw [Contents.proof_machine, Contents.stuck_machine,
      show (S.contents o).context.proof = none from congrArg (Option.map Vector.toList) hp,
      show (S.contents o).stuck.map Var.index = none from congrArg (Option.map Var.index) hstuck]
    exact leads_pure _ _
  cases hp : S.proof with
  | some y =>
    refine ⟨some y, S, ?_, hfound y hp⟩
    unfold Solver.infeasibilityProof
    rw [hp]
  | none =>
    unfold Solver.infeasibilityProof
    rw [hp]
    cases hs : S.start with
    | cold => exact ⟨none, S, rfl, hnothing hp (by rw [hs]; rfl)⟩
    | imported point => exact ⟨none, S, rfl, hnothing hp (by rw [hs]; rfl)⟩
    | warm state =>
      dsimp only
      cases hv : state.stuck with
      | none => exact ⟨none, S, rfl, hnothing hp (by rw [hs]; exact hv)⟩
      | some v =>
        obtain ⟨y, hy, -⟩ := h.stuck state v hs hv
        have hstart := h.start
        rw [hs] at hstart
        simp only [hy]
        exact ⟨some y, { S with proof := some y }, by rw [hs], leads_infeasibilityProof_of_stuck hstart hs hv hp hy o⟩

end Proof

end Solver

end ExactSimplex
