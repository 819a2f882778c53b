import ExactSimplex.Proofs.Machine.Moves

/-! # The problem survives a solve

Phase one overwrites the bounds of a machine, and the run with perturbed costs its objective and its cut-off;
within one such run the other may start. Whatever these runs come to, everything is put back on the way out.
The steps in between work on the basis only.
-/
namespace ExactSimplex.Machine
open ExactSimplex.Action

/-- The problem that a machine holds, with its parameters. -/
structure Data where
  config : Config
  matrix : CompressedMatrix
  objective : List ℚ
  bounds : List Bounds
  cutOff : Bound

def data (s : Machine) : Data := ⟨s.config, s.matrix, s.objective, s.bounds, s.cutOff⟩

/-- A machine holds a problem, and its provider has been shown a view. -/
def Holds (D : Data) (V : Option ProblemView) (s : Machine) : Prop := s.data = D ∧ s.shown = V

variable {D : Data} {V : Option ProblemView} {s t : Machine}

/-- No change that a solve makes is one of the problem, apart from those of the two special runs. -/
theorem preserves_holds (D : Data) (V : Option ProblemView) : Preserves Changes (Holds D V) := by
  intro s t h hs
  cases h with
  | moves h =>
    cases h with
    | inner h =>
      cases h with
      | values h =>
        obtain ⟨_, -, rfl⟩ := h
        exact hs
      | threads h =>
        obtain ⟨_, _, _, rfl⟩ := h
        exact hs
      | notes => exact hs
      | reduced _ h =>
        obtain ⟨_, -, rfl⟩ := reduced_eq h
        exact hs
      | steppedDual h =>
        obtain ⟨_, -, rfl⟩ := steppedDual_eq h
        exact hs
      | reweighted h =>
        obtain ⟨_, -, rfl⟩ := reweighted_eq h
        exact hs
      | weighed => exact hs
    | refactored h =>
      obtain ⟨_, _, _, _, _, _, -, -, -, -, -, rfl⟩ := refactored_eq h
      exact hs
    | exchanged _ _ h =>
      obtain ⟨_, _, -, -, -, -, -, -, rfl⟩ := exchanged_eq h
      exact hs
    | replaced => exact hs
  | cleared h =>
    obtain ⟨_, _, -, -, rfl⟩ := cleared_eq h
    exact hs
  | imported _ _ h =>
    obtain ⟨_, _, _, _, _, -, -, -, rfl⟩ := imported_eq h
    exact hs
  | dropped => exact hs
  | slack => exact hs

section Run

/-- The true bounds are back after phase one. -/
theorem keeps_phaseOne : phaseOne.Keeps (Holds D V) := by
  refine ((preserves_holds D V).moves.inner.keeps_record _).bind fun _ => ?_
  rintro s ⟨rfl, rfl⟩
  refine ends_get_bind (ends_modify_bind ?_)
  have hrun : Keeps (Holds { s.data with bounds := s.bounds.map Bounds.surrogate } s.shown)
      (runWith true (fail .exhausted)) := (preserves_holds _ _).moves.keeps_runWith true (keeps_fail _)
  refine (hrun { s with bounds := s.bounds.map Bounds.surrogate } ⟨rfl, rfl⟩).attempt_bind
    fun result t ht => ends_get_bind (ends_modify_bind ?_)
  have hback : Holds s.data s.shown { t with bounds := s.bounds } :=
    ⟨congrArg (fun D : Data => { D with bounds := s.bounds }) ht.1, ht.2⟩
  refine (?_ : Keeps (Holds s.data s.shown) _) _ hback
  split
  · exact keeps_refuse _
  · exact keeps_pure _
  · split
    · exact ((preserves_holds _ _).moves.inner.keeps_record _).bind fun _ => keeps_pure _
    · exact ((preserves_holds _ _).moves.inner.keeps_record _).bind fun _ => keeps_pure _

theorem keeps_run : run.Keeps (Holds D V) := (preserves_holds D V).moves.keeps_runWith false keeps_phaseOne

/-- The true costs and the cut-off are back after the run with perturbed costs. -/
theorem keeps_solvePerturbed : solvePerturbed.Keeps (Holds D V) := by
  rintro s ⟨rfl, rfl⟩
  refine ends_get_bind (ends_lift_bind (fun objective _ => ?_) fun _ _ => ⟨rfl, rfl⟩)
  refine ends_modify_bind (ends_modify_bind (ends_modify_bind ?_))
  have hrun : Keeps (Holds { s.data with objective := objective, cutOff := none } s.shown) run :=
    keeps_run
  refine (hrun { s with
    objective := objective
    perturbed := true
    cutOff := none
    log := s.log.push .costsPerturbed } ⟨rfl, rfl⟩).attempt_bind fun result t ht => ends_modify_bind ?_
  have hback : Holds s.data s.shown { t with objective := s.objective, cutOff := s.cutOff } :=
    ⟨congrArg (fun D : Data => { D with objective := s.objective, cutOff := s.cutOff }) ht.1, ht.2⟩
  refine (?_ : Keeps (Holds s.data s.shown) _) _ hback
  split
  · exact keeps_refuse _
  · exact keeps_pure _

end Run

section Opt

theorem neverRefused_line (values : List ℚ) (indices starts : List ℕ) (i : ℕ) :
    NeverRefused (CompressedMatrix.line values indices starts i) := by
  refine (neverRefused_read _ _).bind fun start => (neverRefused_read _ _).bind fun stop => ?_
  exact (neverRefused_slice _ _ _).bind fun _ => (neverRefused_slice _ _ _).bind fun _ => neverRefused_ok _

theorem neverRefused_view (s : Machine) : NeverRefused s.view := by
  refine (neverRefused_mapM (fun i => ?_) _).bind fun rows => ?_
  · exact (neverRefused_line _ _ _ _).bind fun row =>
      neverRefused_foldlM (fun dense e => neverRefused_write _ _ _) _ _
  · refine (neverRefused_mapM (fun i => ?_) _).bind fun _ => ?_
    · exact (neverRefused_read _ _).bind fun _ => neverRefused_ok _
    · exact (neverRefused_mapM (fun j => neverRefused_read _ _) _).bind fun _ => neverRefused_ok _

/-- The view that a solve shows to the provider, if it asks it. -/
def shownBy (s : Machine) : Option ProblemView :=
  if s.hasBasis ∨ s.provider = none then s.shown else s.view.toOption

theorem ends_seedFromProvider : seedFromProvider.Ends s fun _ => Holds s.data s.shownBy := by
  refine ends_get_bind ?_
  split
  · next suggestions hbasis hprovider =>
    refine ends_lift_bind (fun view hview => ends_set_bind ?_) fun cause hcause => ?_
    · have hstart : Holds s.data s.shownBy { s with shown := some view, provider := some suggestions.tail } :=
        ⟨rfl, by simp [shownBy, hbasis, hprovider, hview, Except.toOption]⟩
      refine (?_ : Keeps (Holds s.data s.shownBy) _) _ hstart
      split
      · exact keeps_pure _
      · exact (preserves_holds _ _).keeps_follow _
    · exact absurd hcause (s.neverRefused_view cause)
  · next hnot =>
    have hasked : s.hasBasis ∨ s.provider = none := by
      cases hbasis : s.hasBasis with
      | true => exact .inl rfl
      | false =>
        cases hprovider : s.provider with
        | none => exact .inr rfl
        | some suggestions => exact absurd hprovider (hnot suggestions hbasis)
    exact keeps_pure _ _ ⟨rfl, (if_pos hasked).symm⟩

theorem ends_prepare : prepare.Ends s fun _ => Holds s.data s.shownBy := by
  refine ends_seedFromProvider.bind (fun _ t ht => ?_) fun _ t ht => ht
  refine (?_ : Keeps (Holds s.data s.shownBy) _) t ht
  refine (preserves_holds _ _).keeps_factorizeImported.bind fun _ => keeps_get_bind fun u _ => ?_
  split
  · exact keeps_pure _
  · exact (preserves_holds _ _).keeps_logicalBasis

/-- Whatever a solve comes to, the machine holds the same problem, and the provider has been shown it if it
was asked. -/
theorem ends_opt : opt.Ends s fun _ => Holds s.data s.shownBy := by
  refine ends_modify_bind ?_
  refine Ends.bind ends_prepare (fun _ t ht => ?_) fun _ t ht => ht
  refine (?_ : Keeps (Holds s.data s.shownBy) _) t ht
  refine (preserves_holds _ _).keeps_checkGuess.bind fun proved => ?_
  split
  · refine (preserves_holds _ _).moves.keeps_computePrimal.bind fun _ =>
      (preserves_holds _ _).moves.keeps_computeDual.bind fun _ => ?_
    exact ((preserves_holds _ _).moves.inner.keeps_record _).bind fun _ => keeps_pure _
  · refine (keeps_solve keeps_run keeps_solvePerturbed 2).bind fun v =>
      Keeps.bind (keeps_modify fun u hu => ?_) fun _ => ?_
    · split
      · exact hu
      · exact hu
    · exact ((preserves_holds _ _).moves.inner.keeps_record _).bind fun _ => keeps_pure _

end Opt

end ExactSimplex.Machine
