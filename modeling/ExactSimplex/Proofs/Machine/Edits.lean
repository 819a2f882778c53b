import ExactSimplex.Machine.Edit
import ExactSimplex.Proofs.Machine.Steps

/-! # What an edit makes of a machine

All checks of an edit come before its first change, and nothing after that is refused, so an edit that is
refused leaves the whole machine as it was. An edit that is accepted does one of a few things.
-/
namespace ExactSimplex.Machine
open ExactSimplex.Action
variable {s t : Machine}

theorem neverRefused_notePositions (positions : List (Option ℕ)) (members : List ℕ) :
    NeverRefused (notePositions positions members) :=
  neverRefused_foldlM (fun _ _ => neverRefused_write _ _ _) _ _

theorem neverRefused_cleared (s : Machine) : NeverRefused s.cleared :=
  (neverRefused_notePositions _ _).bind fun _ => (neverRefused_notePositions _ _).bind fun _ => neverRefused_ok _

theorem neverRefused_placed (s : Machine) (e : List ℚ × List ℕ × List ℕ) (status : Status) (j : ℕ) :
    NeverRefused (s.placed e status j) := by
  refine (neverRefused_read _ _).bind fun b => ?_
  cases status with
  | basic => exact neverRefused_ok _
  | atLower => exact (neverRefused_write _ _ _).bind fun _ => neverRefused_ok _
  | atUpper => exact (neverRefused_write _ _ _).bind fun _ => neverRefused_ok _
  | free => exact (neverRefused_write _ _ _).bind fun _ => neverRefused_ok _

theorem neverRefused_imported (statuses : List Status) (s : Machine) : NeverRefused (imported statuses s) := by
  refine (neverRefused_foldlM (fun e v => s.neverRefused_placed _ _ _) _ _).bind fun _ => ?_
  exact (neverRefused_notePositions _ _).bind fun _ => (neverRefused_notePositions _ _).bind fun _ => neverRefused_ok _

theorem accepts_step {f : Machine → Except Failure Machine} (h : ∀ s, NeverRefused (f s)) : (step f).Accepts :=
  fun s => ends_step (fun _ _ => ⟨_, rfl⟩) fun cause hs => absurd hs (h s cause)

theorem accepts_changeBounds (index : ℕ) (f : Bounds → Bounds) : (changeBounds index f).Accepts :=
  accepts_step fun _ => (neverRefused_change _ _ _).bind fun _ => neverRefused_ok _

theorem accepts_clearBasis : clearBasis.Accepts := accepts_step neverRefused_cleared

theorem accepts_invalidateProof : invalidateProof.Accepts := accepts_modify _

theorem intact_pushRow (row : List ℚ) : (CompressedMatrix.pushRow row).Intact :=
  intact_get_bind fun _ => intact_lift_bind fun _ => intact_lift_bind fun A => (accepts_set A).intact

theorem intact_removeRow (i : ℕ) : (CompressedMatrix.removeRow i).Intact :=
  intact_get_bind fun _ => intact_lift_bind fun _ => intact_lift_bind fun _ => intact_lift_bind fun A =>
    (accepts_set A).intact

theorem run_onMatrix (p : Action CompressedMatrix Unit) (s : Machine) :
    (onMatrix p).run s = (p.run s.matrix).map fun r => (r.1, { s with matrix := r.2 }) := rfl

theorem intact_onMatrix {p : Action CompressedMatrix Unit} (hp : p.Intact) : (onMatrix p).Intact := by
  intro s r t h cause hr
  cases hrun : p.run s.matrix with
  | error failure =>
    rw [run_onMatrix, hrun] at h
    cases h
  | ok e =>
    rw [run_onMatrix, hrun] at h
    cases h
    rw [hp _ _ _ hrun cause hr]

theorem intact_changeBounds (index : ℕ) (f : Bounds → Bounds) :
    (do changeBounds index f; invalidateProof).Intact :=
  ((accepts_changeBounds index f).bind fun _ => accepts_invalidateProof).intact

theorem intact_setRightHandSide (row : ℕ) (value : ℚ) : (setRightHandSide row value).Intact := by
  refine intact_get_bind fun s => intact_lift_bind fun _ => intact_lift_bind fun slack => ?_
  dsimp only
  split
  · exact intact_changeBounds _ _
  · exact intact_changeBounds _ _
  · split
    · exact intact_changeBounds _ _
    · exact intact_lift_bind fun _ => accepts_invalidateProof.intact

theorem intact_setBase (structural slack : List Status) : (setBase structural slack).Intact := by
  refine intact_get_bind fun s => intact_lift_bind fun _ => intact_lift_bind fun _ => intact_lift_bind fun _ => ?_
  refine (accepts_clearBasis.bind fun _ => ?_).intact
  exact (accepts_step (neverRefused_imported _)).bind fun _ => accepts_invalidateProof

/-- An edit that is refused leaves the machine as it was. -/
theorem intact_apply (e : Edit) : (apply e).Intact := by
  cases e with
  | clearBasis => exact accepts_clearBasis.intact
  | addConstraint row sides =>
    refine intact_get_bind fun s => intact_lift_bind fun _ => (intact_onMatrix (intact_pushRow row)).bind fun _ => ?_
    refine (accepts_modify _).bind fun _ => (accepts_modify _).bind fun _ => ?_
    exact accepts_invalidateProof.bind fun _ => accepts_clearBasis
  | removeConstraint row =>
    refine intact_get_bind fun s => intact_lift_bind fun _ => (intact_onMatrix (intact_removeRow row)).bind fun _ => ?_
    refine (accepts_step fun t => ?_).bind fun _ => (accepts_modify _).bind fun _ => ?_
    · exact (neverRefused_removeAt _ _).bind fun _ => neverRefused_ok _
    · exact accepts_invalidateProof.bind fun _ => accepts_clearBasis
  | setSide row side value =>
    exact intact_get_bind fun s => intact_lift_bind fun _ => intact_changeBounds _ _
  | setRightHandSide row value => exact intact_setRightHandSide row value
  | setSides row sides =>
    exact intact_get_bind fun s => intact_lift_bind fun _ => intact_changeBounds _ _
  | setVariableBound column side value =>
    exact intact_get_bind fun s => intact_lift_bind fun _ => intact_changeBounds _ _
  | setVariableBounds column bounds =>
    exact intact_get_bind fun s => intact_lift_bind fun _ => intact_changeBounds _ _
  | setObjective costs =>
    refine intact_get_bind fun s => intact_lift_bind fun _ => ?_
    exact ((accepts_modify _).bind fun _ => accepts_invalidateProof).intact
  | setCutOff bound => exact (accepts_modify _).intact
  | importBasis structural slack =>
    exact intact_lift_bind fun _ => intact_lift_bind fun _ => intact_setBase _ _
  | setGuess ray => exact intact_get_bind fun s => intact_lift_bind fun _ => (accepts_modify _).intact
  | setProvider suggestions => exact (accepts_modify _).intact

end ExactSimplex.Machine
