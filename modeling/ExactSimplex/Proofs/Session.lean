import ExactSimplex.Session
import ExactSimplex.Proofs.Solver.Optimize

/-! # Sessions stay sound

A session for a matrix in which no row repeats a column starts sound. Every request keeps it sound,
refused or not, so the solver is sound after every history.
-/
namespace ExactSimplex

/-- A change of the bounds of a variable or of the sides of a row. -/
def Edit.changesBounds : Edit → Bool
  | .setSide _ _ _ => true
  | .setRightHandSide _ _ => true
  | .setSides _ _ => true
  | .setVariableBound _ _ _ => true
  | .setVariableBounds _ _ => true
  | _ => false

/-- No row repeats a column. -/
def SparseMatrix.Distinct {m n : ℕ} (A : SparseMatrix m n) : Prop :=
  ∀ i, (SparseVec.keys (A.rows.get i)).Nodup

instance {m n : ℕ} (A : SparseMatrix m n) : Decidable A.Distinct :=
  inferInstanceAs (Decidable (∀ i, (SparseVec.keys (A.rows.get i)).Nodup))

theorem Problem.accepts_toList {n m : ℕ} (P : Problem n m) (v : Vec m) : P.accepts v.toList = P.isCertificate v := by
  rw [accepts, expectLength_toList]

namespace Session
variable {s t : Session}

def Sound (s : Session) : Prop := s.solver.Sound

section Create
variable {config : Config} {store : MatrixStore} {objective : List ℚ}
  {rowLower rowUpper variableLower variableUpper : List Bound}

/-- A session starts with the given data and without a basis. -/
theorem create_eq
    (h : create config store objective rowLower rowUpper variableLower variableUpper = .ok s) :
    ∃ (costs : Vec store.columnCount) (lower upper : Vector Bound store.rowCount)
      (least greatest : Vector Bound store.columnCount),
      costs.toList = objective ∧ lower.toList = rowLower ∧ upper.toList = rowUpper ∧
      least.toList = variableLower ∧ greatest.toList = variableUpper ∧
      s = ⟨store.columnCount, store.rowCount, .ofProblem config {
        matrix := store.matrix
        objective := costs
        bounds := {
          structural := Vector.ofFn fun j => ⟨least.get j, greatest.get j⟩
          slack := Vector.ofFn fun i => Bounds.slack ⟨lower.get i, upper.get i⟩ }
        cutOff := none }⟩ := by
  unfold create at h
  split at h
  · cases h
  obtain ⟨costs, hcosts, h⟩ := exists_of_bind_eq_ok h
  obtain ⟨lower, hlower, h⟩ := exists_of_bind_eq_ok h
  obtain ⟨upper, hupper, h⟩ := exists_of_bind_eq_ok h
  obtain ⟨least, hleast, h⟩ := exists_of_bind_eq_ok h
  obtain ⟨greatest, hgreatest, h⟩ := exists_of_bind_eq_ok h
  cases h
  exact ⟨costs, lower, upper, least, greatest, toList_of_expectLength hcosts,
    toList_of_expectLength hlower, toList_of_expectLength hupper, toList_of_expectLength hleast,
    toList_of_expectLength hgreatest, rfl⟩

theorem sound_of_create (hstore : store.Built) (hrows : store.matrix.Distinct)
    (h : create config store objective rowLower rowUpper variableLower variableUpper = .ok s) :
    s.Sound := by
  obtain ⟨_, _, _, _, _, _, _, _, _, _, rfl⟩ := create_eq h
  exact Solver.sound_ofProblem config ⟨hstore.mirrored, hrows⟩

end Create

section Edits

/-- What an accepted edit makes of a session, unless it changes bounds or sides. -/
inductive Edited (s : Session) : Session → Prop
  | cleared : s.Edited { s with solver := s.solver.clearBasis }
  | lengthened (row : Vec s.columns) (sides : Bounds) :
    s.Edited ⟨s.columns, s.rows + 1, s.solver.addConstraint row sides⟩
  | shortened (i : Fin s.rows) : s.Edited ⟨s.columns, s.rows - 1, s.solver.removeConstraint i⟩
  | repriced (costs : Vec s.columns) : s.Edited { s with solver := s.solver.setObjective costs }
  | limited (bound : Bound) : s.Edited { s with solver := s.solver.setCutOff bound }
  | imported {structural slack : List Status} {T : Solver s.columns s.rows}
    (hT : s.solver.setStatuses structural slack = .ok T) : s.Edited { s with solver := T }
  | advised (guess : Option (Vector Double s.rows)) (provider : Option (List (Option Suggestion))) :
    s.Edited { s with solver := { s.solver with guess := guess, provider := provider } }

/-- An accepted edit replaces the bounds of one variable, or it makes one of the other changes. -/
theorem edited_of_apply {e : Edit} (h : s.apply e = .ok t) :
    (∃ v b, t = { s with solver := s.solver.setBounds v b }) ∨ e.changesBounds = false ∧ s.Edited t := by
  cases e with
  | clearBasis =>
    cases h
    exact .inr ⟨rfl, .cleared⟩
  | addConstraint row sides =>
    obtain ⟨row, _, h⟩ := exists_of_bind_eq_ok h
    cases h
    exact .inr ⟨rfl, .lengthened row sides⟩
  | removeConstraint row =>
    obtain ⟨i, _, h⟩ := exists_of_bind_eq_ok h
    cases h
    exact .inr ⟨rfl, .shortened i⟩
  | setSide row side value =>
    obtain ⟨i, _, h⟩ := exists_of_bind_eq_ok h
    cases h
    exact .inl ⟨_, _, rfl⟩
  | setRightHandSide row value =>
    obtain ⟨i, _, h⟩ := exists_of_bind_eq_ok h
    obtain ⟨T, hT, h⟩ := exists_of_bind_eq_ok h
    obtain ⟨b, rfl⟩ := Solver.setRightHandSide_eq hT
    cases h
    exact .inl ⟨_, _, rfl⟩
  | setSides row sides =>
    obtain ⟨i, _, h⟩ := exists_of_bind_eq_ok h
    cases h
    exact .inl ⟨_, _, rfl⟩
  | setVariableBound column side value =>
    obtain ⟨j, _, h⟩ := exists_of_bind_eq_ok h
    cases h
    exact .inl ⟨_, _, rfl⟩
  | setVariableBounds column bounds =>
    obtain ⟨j, _, h⟩ := exists_of_bind_eq_ok h
    cases h
    exact .inl ⟨_, _, rfl⟩
  | setObjective costs =>
    obtain ⟨costs, _, h⟩ := exists_of_bind_eq_ok h
    cases h
    exact .inr ⟨rfl, .repriced costs⟩
  | setCutOff bound =>
    cases h
    exact .inr ⟨rfl, .limited bound⟩
  | importBasis structural slack =>
    obtain ⟨structural, _, h⟩ := exists_of_bind_eq_ok h
    obtain ⟨slack, _, h⟩ := exists_of_bind_eq_ok h
    obtain ⟨T, hT, h⟩ := exists_of_bind_eq_ok h
    cases h
    exact .inr ⟨rfl, .imported hT⟩
  | setGuess ray =>
    obtain ⟨T, hT, h⟩ := exists_of_bind_eq_ok h
    obtain ⟨guess, _, hT⟩ := exists_of_bind_eq_ok hT
    cases hT
    cases h
    exact .inr ⟨rfl, .advised (some guess) s.solver.provider⟩
  | setProvider suggestions =>
    cases h
    exact .inr ⟨rfl, .advised s.solver.guess (some suggestions)⟩

end Edits

theorem Sound.apply (h : s.Sound) {change : Edit} (ht : s.apply change = .ok t) : t.Sound := by
  rcases edited_of_apply ht with ⟨v, b, rfl⟩ | ⟨-, hedited⟩
  · exact Solver.Sound.setBounds h v b
  · cases hedited with
    | cleared => exact h.clearBasis
    | lengthened row sides => exact h.addConstraint row sides
    | shortened i => exact h.removeConstraint i
    | repriced costs => exact h.setObjective costs
    | limited bound => exact h.setCutOff bound
    | imported hT => exact h.setStatuses hT
    | advised guess provider => exact h.withHints guess provider

theorem Sound.perform (h : s.Sound) (request : Request) : (s.perform request).1.Sound := by
  cases request with
  | edit change =>
    rw [Session.perform]
    cases hc : s.apply change with
    | ok t => exact h.apply hc
    | error cause => exact h
  | optimize =>
    obtain ⟨v, hv⟩ := Solver.Sound.optimize_solved h
    exact hv.sound
  | proof =>
    rw [Session.perform]
    cases hp : s.solver.infeasibilityProof with
    | ok result => exact h.infeasibilityProof hp
    | error failure => exact h
  | snapshot => exact h
  | problem => exact h
  | config => exact h
  | isCertificate y => exact h
  | constraintBounds row =>
    rw [Session.perform]
    split <;> exact h
  | variableBounds column =>
    rw [Session.perform]
    split <;> exact h

theorem Sound.after (h : s.Sound) (history : List Request) : (s.after history).Sound := by
  induction history generalizing s with
  | nil => exact h
  | cons request history ih => exact ih (h.perform request)

/-- The sessions that callers can have: created for a matrix in which no row repeats a column, and
then given any requests. -/
def Reachable (s : Session) : Prop :=
  ∃ (config : Config) (store : MatrixStore) (objective : List ℚ)
    (rowLower rowUpper variableLower variableUpper : List Bound) (first : Session)
    (history : List Request), store.Built ∧ store.matrix.Distinct ∧
      create config store objective rowLower rowUpper variableLower variableUpper = .ok first ∧
      s = first.after history

theorem Reachable.sound (h : s.Reachable) : s.Sound := by
  obtain ⟨_, _, _, _, _, _, _, _, history, hstore, hrows, hcreate, rfl⟩ := h
  exact (sound_of_create hstore hrows hcreate).after history

end Session

end ExactSimplex
