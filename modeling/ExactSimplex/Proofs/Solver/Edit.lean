import ExactSimplex.Solver.Edit
import ExactSimplex.Proofs.Certificate

/-! # Solvers under edits

A sound solver has a matrix in which no row repeats a column, a starting point whose basis is a
partition and whose factors fit, and proofs of infeasibility that hold for the problem as it is.
Every edit keeps that: one that changes the bounds, the sides or the rows forgets the proofs, and
the others do not matter for them.
-/
namespace ExactSimplex
variable {n m : ℕ}

def Start.Sound (P : Problem n m) : Start n m → Prop
  | .cold => True
  | .imported point => point.basis.Valid
  | .warm state => state.Sound P

/-- The multipliers prove infeasibility, or they are zero and some bounds are contradictory. -/
def Problem.Refutes (P : Problem n m) (y : Vec m) : Prop :=
  P.isCertificate y = true ∨ y = Vec.zero m ∧ ∃ v, (P.bounds.get v).isContradictory = true

namespace Solver
variable {S : Solver n m}

structure Sound (S : Solver n m) : Prop where
  simple : S.problem.matrix.Simple
  start : S.start.Sound S.problem
  proof : ∀ y, S.proof = some y → S.problem.Refutes y
  stuck : ∀ state v, S.start = .warm state → state.stuck = some v →
    ∃ y, stuckRay S.problem state v = some (some y) ∧ S.problem.isCertificate y = true

theorem sound_of_cold (h : S.problem.matrix.Simple) (hs : S.start = .cold) (hp : S.proof = none) :
    S.Sound where
  simple := h
  start := by
    rw [hs]
    trivial
  proof y hy := by
    rw [hp] at hy
    cases hy
  stuck state v hw _ := by
    rw [hs] at hw
    cases hw

theorem sound_ofProblem (config : Config) {P : Problem n m} (h : P.matrix.Simple) :
    (ofProblem config P).Sound := sound_of_cold h rfl rfl

theorem sound_start_congr {P Q : Problem n m} {start : Start n m} (h : start.Sound P)
    (hm : Q.matrix = P.matrix) : start.Sound Q := by
  cases start with
  | cold => trivial
  | imported point => exact h
  | warm state => exact State.Sound.congr h hm

theorem sound_start_unstuck {P : Problem n m} {start : Start n m} (h : start.Sound P) :
    start.unstuck.Sound P := by
  cases start with
  | cold => trivial
  | imported point => exact h
  | warm state => exact State.Sound.of_eq h rfl rfl rfl

theorem stuck_of_unstuck {start : Start n m} {state : State n m} (h : start.unstuck = .warm state) :
    state.stuck = none := by
  cases start with
  | cold => cases h
  | imported point => cases h
  | warm state =>
    cases h
    rfl

theorem Sound.of_unstuck (h : S.Sound) {T : Solver n m} (hm : T.problem.matrix = S.problem.matrix)
    (hs : T.start = S.start.unstuck) (hp : T.proof = none) : T.Sound where
  simple := by
    rw [hm]
    exact h.simple
  start := by
    rw [hs]
    exact sound_start_congr (sound_start_unstuck h.start) hm
  proof y hy := by
    rw [hp] at hy
    cases hy
  stuck state v hw hv := by
    rw [stuck_of_unstuck (hs.symm.trans hw)] at hv
    cases hv

theorem Sound.withoutProof (h : S.Sound) : S.withoutProof.Sound := h.of_unstuck rfl rfl rfl

theorem Sound.setBounds (h : S.Sound) (v : Var n m) (b : Bounds) : (S.setBounds v b).Sound :=
  h.of_unstuck rfl rfl rfl

theorem Sound.setObjective (h : S.Sound) (objective : Vec n) : (S.setObjective objective).Sound :=
  h.of_unstuck rfl rfl rfl

/-- Setting a right-hand side changes the bounds of the slack of its row. -/
theorem setRightHandSide_eq {i : Fin m} {value : ℚ} {T : Solver n m}
    (hT : S.setRightHandSide i value = .ok T) : ∃ b, T = S.setBounds (.slack i) b := by
  unfold setRightHandSide at hT
  dsimp only at hT
  split at hT
  · cases hT
    exact ⟨_, rfl⟩
  · cases hT
    exact ⟨_, rfl⟩
  · split at hT
    · cases hT
      exact ⟨_, rfl⟩
    · cases hT

/-- The cut-off is not part of what is proved. -/
theorem Sound.setCutOff (h : S.Sound) (bound : Bound) : (S.setCutOff bound).Sound where
  simple := h.simple
  start := sound_start_congr h.start rfl
  proof := h.proof
  stuck := h.stuck

theorem Sound.restart (h : S.Sound) (start : Start n m) (hs : start.Sound S.problem)
    (hw : ∀ state, start ≠ .warm state) {proof : Option (Vec m)}
    (hp : ∀ y, proof = some y → S.problem.Refutes y) (guess : Option (Vector Double m))
    (provider : Option (List (Option Suggestion))) :
    ({ S with start := start, proof := proof, guess := guess, provider := provider } :
      Solver n m).Sound where
  simple := h.simple
  start := hs
  proof := hp
  stuck state _ hstate _ := absurd hstate (hw state)

theorem Sound.clearBasis (h : S.Sound) : S.clearBasis.Sound :=
  h.restart .cold trivial (fun _ he => by cases he) h.proof S.guess S.provider

theorem Sound.withHints (h : S.Sound) (guess : Option (Vector Double m))
    (provider : Option (List (Option Suggestion))) :
    ({ S with guess := guess, provider := provider } : Solver n m).Sound :=
  ⟨h.simple, h.start, h.proof, h.stuck⟩

theorem Sound.setGuess (h : S.Sound) {ray : List Double} {T : Solver n m}
    (hT : S.setGuess ray = .ok T) : T.Sound := by
  obtain ⟨guess, _, hT⟩ := exists_of_bind_eq_ok hT
  cases hT
  exact h.withHints (some guess) S.provider

section Import

theorem get_tableOf {α : Type} {xs : List α} (h : xs.length = m) (i : Fin m) :
    (tableOf xs h).get i = xs[i.val] := rfl

theorem tableOf_injective {α : Type} {xs : List α} (h : xs.length = m) (hn : xs.Nodup) :
    Function.Injective (tableOf xs h).get := by
  intro i j hij
  rw [get_tableOf, get_tableOf] at hij
  exact Fin.ext (hn.getElem_inj_iff.mp hij)

theorem get_tableOf_mem {α : Type} {xs : List α} (h : xs.length = m) (i : Fin m) :
    (tableOf xs h).get i ∈ xs := List.getElem_mem _

theorem get_statusValues (bounds : PerVar Bounds n m) (statuses : PerVar Status n m) (v : Var n m) :
    (statusValues bounds statuses).get v = statusValue (bounds.get v) (statuses.get v) := by
  cases v with
  | structural j => exact get_ofFn _ j
  | slack i => exact get_ofFn _ i

/-- The lists of an import hold every variable exactly once. -/
theorem valid_withStatus {statuses : PerVar Status n m} {test : Status → Bool}
    (hb : (withStatus statuses test).length = m)
    (hn : (withStatus statuses fun s => !test s).length = n) :
    (Basis.ofLists (tableOf _ hb) (tableOf _ hn)).Valid := by
  refine Basis.valid_ofLists (tableOf_injective hb (Var.nodup_all.filter _))
    (tableOf_injective hn (Var.nodup_all.filter _)) fun i k hik => ?_
  have hi := (List.mem_filter.mp (get_tableOf_mem hb i)).2
  have hk := (List.mem_filter.mp (get_tableOf_mem hn k)).2
  rw [← hik] at hk
  simp [hi] at hk

theorem Sound.importBasis (h : S.Sound) {statuses : PerVar Status n m} {T : Solver n m}
    (hT : S.importBasis statuses = .ok T) : T.Sound := by
  unfold Solver.importBasis at hT
  dsimp only at hT
  split at hT
  · next hb =>
    cases hT
    refine h.restart (.imported _) ?_ (fun _ he => by cases he) (fun y hy => by cases hy) S.guess
      S.provider
    exact valid_withStatus hb _
  · cases hT

theorem importBasis_eq {statuses : PerVar Status n m} {T : Solver n m}
    (hT : S.importBasis statuses = .ok T) :
    ∃ start, T = { S with start := start, proof := none } := by
  unfold Solver.importBasis at hT
  dsimp only at hT
  split at hT
  · cases hT
    exact ⟨_, rfl⟩
  · cases hT

theorem setStatuses_eq {structural slack : List Status} {T : Solver n m}
    (hT : S.setStatuses structural slack = .ok T) : ∃ statuses, S.importBasis statuses = .ok T := by
  obtain ⟨_, _, hT⟩ := exists_of_bind_eq_ok hT
  obtain ⟨_, _, hT⟩ := exists_of_bind_eq_ok hT
  exact ⟨_, hT⟩

theorem Sound.setStatuses (h : S.Sound) {structural slack : List Status} {T : Solver n m}
    (hT : S.setStatuses structural slack = .ok T) : T.Sound := by
  obtain ⟨statuses, hs⟩ := setStatuses_eq hT
  exact h.importBasis hs

end Import

theorem Sound.addConstraint (h : S.Sound) (row : Vec n) (sides : Bounds) :
    (S.addConstraint row sides).Sound := sound_of_cold (h.simple.pushRow row) rfl rfl

theorem Sound.removeConstraint (h : S.Sound) (i : Fin m) : (S.removeConstraint i).Sound :=
  sound_of_cold (h.simple.removeRow i) rfl rfl

/-- Asking for the proof gives one that holds now, or none, and never fails. -/
theorem Sound.infeasibilityProof_cases (h : S.Sound) :
    (S.infeasibilityProof = .ok (none, S) ∧ S.proof = none ∧
      ∀ state, S.start = .warm state → state.stuck = none) ∨
    ∃ y, S.problem.Refutes y ∧ S.infeasibilityProof = .ok (some y, { S with proof := some y }) := by
  unfold Solver.infeasibilityProof
  cases hp : S.proof with
  | some y =>
    have hself : ({ S with proof := some y } : Solver n m) = S := by
      cases S
      cases hp
      rfl
    exact Or.inr ⟨y, h.proof y hp, by rw [hself]⟩
  | none =>
    cases hs : S.start with
    | cold => exact Or.inl ⟨rfl, rfl, fun state hw => by cases hw⟩
    | imported point => exact Or.inl ⟨rfl, rfl, fun state hw => by cases hw⟩
    | warm state =>
      dsimp only
      cases hv : state.stuck with
      | none =>
        refine Or.inl ⟨rfl, rfl, fun state' hw => ?_⟩
        cases hw
        exact hv
      | some v =>
        obtain ⟨y, hy, hcert⟩ := h.stuck state v hs hv
        exact Or.inr ⟨y, Or.inl hcert, by simp only [hy]⟩

theorem Sound.infeasibilityProof (h : S.Sound) {y : Option (Vec m)} {T : Solver n m}
    (hT : S.infeasibilityProof = .ok (y, T)) : T.Sound := by
  rcases h.infeasibilityProof_cases with ⟨hn, _⟩ | ⟨z, hz, hs⟩
  · rw [hn] at hT
    cases hT
    exact h
  · rw [hs] at hT
    cases hT
    refine ⟨h.simple, h.start, fun y hy => ?_, h.stuck⟩
    cases hy
    exact hz

end Solver

end ExactSimplex
