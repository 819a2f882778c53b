import ExactSimplex.Proofs.Iterates

/-! # The weights of the rows

A solver that starts from the slack basis knows that all weights are one. From then on the weights are
carried over from pivot to pivot by a recurrence, moved along when the basis positions are reordered, and
kept when bounds, sides, costs or the cut off are changed between two solves. Whenever there are weights,
they are those of the basis that the state has.
-/
namespace ExactSimplex
open Matrix
variable {n m : ℕ}

namespace State
variable {P : Problem n m} {s t : State n m}

/-- The weights are the squared norms of the rows of the inverse, in the order of the basis positions, and
what a computation from the factors gives. -/
structure Weighted (P : Problem n m) (s : State n m) (w : Vec m) : Prop where
  regular : IsUnit (P.basisMatrix s.basis)
  length_eq : w.toList.length = m
  get_eq : ∀ i, w.get i = ∑ k, (P.basisMatrix s.basis)⁻¹ i k ^ 2
  recomputed : exactWeights s.factors = some w
  pos : ∀ i, 0 < w.get i

theorem Sound.weighted (h : s.Sound P) {w : Vec m} (hw : s.weights = some w) : s.Weighted P w where
  regular := h.isUnit
  length_eq := by simp
  get_eq i := by
    rw [h.weights w hw i]
    exact Finset.sum_congr rfl fun k _ => (sq _).symm
  recomputed := by
    obtain ⟨exact, hexact, hget⟩ := exactWeights_eq h.factors
    rw [hexact, table_ext fun i => (hget i).trans (h.weights w hw i).symm]
  pos := h.weight_pos hw

/-- However a pass ends, it ends with a sound state. -/
theorem Underway.sound_of_pass (h : s.Underway P) {cfg : Config} {mayStall : Bool} {p : Progress}
    {result : PassResult} (ht : s.pass P cfg mayStall p = .ok (t, result)) : t.Sound P := by
  rcases h.ready.pass_cases h.simple h.consistent cfg mayStall p with
    ⟨u, ending, hu, hstops⟩ | ⟨u, hu, hsteps⟩
  · cases hu.symm.trans ht
    exact hstops.ready.toSound
  · cases hu.symm.trans ht
    exact hsteps.ready.toSound

end State

namespace Solver
variable {S : Solver n m} {Q : Problem n m} {u : State n m}

/-- The states that a solver can be found in, with the problem that is solved then: the one that it keeps
between two solves, the one that a solve searches from, those at the top of a pass, and those that a pass
ends with. -/
inductive Holds (S : Solver n m) : Problem n m → State n m → Prop
  | kept {s : State n m} (hs : S.start = .warm s) : Holds S S.problem s
  | searched {s : State n m} (hs : S.SearchesFrom s) : Holds S S.problem s
  | visited {Q : Problem n m} {u : State n m} (hu : S.Visits Q u) : Holds S Q u
  | passed {Q : Problem n m} {u t : State n m} {mayStall : Bool} {p : Progress} {result : PassResult}
      (hu : S.Visits Q u) (ht : u.pass Q S.config mayStall p = .ok (t, result)) : Holds S Q t

theorem Holds.sound (h : S.Holds Q u) (hS : S.Sound) : u.Sound Q := by
  cases h with
  | kept hs =>
    have hstart := hS.start
    rw [hs] at hstart
    exact hstart
  | searched hs => exact hs.sound hS
  | visited hu => exact (hu.underway hS).ready.toSound
  | passed hu ht => exact (hu.underway hS).sound_of_pass ht

end Solver

namespace Session
variable {s : Session} {Q : Problem s.columns s.rows} {u : State s.columns s.rows}

/-- Whatever has happened in a session, and wherever a solve is, with or without Bland's rule: weights
that are known are exact. -/
theorem Opened.weights_exact (h : s.Opened) (hrows : s.solver.problem.matrix.Distinct)
    (hu : s.solver.Holds Q u) : ∀ w, u.weights = some w → u.Weighted Q w :=
  fun _ hw => (hu.sound (h.consistent.sound hrows)).weighted hw

/-- The second pass of phase one follows Bland's rule, and the factors are made anew after it. -/
theorem weights_exact_of_surrogate :
    ∃ first : Session, ∃ Q u t p' before after,
      create { refactorInterval := 1 } (.ofRowList (n := 2) [[(0, 1), (1, 1)], [(0, 2), (1, -1)]]) [-1, -2]
        [some 5, some 2] [none, none] [some 0, some 0] [none, none] = .ok first ∧
      first.solver.problem.matrix.Distinct ∧ first.solver.Visits Q u ∧
      u.pass Q first.solver.config true { bland := true } = .ok (t, .next p') ∧
      u.weights = some before ∧ before.toList = [1, 2] ∧ u.Weighted Q before ∧
      t.weights = some after ∧ after.toList = [5 / 9, 2 / 9] ∧ t.Weighted Q after := by
  have hrun : (create { refactorInterval := 1 }
      (.ofRowList (n := 2) [[(0, 1), (1, 1)], [(0, 2), (1, -1)]]) [-1, -2]
      [some 5, some 2] [none, none] [some 0, some 0] [none, none]).toOption.any
      (fun first => decide first.solver.problem.matrix.Distinct && (first.solver.firstTop? 1).any fun top =>
        (top.2.pass top.1 first.solver.config true { bland := true }).toOption.any fun result =>
          (match result.2 with
          | .next _ => true
          | .stop _ => false) &&
          (top.2.weights.any fun w => decide (w.toList = [1, 2])) &&
          (result.1.weights.any fun w => decide (w.toList = [5 / 9, 2 / 9]))) = true := by decide +kernel
  obtain ⟨first, hfirst, hrun⟩ := exists_of_toOption_any hrun
  obtain ⟨hrows, hrun⟩ := Bool.and_eq_true_iff.mp hrun
  obtain ⟨⟨Q, u⟩, htop, hrun⟩ := (Option.any_eq_true _ _).mp hrun
  obtain ⟨⟨t, result⟩, hpass, hrun⟩ := exists_of_toOption_any hrun
  obtain ⟨hrun, hafter⟩ := Bool.and_eq_true_iff.mp hrun
  obtain ⟨hnext, hbefore⟩ := Bool.and_eq_true_iff.mp hrun
  obtain ⟨before, hbefore, hones⟩ := (Option.any_eq_true _ _).mp hbefore
  obtain ⟨after, hafter, hninths⟩ := (Option.any_eq_true _ _).mp hafter
  cases result with
  | stop ending => cases hnext
  | next p' =>
    have hstore : (MatrixStore.ofRowList (n := 2) [[(0, 1), (1, 1)], [(0, 2), (1, -1)]]).Built :=
      .compressed (rfl : MatrixStore.ofCompressed [1, 1, 2, -1] [0, 1, 0, 1] [0, 2, 4] 2 = _)
    have hopened : Opened first := ⟨_, _, _, _, _, _, _, first, [], hstore, hfirst, rfl⟩
    have hrows := of_decide_eq_true hrows
    have hvisits := Solver.visits_of_firstTop? htop
    exact ⟨first, Q, u, t, p', before, after, hfirst, hrows, hvisits, hpass,
      hbefore, of_decide_eq_true hones, hopened.weights_exact hrows (.visited hvisits) _ hbefore,
      hafter, of_decide_eq_true hninths, hopened.weights_exact hrows (.passed hvisits hpass) _ hafter⟩

end Session

end ExactSimplex
