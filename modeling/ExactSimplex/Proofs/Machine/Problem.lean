import ExactSimplex.Proofs.Machine.Frame
import ExactSimplex.Proofs.Machine.Sessions

/-! # The problem of a machine after a solve

What overwrites bounds, costs and the cut-off during a solve puts them back, whatever the solve comes to. So the
machine answers questions about its problem as before, the provider is shown the problem as it is, and the duals
and reduced costs that are left behind belong to the true costs.
-/
namespace ExactSimplex.Machine
open ExactSimplex.Action
variable {k t : Machine}

section Queries

end Queries

/-- A machine that is asked to solve shows its provider the problem, if there is a provider and no basis. -/
theorem shownBy_eq_some_iff {V : ProblemView} : shownBy { k with shown := none, log := #[] } = some V ↔
    k.hasBasis = false ∧ k.provider ≠ none ∧ k.view = .ok V := by
  have hview : ({ k with shown := none, log := #[] } : Machine).view = k.view := rfl
  unfold shownBy
  rw [hview]
  dsimp only
  cases hbasis : k.hasBasis with
  | true => simp
  | false =>
    cases hprovider : k.provider with
    | none => simp
    | some suggestions => cases k.view <;> simp [Except.toOption]

/-- What a solve of a problem without contradictory bounds leaves behind for the caller to see: multipliers of
the rows, and the reduced costs that the true costs have for them. -/
def Priced (k t : Machine) : Prop :=
  ∃ seen y form, t.snapshot = .ok seen ∧ seen.y = some y ∧ k.form y = .ok form ∧
    seen.d = List.zipWith (· + ·) k.objective form

theorem Realizes.priced {s : Session} (h : k.Realizes s) (ht : t.Realizes (s.perform .optimize).1)
    (hc : k.contradictory? = none) : k.Priced t := by
  obtain ⟨o, -, rfl⟩ := h.stores
  obtain ⟨o', -, rfl⟩ := ht.stores
  have hnone : s.solver.problem.contradictory? = none := by
    have hmap := (s.solver.contents o).contradictory?_machine o.threads
    exact Option.map_eq_none_iff.mp (hmap.symm.trans hc)
  obtain ⟨y, hy, hd⟩ := (Solver.Sound.optimize_priced h.sound hnone).duals
  rw [s.solver.keeps_optimize.1.problem_eq] at hd
  refine ⟨_, y.toList, _, ht.sound.snapshot_machine, congrArg (Option.map Vector.toList) hy,
    (s.solver.contents o).form_machine o.threads y, ?_⟩
  change s.solver.optimize.solver.d.toList = List.zipWith (· + ·) s.solver.problem.objective.toList
    (s.solver.problem.form y).structural.toList
  rw [zipWith_toList, toList_eq_map_get]
  refine List.map_congr_left fun j _ => ?_
  have hform := s.solver.problem.get_form y (.structural j)
  rw [hd, show (s.solver.problem.form y).structural.get j = _ from hform, sub_eq_add_neg]
  rfl

end ExactSimplex.Machine
