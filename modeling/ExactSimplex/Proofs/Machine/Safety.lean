import ExactSimplex.Proofs.Machine.Partition
import ExactSimplex.Proofs.Machine.Sessions
import ExactSimplex.Proofs.Safety

/-! # A machine never fails

A machine checks every index and every range of its lists, every divisor, the length of every vector that is
handed to the factors, and that its helpers are asked in turn. None of these checks fails in a machine for a
matrix in which no row repeats a column, and a solve of such a machine is not refused either.
-/
namespace ExactSimplex.Machine
variable {k : Machine}

theorem Reachable.opened (h : k.Reachable) : k.Opened := by
  obtain ⟨config, matrix, objective, rowLower, rowUpper, variableLower, variableUpper, schedule, first, history,
    hbuilt, -, hcreate, hafter⟩ := h
  exact ⟨config, matrix, objective, rowLower, rowUpper, variableLower, variableUpper, schedule, first, history,
    hbuilt, hcreate, hafter⟩

/-- No helper has a job, and no result waits to be fetched. -/
def Idle (k : Machine) : Prop := k.multiplier.Idle ∧ ∀ helper, k.steepestEdge = some helper → helper.Idle

theorem Realizes.idle {s : Session} (h : k.Realizes s) : k.Idle := by
  obtain ⟨o, hmeets, rfl⟩ := h.stores
  exact ⟨hmeets.multiplier, hmeets.idle rfl⟩

/-- After every history a solve ends with a verdict, whatever happens outside, and no update is refused on the
way. No request fails. The helpers are idle between requests, and in every pass the factors have the size of the
basis. The solve makes the steps of a solver that meets whatever they rely on. -/
theorem Reachable.optimize_never_fails (h : k.Reachable) :
    (∃ verdict t, opt.run { k with shown := none, log := #[] } = .ok (.ok verdict, t) ∧ refusals t.log = []) ∧
    (∀ history, ∃ t, k.after history = .ok t) ∧ k.Idle ∧
    (∀ u, k.Tops u → ∀ F, u.factors = some F → F.order = u.numRows) ∧
    ∃ s : Session, k.Realizes s ∧ s.solver.SolvesSafely := by
  obtain ⟨s, hs, hrealizes⟩ := h.realizes
  obtain ⟨v, t, -, hrun, -, hlog, -⟩ := hrealizes.exists_opt
  refine ⟨⟨v, t, hrun, ?_⟩, fun history => ?_, hrealizes.idle, fun u hu => ?_, s, hrealizes, hs.solvesSafely⟩
  · rw [hlog]
    exact hs.solvesSafely.refusals_eq
  · obtain ⟨t, ht, -⟩ := hrealizes.after history
    exact ⟨t, ht⟩
  · exact (hu.orderly h.opened.orderly).factors_size

/-- Dependent columns are imported, the provider has the wrong counts, the ray is not even a number, and the first
helper stops at once. -/
theorem Reachable.optimize_never_fails_of_bad_hints :
    ∃ A first k verdict t, CompressedMatrix.create [1, 2, 2, 4] [0, 1, 0, 1] [0, 2, 4] 2 = .ok A ∧
      create { refactorInterval := 2 } A [-1, -3] [none, none] [some 4, some 6] [some 0, some 0] [some 3, none]
        [{}, { reachable := false }] = .ok first ∧
      first.after [.edit (.setProvider [some ⟨[.basic], [.basic, .basic, .basic], some []⟩]),
        .edit (.importBasis [1, 1] [0, 2]), .edit (.setGuess [.nan, .infinite true])] = .ok k ∧
      opt.run { k with shown := none, log := #[] } = .ok (.ok verdict, t) ∧ refusals t.log = [] := by
  have hrun : (CompressedMatrix.create [1, 2, 2, 4] [0, 1, 0, 1] [0, 2, 4] 2).toOption.any (fun A =>
      decide A.Distinct && (create { refactorInterval := 2 } A [-1, -3] [none, none] [some 4, some 6]
        [some 0, some 0] [some 3, none] [{}, { reachable := false }]).toOption.any fun first =>
          (first.after [.edit (.setProvider [some ⟨[.basic], [.basic, .basic, .basic], some []⟩]),
            .edit (.importBasis [1, 1] [0, 2]), .edit (.setGuess [.nan, .infinite true])]).toOption.any
              fun _ => true) = true := by decide +kernel
  obtain ⟨A, hA, hrun⟩ := exists_of_toOption_any hrun
  rw [Bool.and_eq_true, decide_eq_true_eq] at hrun
  obtain ⟨hdistinct, hrun⟩ := hrun
  obtain ⟨first, hfirst, hrun⟩ := exists_of_toOption_any hrun
  obtain ⟨k, hk, -⟩ := exists_of_toOption_any hrun
  obtain ⟨⟨verdict, t, ht, hrefusals⟩, -⟩ := Reachable.optimize_never_fails
    ⟨_, A, _, _, _, _, _, _, first, _, .created hA, hdistinct, hfirst, hk⟩
  exact ⟨A, first, k, verdict, t, hA, hfirst, hk, ht, hrefusals⟩

end ExactSimplex.Machine
