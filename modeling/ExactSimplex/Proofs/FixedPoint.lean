import ExactSimplex.Proofs.Frame
import ExactSimplex.Proofs.Verdicts

/-! # Optimal bases are fixed points

An optimal basis with the places where its nonbasic variables rest determines values, multipliers and
reduced costs, in whatever order the basis is held and however it came about. A solve that starts from
there moves nothing: everything is at rest where the reduced costs want it, and the first pass finds no
variable to leave. So exporting an optimal basis and importing it, here or into another solver for the
same problem, confirms the answers.
-/
namespace ExactSimplex
open Matrix
variable {n m : ℕ}

/-- The second point has the basic variables of the first, and the others where the first has them. -/
structure Point.Revisits (p q : Point n m) : Prop where
  isBasic_eq : ∀ v, q.basis.isBasic v = p.basis.isBasic v
  values_eq : ∀ v, p.basis.isBasic v = false → q.values.get v = p.values.get v

theorem Point.Revisits.refl (p : Point n m) : p.Revisits p := ⟨fun _ => rfl, fun _ _ => rfl⟩

theorem Point.Revisits.factorized {p q : Point n m} {u : State n m} (h : p.Revisits q)
    (hu : State.Factorized q u) : p.Revisits u.toPoint := by
  refine ⟨fun v => (hu.isBasic_eq v).trans (h.isBasic_eq v), fun v hv => ?_⟩
  rw [hu.values_eq]
  exact h.values_eq v hv

namespace Problem
variable {P Q : Problem n m} {b c : Basis n m}

/-- Whether a basis is nonsingular depends on which variables are basic only. -/
theorem isUnit_basisMatrix_of_isBasic (hb : b.Valid) (hc : c.Valid)
    (h : ∀ v, c.isBasic v = b.isBasic v) (hu : IsUnit (P.basisMatrix b)) :
    IsUnit (P.basisMatrix c) := by
  rw [← isUnit_transpose, ← mulVec_injective_iff_isUnit]
  intro y z hyz
  refine eq_of_combination_basic hu fun r => ?_
  obtain ⟨i, hi⟩ := hc.isBasic_iff.mp ((h (b.basic.get r)).trans (hb.isBasic_basic r))
  have hyi := congrFun hyz i
  rw [vecMul_basisMatrix, vecMul_basisMatrix, hi] at hyi
  exact hyi

end Problem

namespace State
variable {P : Problem n m} {s t : State n m}

section Rest
variable {b : Bounds} {x d : ℚ}

theorem nonbasicValue_of_rests (h : b.Rests x) : nonbasicValue b x = x := by
  rcases h with h | h | ⟨hl, hu, rfl⟩
  · rcases b with ⟨_ | l, _ | u⟩ <;> cases h <;> simp [nonbasicValue]
  · rcases b with ⟨_ | l, _ | u⟩ <;> cases h <;> simp [nonbasicValue]
  · simp [nonbasicValue, hl, hu]

theorem wantedBound?_of_supports (h : b.Supports x d) : wantedBound? b x d = none := by
  rcases b with ⟨_ | l, _ | u⟩
  · rfl
  · rfl
  · rfl
  · obtain ⟨hlow, hupp⟩ := h
    simp only [wantedBound?, Bounds.box?]
    split
    · rfl
    · next hlu =>
      rw [if_neg, if_neg]
      · rintro ⟨rfl, hd⟩
        exact hlu (Option.some.inj (hlow hd))
      · rintro ⟨rfl, hd⟩
        exact hlu (Option.some.inj (hupp hd)).symm

end Rest

theorem moveToBounds_of_rests (h : ∀ k, (P.bounds.get (s.basis.nonbasic.get k)).Rests
    (s.values.get (s.basis.nonbasic.get k))) : s.moveToBounds P = s := by
  have hset : ∀ k, s.values.set (s.basis.nonbasic.get k) (nonbasicValue
      (P.bounds.get (s.basis.nonbasic.get k)) (s.values.get (s.basis.nonbasic.get k))) =
        s.values := by
    intro k
    rw [nonbasicValue_of_rests (h k)]
    refine PerVar.ext_get fun v => ?_
    rw [PerVar.get_set]
    split
    · next hv => rw [hv]
    · rfl
  rw [moveToBounds, foldl_eq_finRange, List.foldl_fixed' hset]

theorem Ready.calm (h : s.Ready P) : s.Calm P := fun k => wantedBound?_of_supports (h.supports_nonbasic k)

/-- The point of a ready state is found again from its basis and its nonbasic values. -/
theorem Ready.comeToRest_revisited (h : s.Ready P) (hA : P.matrix.Mirrored) (ht : t.Sound P)
    (hr : s.toPoint.Revisits t.toPoint) :
    ∃ d, comeToRest P t = .ok { t with values := s.values, reduced := d } ∧
      ({ t with values := s.values, reduced := d } : State n m).Ready P ∧
      ∀ v, t.basis.spread d v = s.basis.spread s.reduced v := by
  have hnon : ∀ v, t.basis.isBasic v = false → s.basis.isBasic v = false :=
    fun v hv => (hr.isBasic_eq v).symm.trans hv
  have hrests : ∀ v, t.basis.isBasic v = false → (P.bounds.get v).Rests (t.values.get v) := by
    intro v hv
    rw [hr.values_eq v (hnon v hv)]
    exact h.rests v (hnon v hv)
  obtain ⟨x, d, hrec, hbal, hkeep, z, hz⟩ := ht.recompute_eq hA
  -- the nonbasic values determine the point, the basic variables the multipliers
  have hx : x = s.values := by
    refine PerVar.ext_get (congrFun (hbal.eq_of_nonbasic ht.basis ht.isUnit h.balanced fun k => ?_))
    have hk := ht.basis.isBasic_nonbasic k
    rw [hkeep _ hk, hr.values_eq _ (hnon _ hk)]
  have hd : ∀ v, t.basis.spread d v = s.basis.spread s.reduced v := by
    obtain ⟨y, hy⟩ := h.priced
    have hyz : y = z := by
      refine h.priced_unique (fun r => ?_) fun r => ?_
      · rw [hy, h.basis.spread_basic]
      · rw [hz, ht.basis.spread_of_isBasic]
        exact (hr.isBasic_eq _).trans (h.basis.isBasic_basic r)
    intro v
    rw [← hz, ← hy, hyz]
  subst hx
  have hready : ({ t with values := s.values, reduced := d } : State n m).Ready P := by
    refine ⟨⟨ht.of_eq rfl rfl rfl, hbal, ⟨z, hz⟩, fun v hv => h.rests v (hnon v hv)⟩, fun v => ?_⟩
    rw [hd]
    exact h.supports v
  refine ⟨d, ?_, hready, hd⟩
  rw [comeToRest, moveToBounds_of_rests fun k => hrests _ (ht.basis.isBasic_nonbasic k), settle, hrec]
  simp only [divided, bind, Except.bind, calm_iff.mpr hready.calm]
  rfl

/-- The first pass of a run stops when every basic variable is within its bounds. -/
theorem Sound.pass_of_contains (h : s.Sound P) (cfg : Config) (mayStall : Bool)
    (hc : ∀ i, (P.bounds.get (s.basis.basic.get i)).Contains (s.values.get (s.basis.basic.get i)))
    (hcut : ∀ bound, P.cutOff = some bound → P.objectiveValue s.values < bound) :
    s.pass P cfg mayStall {} = .ok (s, .stop (.verdict .optimal)) := by
  have hfilter : (P.cutOff.filter fun bound => bound ≤ P.objectiveValue s.values) = none := by
    simpa [Option.filter_eq_none_iff] using hcut
  have hleaving : s.chooseLeaving P false = some none := by
    rcases h.chooseLeaving_cases false with ⟨hnone, _⟩ | ⟨l, _, hl, _⟩
    · exact hnone
    · have hrow := hc l.row
      rw [hl.var_eq] at hrow
      exact absurd hl.violated (not_lt.mpr (hrow.sign_mul_nonpos hl.bound_eq))
  have hobserve : ({} : Progress).observe cfg.cycleThreshold (P.objectiveValue s.values) =
      ({ previous := some (P.objectiveValue s.values) }, []) := rfl
  unfold pass
  simp only [hfilter, hobserve, recordAll, List.foldl_nil, Nat.not_lt_zero, decide_false,
    Bool.and_false, Bool.false_eq_true, if_false, hleaving, divided]
  rfl

/-- A solve from an optimal basis ends after its first pass, with the optimal point. -/
theorem Concludes.solve_revisited {mayStall : Bool} (h : Concludes P mayStall s (.verdict .optimal))
    (hA : P.matrix.Mirrored) (ht : t.Sound P) (hr : s.toPoint.Revisits t.toPoint) (cfg : Config) :
    ∃ d, t.solve P cfg = .ok ({ t with values := s.values, reduced := d, stuck := none }, .optimal) ∧
      ∀ v, t.basis.spread d v = s.basis.spread s.reduced v := by
  obtain ⟨hready, _, hbasic, hcut⟩ := h
  have ht' : ({ t with stuck := none } : State n m).Sound P := ht.of_eq rfl rfl rfl
  obtain ⟨d, hrest, hready', hd⟩ := hready.comeToRest_revisited hA ht' hr
  refine ⟨d, ?_, hd⟩
  have hpass := hready'.toSound.pass_of_contains cfg true (fun i => ?_) hcut
  · rw [solve, run, runPhases, hrest]
    simp only [bind, Except.bind, (isDualFeasible_iff hready'.toSettled).mpr hready', if_true,
      Config.passAllowance, iterate, hpass]
    rfl
  · obtain ⟨r, hi⟩ := hready.basis.isBasic_iff.mp
      ((hr.isBasic_eq _).symm.trans (ht.basis.isBasic_basic i))
    have hr := hbasic r
    rw [hi] at hr
    exact hr

end State

namespace Problem.SameData
variable {P Q : Problem n m} {s : State n m}

theorem entryOf_eq (h : P.SameData Q) (i : Fin m) (v : Var n m) : Q.entry i v = P.entry i v := by
  cases v with
  | structural j => exact (h.entry_eq i j).symm
  | slack k => rfl

theorem basisMatrix_eq (h : P.SameData Q) (b : Basis n m) : Q.basisMatrix b = P.basisMatrix b := by
  ext i r
  exact h.entryOf_eq i _

theorem reducedCost_eq (h : P.SameData Q) (y : Fin m → ℚ) (v : Var n m) :
    Q.reducedCost y v = P.reducedCost y v := by
  have hcost : Q.cost v = P.cost v := by cases v <;> simp [cost, h.objective_eq]
  simp only [reducedCost, combination, h.entryOf_eq, hcost]

theorem ready (h : P.SameData Q) (hs : s.Ready P) : s.Ready Q where
  basis := hs.basis
  factors := by
    rw [h.basisMatrix_eq]
    exact hs.factors
  weights w hw i := by
    simp only [inverseRow, h.basisMatrix_eq]
    exact hs.weights w hw i
  balanced i := by
    simp only [h.entryOf_eq]
    exact hs.balanced i
  priced := by
    simp only [h.reducedCost_eq]
    exact hs.priced
  rests := by
    rw [← h.bounds_eq]
    exact hs.rests
  supports := by
    rw [← h.bounds_eq]
    exact hs.supports

theorem concludes_optimal {mayStall : Bool} (h : P.SameData Q) (hcut : P.cutOff = Q.cutOff)
    (hs : State.Concludes P mayStall s (.verdict .optimal)) :
    State.Concludes Q mayStall s (.verdict .optimal) := by
  obtain ⟨hready, hstuck, hbasic, hbelow⟩ := hs
  refine ⟨h.ready hready, hstuck, ?_, ?_⟩
  · rw [← h.bounds_eq]
    exact hbasic
  · rw [← hcut]
    simp only [objectiveValue, ← h.objective_eq]
    exact hbelow

end Problem.SameData

/-- The events of a solve that leaves its starting point: phase one, perturbed costs, flips and
pivots. -/
def Event.isMove : Event → Bool
  | .phaseOneStarted => true
  | .costsPerturbed => true
  | .flipped _ => true
  | .leaves _ _ _ => true
  | .enters _ _ => true
  | _ => false

abbrev moves (log : Array Event) : List Event := logged Event.isMove log

namespace Solver
variable {A T V : Solver n m} {s t : State n m} {mayStall : Bool}

/-- Point, multipliers, reduced costs and statuses are the same, and there are multipliers. -/
structure SameAnswers (A B : Solver n m) : Prop where
  x_eq : B.x = A.x
  y_eq : ∃ y, A.y = some y ∧ B.y = some y
  d_eq : B.d = A.d
  structural_eq : B.structuralStatuses = A.structuralStatuses
  slack_eq : B.slackStatuses = A.slackStatuses

/-- Statuses are read off the bounds, the basic variables and the values of the others. -/
theorem statuses_congr {B : Solver n m} (hb : B.problem.bounds = A.problem.bounds)
    (hbasic : ∀ v, B.start.isBasic v = A.start.isBasic v)
    (hvalues : ∀ v, A.start.isBasic v = false →
      B.start.point.values.get v = A.start.point.values.get v) :
    B.structuralStatuses = A.structuralStatuses ∧ B.slackStatuses = A.slackStatuses := by
  have hstatus : ∀ v, B.status v = A.status v := by
    intro v
    simp only [status, hb, hbasic]
    cases hv : A.start.isBasic v with
    | true => rfl
    | false => rw [hvalues v hv]
  exact ⟨List.map_congr_left fun j _ => hstatus _, List.map_congr_left fun i _ => hstatus _⟩

theorem sameAnswers_of_revisited {B : Solver n m} {u : State n m}
    (hsame : A.problem.SameData B.problem) (hA : A.start = .warm s) (hB : B.start = .warm u)
    (hs : s.Ready A.problem) (hu : u.Sound B.problem)
    (hbasic : ∀ v, u.basis.isBasic v = s.basis.isBasic v) (hvalues : u.values = s.values)
    (hspread : ∀ v, u.basis.spread u.reduced v = s.basis.spread s.reduced v) :
    A.SameAnswers B := by
  obtain ⟨hstructural, hslack⟩ := statuses_congr (A := A) (B := B) hsame.bounds_eq.symm
    (by rw [hA, hB]; exact hbasic) (by rw [hA, hB]; exact fun v _ => by rw [Start.point, hvalues]; rfl)
  obtain ⟨y, hy, hpriced⟩ := hs.duals_priced
  obtain ⟨z, hz, hpriced'⟩ := hu.duals_priced ⟨y.get, fun v => by
    rw [hsame.reducedCost_eq, hpriced, hspread]⟩
  have hyz : y = z := by
    refine table_ext (congrFun (hs.priced_unique (fun r => ?_) fun r => ?_))
    · rw [hpriced, hs.basis.spread_basic]
    · rw [← hsame.reducedCost_eq, hpriced', hspread, hs.basis.spread_basic]
  refine ⟨?_, ⟨y, ?_, ?_⟩, ?_, hstructural, hslack⟩
  · rw [x, x, hA, hB, Start.point, Start.point, hvalues]
  · rw [Solver.y, hA]
    exact hy
  · rw [Solver.y, hB, hyz]
    exact hz
  · exact table_ext fun j => by rw [Solver.d_eq hA, Solver.d_eq hB, hspread]

end Solver

/-- The solve ends optimal without a move and with the answers of the solver. -/
structure Report.Confirms (r : Report n m) (A : Solver n m) : Prop where
  outcome_eq : r.outcome = .ok .optimal
  moves_eq : moves r.events = []
  answers : A.SameAnswers r.solver

namespace Solver
variable {A T V : Solver n m} {s t : State n m} {mayStall : Bool}

section Search
variable (hA : A.start = .warm s) (hcon : State.Concludes A.problem mayStall s (.verdict .optimal))
  (hc : A.problem.contradictory? = none) (hsame : A.problem.SameData V.problem)
  (hcut : A.problem.cutOff = V.problem.cutOff) (hV : V.problem.matrix.Mirrored)
  (ht : t.Sound V.problem) (hr : s.toPoint.Revisits t.toPoint) (hlog : moves t.log = [])
  (shown : Option (Problem n m))
include hA hcon hc hsame hcut hV ht hr hlog

/-- A search from an optimal basis confirms its answers. -/
theorem search_confirms : (V.search shown t).Confirms A := by
  have hc' : V.problem.contradictory? = none := by
    rw [Problem.contradictory?, ← hsame.bounds_eq]
    exact hc
  obtain ⟨d, hsolve, hspread⟩ := (hsame.concludes_optimal hcut hcon).solve_revisited hV ht hr V.config
  rw [search, hc']
  simp only [hsolve, if_true]
  refine ⟨rfl, (logged_push _ rfl).trans hlog, ?_⟩
  exact sameAnswers_of_revisited hsame hA rfl hcon.1 (ht.of_eq rfl rfl rfl) hr.isBasic_eq rfl hspread

/-- A pending guess does not matter, because no guess proves a problem with an optimum infeasible. -/
theorem searchWithGuess_confirms : (V.searchWithGuess shown t).Confirms A := by
  unfold searchWithGuess
  cases V.guess with
  | none => exact search_confirms hA hcon hc hsame hcut hV ht hr hlog shown
  | some guess =>
    dsimp only
    rcases Problem.checkGuess_cases ht V.config guess with ⟨e, he, _⟩ | ⟨y, _, hcert⟩
    · have hmove : e.isMove = false := by
        rcases Problem.checkGuess_error he with rfl | rfl | rfl | rfl <;> rfl
      rw [he]
      exact search_confirms hA hcon hc hsame hcut hV (t := t.record e) (ht.of_eq rfl rfl rfl) hr
        ((logged_push _ hmove).trans hlog) shown
    · have hadmits := hsame.admits (hcon.admits (Problem.contradictory?_eq_none_iff.mp hc))
      exact absurd hadmits (Problem.Refutes.not_admits (Or.inl hcert) _)

end Search

section Import

/-- The status of a nonbasic variable says where it rests. -/
theorem statusValue_of_rests {b : Bounds} {x : ℚ} (h : b.Rests x) :
    statusValue b (if b.lower.isAt x then .atLower else if b.upper.isAt x then .atUpper else .free) =
      x := by
  by_cases hl : b.lower = some x
  · rw [if_pos (Bounds.isAt_iff.mpr hl)]
    simp [statusValue, Bounds.restingValue, Bounds.get, hl]
  · rw [if_neg (mt Bounds.isAt_iff.mp hl)]
    by_cases hu : b.upper = some x
    · rw [if_pos (Bounds.isAt_iff.mpr hu)]
      simp [statusValue, Bounds.restingValue, Bounds.get, hu]
    · rw [if_neg (mt Bounds.isAt_iff.mp hu)]
      exact ((h.resolve_left hl).resolve_left hu).2.2.symm

theorem exists_get_tableOf {α : Type} {xs : List α} (h : xs.length = m) {a : α} :
    (∃ i, (tableOf xs h).get i = a) ↔ a ∈ xs := by
  rw [List.mem_iff_getElem]
  constructor
  · rintro ⟨i, rfl⟩
    exact ⟨i, by omega, rfl⟩
  · rintro ⟨i, hi, rfl⟩
    exact ⟨⟨i, by omega⟩, rfl⟩

theorem status_eq_basic_iff (S : Solver n m) (v : Var n m) :
    S.status v = .basic ↔ S.start.isBasic v = true := by
  simp only [status]
  split
  · simp [*]
  · split
    · simp [*]
    · split <;> simp [*]

/-- A settled point is imported from its statuses. -/
theorem importBasis_revisits (hA : A.start = .warm s) (hs : s.Settled A.problem)
    (hb : T.problem.bounds = A.problem.bounds) {statuses : PerVar Status n m}
    (hstatuses : ∀ v, statuses.get v = A.status v) :
    ∃ point, T.importBasis statuses = .ok { T with start := .imported point, proof := none } ∧
      point.basis.Valid ∧ s.toPoint.Revisits point := by
  have htest : ∀ v, (statuses.get v == .basic) = s.basis.isBasic v := by
    intro v
    rw [hstatuses, Bool.eq_iff_iff, beq_iff_eq, status_eq_basic_iff, hA]
    rfl
  -- statuses tell the basic variables apart, so the lists of the import have the right lengths
  have hothers : (withStatus statuses fun s => !(s == .basic)).length = n := by
    rw [withStatus, ← List.countP_eq_length_filter]
    simp only [htest]
    exact hs.basis.countP_nonbasic
  have hlength : (withStatus statuses fun s => s == .basic).length = m := by
    have htotal := length_withStatus statuses fun s => s == .basic
    omega
  have hvalid := valid_withStatus hlength hothers
  refine ⟨⟨Basis.ofLists (tableOf _ hlength) (tableOf _ hothers),
    statusValues T.problem.bounds statuses, Vec.zero n⟩, ?_, hvalid, fun v => ?_, fun v hv => ?_⟩
  · rw [importBasis, dif_pos hlength]
  · rw [Bool.eq_iff_iff, hvalid.isBasic_iff, ← htest]
    exact (exists_get_tableOf hlength).trans (by simp [withStatus, Var.mem_all])
  · have hbasic : A.start.isBasic v = false := by
      rw [hA]
      exact hv
    have hx : A.start.point.values = s.values := by rw [hA]; rfl
    rw [get_statusValues, hb, hstatuses, status]
    simp only [hbasic, hx, Bool.false_eq_true, if_false]
    exact statusValue_of_rests (hs.rests v hv)

theorem setStatuses_revisits (hA : A.start = .warm s) (hs : s.Settled A.problem)
    (hb : T.problem.bounds = A.problem.bounds) :
    ∃ point, T.setStatuses A.structuralStatuses A.slackStatuses =
        .ok { T with start := .imported point, proof := none } ∧
      point.basis.Valid ∧ s.toPoint.Revisits point := by
  have hn : A.structuralStatuses.length = n := by simp [structuralStatuses]
  have hm : A.slackStatuses.length = m := by simp [slackStatuses]
  have hstatuses : ∀ v, (⟨tableOf _ hn, tableOf _ hm⟩ : PerVar Status n m).get v = A.status v := by
    intro v
    cases v with
    | structural j => simp [PerVar.get, get_tableOf, structuralStatuses]
    | slack i => simp [PerVar.get, get_tableOf, slackStatuses]
  obtain ⟨point, himport, hpoint⟩ := importBasis_revisits (T := T) hA hs hb hstatuses
  refine ⟨point, ?_, hpoint⟩
  rw [setStatuses, expectLength, tableOf?, dif_pos hn, expectLength, tableOf?, dif_pos hm]
  exact himport

end Import

/-- A solver with a basis starts from it, without asking the provider. -/
theorem optimize_of_start {point : Start n m} (hstart : T.withoutProof.start = point)
    (hcold : point ≠ .cold) (ht : T.withoutProof.startState #[] = .ok t) :
    T.optimize = T.withoutProof.searchWithGuess none t := by
  have hseeded : T.seeded = (T.withoutProof, #[], none) := by
    unfold seeded
    split
    · next hs => exact absurd (hstart.symm.trans hs) hcold
    · rfl
  rw [optimize_eq (by rw [hseeded]; exact ht), hseeded]

section Optimize
variable (hA : A.start = .warm s) (hcon : State.Concludes A.problem mayStall s (.verdict .optimal))
  (hc : A.problem.contradictory? = none)
include hA hcon hc

/-- Solving once more confirms the answers. -/
theorem optimize_confirms (h : A.Sound) : A.optimize.Confirms A := by
  have hsound := h.start
  rw [hA] at hsound
  have hstart : A.withoutProof.start = .warm { s with stuck := none } := by
    rw [withoutProof, hA]
    rfl
  have hstate : A.withoutProof.startState #[] = .ok { s with stuck := none, log := #[] } := by
    rw [startState, hstart]
  rw [optimize_of_start hstart (fun h => by cases h) hstate]
  exact searchWithGuess_confirms (V := A.withoutProof) (t := { s with stuck := none, log := #[] }) hA
    hcon hc ⟨fun _ _ => rfl, rfl, rfl⟩ rfl h.simple.toMirrored (State.Sound.of_eq hsound rfl rfl rfl)
    (.refl _) rfl none

/-- So does solving from the imported basis. -/
theorem optimize_imported_confirms (hT : T.Sound) (hsame : A.problem.SameData T.problem)
    (hcut : A.problem.cutOff = T.problem.cutOff) {point : Point n m} (hvalid : point.basis.Valid)
    (hr : s.toPoint.Revisits point) (hstart : T.start = .imported point) :
    T.optimize.Confirms A := by
  have hpoint : T.withoutProof.start = .imported point := by
    rw [withoutProof, hstart]
    rfl
  -- the positions are ordered in another way, but the columns are those of the optimal basis
  have hunit : IsUnit (T.problem.basisMatrix point.basis) := by
    rw [hsame.basisMatrix_eq]
    exact Problem.isUnit_basisMatrix_of_isBasic hcon.1.basis hvalid hr.isBasic_eq hcon.1.isUnit
  have hw : ∀ w, (none : Option (Vec m)) = some w → ∀ i, w.get i =
      ∑ k, T.problem.inverseRow point.basis i k * T.problem.inverseRow point.basis i k :=
    fun w hw => by cases hw
  rcases State.ofPoint_cases hT.simple hvalid hw T.config.searchLimit 0 none #[] with
    ⟨t, ht, hsound, hfactorized, _, _⟩ | ⟨hn, _⟩
  · have hstate : T.withoutProof.startState #[] = .ok t := by
      rw [startState, hpoint]
      simp only [withoutProof, ht]
    rw [optimize_of_start hpoint (fun h => by cases h) hstate]
    exact searchWithGuess_confirms (V := T.withoutProof) hA hcon hc hsame hcut hT.simple.toMirrored
      hsound (hr.factorized hfactorized) (State.logged_of_ofPoint (fun _ _ => rfl) ht) none
  · exact absurd hunit hn

end Optimize

end Solver

namespace Session

/-- An optimal basis is a fixed point of exporting, importing and solving. Another solver for the same
problem takes over the basis, whatever its settings and its history, and confirms the answers without
entering phase one and without a pivot. So does solving again. -/
theorem Reachable.optimal_basis_fixed {S T : Solver n m} (hS : Reachable ⟨n, m, S⟩)
    (hT : Reachable ⟨n, m, T⟩) (hopt : S.optimize.outcome = .ok .optimal)
    (hsame : S.problem.SameData T.problem) (hcut : S.problem.cutOff = T.problem.cutOff) :
    (∃ U, T.setStatuses S.optimize.solver.structuralStatuses S.optimize.solver.slackStatuses = .ok U ∧
      U.structuralStatuses = S.optimize.solver.structuralStatuses ∧
      U.slackStatuses = S.optimize.solver.slackStatuses ∧ U.optimize.Confirms S.optimize.solver) ∧
    S.optimize.solver.optimize.Confirms S.optimize.solver := by
  obtain ⟨v, hsolved⟩ := Solver.Sound.optimize_solved hS.sound
  cases hsolved.outcome_eq.symm.trans hopt
  obtain ⟨hc, _, s, hstart, _, hcon⟩ := hsolved.answer (by decide)
  rw [← hsolved.problem_eq] at hc hcon hsame hcut
  refine ⟨?_, Solver.optimize_confirms hstart hcon hc hsolved.sound⟩
  obtain ⟨point, himport, hvalid, hr⟩ := Solver.setStatuses_revisits (T := T) hstart
    hcon.1.toSettled hsame.bounds_eq.symm
  have hU := Solver.Sound.setStatuses hT.sound himport
  obtain ⟨hstructural, hslack⟩ := Solver.statuses_congr (A := S.optimize.solver)
    (B := { T with start := .imported point, proof := none }) hsame.bounds_eq.symm
    (by rw [hstart]; exact hr.isBasic_eq) (by rw [hstart]; exact hr.values_eq)
  exact ⟨_, himport, hstructural, hslack,
    Solver.optimize_imported_confirms hstart hcon hc hU hsame hcut hvalid hr rfl⟩

/-- The first solver pivots. The other one factorizes at every pivot, stores its rows in another order,
has solved for other costs before and has a guess pending. -/
theorem optimal_basis_fixed_of_other_costs :
    ∃ S T : Solver 2 2, Reachable ⟨2, 2, S⟩ ∧ Reachable ⟨2, 2, T⟩ ∧
      S.optimize.outcome = .ok .optimal ∧ moves S.optimize.events ≠ [] ∧ T.guess ≠ none ∧
      (∃ U, T.setStatuses S.optimize.solver.structuralStatuses S.optimize.solver.slackStatuses =
        .ok U ∧ U.optimize.Confirms S.optimize.solver) ∧
      S.optimize.solver.optimize.Confirms S.optimize.solver := by
  let bounds : PerVar Bounds 2 2 :=
    ⟨#v[⟨some 0, some 3⟩, ⟨some 0, none⟩], #v[⟨some (-4), none⟩, ⟨some (-6), none⟩]⟩
  let S : Solver 2 2 := .ofProblem {} ⟨(MatrixStore.ofRowList (n := 2)
    [[(0, 1), (1, 2)], [(0, 2), (1, 4)]]).matrix, #v[-1, -3], bounds, none⟩
  let R : Solver 2 2 := .ofProblem { refactorInterval := 1 } ⟨(MatrixStore.ofRowList (n := 2)
    [[(1, 2), (0, 1)], [(1, 4), (0, 2)]]).matrix, #v[-5, 1], bounds, none⟩
  let T : Solver 2 2 := { R.optimize.solver.setObjective #v[-1, -3] with
    guess := some #v[.finite false 1, .finite true 1] }
  have hS : Reachable ⟨2, 2, S⟩ := ⟨{}, .ofRowList (n := 2) [[(0, 1), (1, 2)], [(0, 2), (1, 4)]],
    [-1, -3], [none, none], [some 4, some 6], [some 0, some 0], [some 3, none], _, [],
    .compressed (rfl : MatrixStore.ofCompressed [1, 2, 2, 4] [0, 1, 0, 1] [0, 2, 4] 2 = _),
    by decide, rfl, rfl⟩
  have hT : Reachable ⟨2, 2, T⟩ := ⟨{ refactorInterval := 1 },
    .ofRowList (n := 2) [[(1, 2), (0, 1)], [(1, 4), (0, 2)]], [-5, 1], [none, none],
    [some 4, some 6], [some 0, some 0], [some 3, none], _,
    [.optimize, .edit (.setObjective [-1, -3]),
      .edit (.setGuess [.finite false 1, .finite true 1])],
    .compressed (rfl : MatrixStore.ofCompressed [2, 1, 4, 2] [1, 0, 1, 0] [0, 2, 4] 2 = _),
    by decide, rfl, rfl⟩
  have hrun : (S.optimize.outcome.toOption.any fun v => v = .optimal) = true := by decide +kernel
  obtain ⟨v, hopt, hv⟩ := exists_of_toOption_any hrun
  cases of_decide_eq_true hv
  have hproblem : R.optimize.solver.problem = R.problem := R.keeps_optimize.1.problem_eq
  have hsame : S.problem.SameData T.problem := by
    refine ⟨fun i j => ?_, rfl, ?_⟩
    · change _ = R.optimize.solver.problem.matrix.entry i j
      rw [hproblem]
      revert i j
      decide +kernel
    · exact (congrArg Problem.bounds hproblem).symm
  have hcut : S.problem.cutOff = T.problem.cutOff := (congrArg Problem.cutOff hproblem).symm
  obtain ⟨⟨U, himport, _, _, hconfirms⟩, hagain⟩ :=
    Reachable.optimal_basis_fixed hS hT hopt hsame hcut
  exact ⟨S, T, hS, hT, hopt, by decide +kernel, Option.some_ne_none _, ⟨U, himport, hconfirms⟩, hagain⟩

end Session

end ExactSimplex
