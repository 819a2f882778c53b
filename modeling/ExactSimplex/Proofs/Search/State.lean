import Mathlib.LinearAlgebra.Matrix.NonsingularInverse
import ExactSimplex.Search.State
import ExactSimplex.Proofs.Product

/-! # States of a search

A sound state has a partition into basic and nonbasic variables, factors that represent its basis
matrix, and weights that are the squared norms of the rows of the inverse. It does not matter for
soundness which bounds and costs a problem has, so it survives every change of them. A settled state
is balanced, carries the reduced costs of its basis and rests at bounds; a ready one is also dual
feasible.
-/
namespace ExactSimplex
open Matrix
variable {n m : ℕ}

/-- The events that mark the start of phase one and the perturbation of the costs. -/
def Event.isMilestone : Event → Bool
  | .phaseOneStarted => true
  | .costsPerturbed => true
  | _ => false

/-- The events of one kind in a log, in their order. -/
def logged (kind : Event → Bool) (log : Array Event) : List Event := log.toList.filter kind

section Logged
variable {kind : Event → Bool} (log : Array Event) {e : Event}

theorem logged_push (he : kind e = false) : logged kind (log.push e) = logged kind log := by
  simp [logged, he]

theorem logged_push_of (he : kind e = true) : logged kind (log.push e) = logged kind log ++ [e] := by
  simp [logged, he]

end Logged

/-- The milestones of a log in their order. -/
abbrev milestones (log : Array Event) : List Event := logged Event.isMilestone log

namespace Basis

/-- The value at the position of a nonbasic variable, zero for the basic ones. -/
def spread (b : Basis n m) (d : Vec n) (v : Var n m) : ℚ :=
  match b.place.get v with
  | .basic _ => 0
  | .nonbasic k => d.get k

variable {b : Basis n m}

theorem Valid.spread_basic (h : b.Valid) (d : Vec n) (i : Fin m) :
    b.spread d (b.basic.get i) = 0 := by
  rw [spread, h.place_basic]

theorem Valid.spread_nonbasic (h : b.Valid) (d : Vec n) (k : Fin n) :
    b.spread d (b.nonbasic.get k) = d.get k := by
  rw [spread, h.place_nonbasic]

theorem Valid.spread_of_isBasic (h : b.Valid) (d : Vec n) {v : Var n m} (hv : b.isBasic v = true) :
    b.spread d v = 0 := by
  obtain ⟨i, rfl⟩ := h.isBasic_iff.mp hv
  exact h.spread_basic d i

@[simp] theorem basic_reorder (b : Basis n m) (order : Vector (Fin m) m) (r : Fin m) :
    (b.reorder order).basic.get r = b.basic.get (order.get r) := by
  simp [reorder]

theorem Valid.isBasic_reorder (h : b.Valid) {order : Vector (Fin m) m}
    (ho : Function.Bijective order.get) (v : Var n m) :
    (b.reorder order).isBasic v = b.isBasic v := by
  have hr := h.reorder ho
  rcases h.basic_or_nonbasic v with ⟨i, rfl⟩ | ⟨k, rfl⟩
  · obtain ⟨r, rfl⟩ := ho.2 i
    have hi := hr.isBasic_basic r
    rw [basic_reorder] at hi
    exact hi.trans (h.isBasic_basic _).symm
  · exact (hr.isBasic_nonbasic k).trans (h.isBasic_nonbasic k).symm

theorem Valid.spread_reorder (h : b.Valid) {order : Vector (Fin m) m}
    (ho : Function.Bijective order.get) (d : Vec n) (v : Var n m) :
    (b.reorder order).spread d v = b.spread d v := by
  have hr := h.reorder ho
  rcases h.basic_or_nonbasic v with ⟨i, rfl⟩ | ⟨k, rfl⟩
  · rw [h.spread_basic, hr.spread_of_isBasic]
    rw [h.isBasic_reorder ho, h.isBasic_basic]
  · exact (hr.spread_nonbasic d k).trans (h.spread_nonbasic d k).symm

end Basis

namespace Problem
variable {P Q : Problem n m} {b : Basis n m}

theorem entry_congr (h : Q.matrix = P.matrix) (i : Fin m) (v : Var n m) :
    Q.entry i v = P.entry i v := by
  cases v <;> simp [entry, h]

theorem basisMatrix_congr (h : Q.matrix = P.matrix) (b : Basis n m) :
    Q.basisMatrix b = P.basisMatrix b := by
  ext i r
  exact entry_congr h i _

noncomputable def inverseRow (P : Problem n m) (b : Basis n m) (i : Fin m) : Fin m → ℚ :=
  (P.basisMatrix b)⁻¹ i

theorem eq_of_combination_basic (hu : IsUnit (P.basisMatrix b)) {y z : Fin m → ℚ}
    (h : ∀ r, P.combination y (b.basic.get r) = P.combination z (b.basic.get r)) : y = z := by
  apply mulVec_injective_iff_isUnit.mpr ((isUnit_transpose _).mpr hu)
  ext r
  rw [vecMul_basisMatrix, vecMul_basisMatrix, h r]

theorem combination_inverseRow (hu : IsUnit (P.basisMatrix b)) (i r : Fin m) :
    P.combination (P.inverseRow b i) (b.basic.get r) = if i = r then 1 else 0 := by
  have h := congrFun (congrFun
    (nonsing_inv_mul _ ((isUnit_iff_isUnit_det (P.basisMatrix b)).mp hu)) i) r
  rw [mul_apply, one_apply] at h
  exact h

theorem eq_inverseRow (hu : IsUnit (P.basisMatrix b)) {y : Fin m → ℚ} {i : Fin m}
    (h : ∀ r, P.combination y (b.basic.get r) = if i = r then 1 else 0) : y = P.inverseRow b i :=
  eq_of_combination_basic hu fun r => (h r).trans (combination_inverseRow hu i r).symm

/-- In a balanced point the nonbasic values determine the basic ones. -/
theorem Balanced.basic_eq (hb : b.Valid) (hu : IsUnit (P.basisMatrix b)) {z : Var n m → ℚ}
    (hz : P.Balanced z) (i : Fin m) :
    z (b.basic.get i) =
      -∑ k, P.combination (P.inverseRow b i) (b.nonbasic.get k) * z (b.nonbasic.get k) := by
  have h := hz.sum_combination (P.inverseRow b i)
  rw [hb.sum_eq] at h
  simp only [combination_inverseRow hu, ite_mul, one_mul, zero_mul] at h
  rw [sum_ite_index i fun r => z (b.basic.get r)] at h
  linarith

theorem Balanced.eq_of_nonbasic (hb : b.Valid) (hu : IsUnit (P.basisMatrix b))
    {x z : Var n m → ℚ} (hx : P.Balanced x) (hz : P.Balanced z)
    (h : ∀ k, x (b.nonbasic.get k) = z (b.nonbasic.get k)) : x = z := by
  funext v
  rcases hb.basic_or_nonbasic v with ⟨i, rfl⟩ | ⟨k, rfl⟩
  · rw [hx.basic_eq hb hu, hz.basic_eq hb hu]
    simp only [h]
  · exact h k

theorem basisMatrix_reorder (P : Problem n m) (b : Basis n m) (order : Vector (Fin m) m) :
    P.basisMatrix (b.reorder order) = (P.basisMatrix b).submatrix id order.get := by
  ext i r
  simp [basisMatrix]

theorem isUnit_reorder_iff {order : Vector (Fin m) m} (ho : Function.Bijective order.get) :
    IsUnit (P.basisMatrix (b.reorder order)) ↔ IsUnit (P.basisMatrix b) := by
  rw [basisMatrix_reorder]
  exact isUnit_submatrix_equiv (Equiv.refl _) (Equiv.ofBijective _ ho)

theorem inverseRow_reorder (hu : IsUnit (P.basisMatrix b)) {order : Vector (Fin m) m}
    (ho : Function.Bijective order.get) (i : Fin m) :
    P.inverseRow (b.reorder order) i = P.inverseRow b (order.get i) := by
  refine (eq_inverseRow ((isUnit_reorder_iff ho).mpr hu) fun r => ?_).symm
  rw [Basis.basic_reorder, combination_inverseRow hu]
  simp only [ho.1.eq_iff]

end Problem

namespace State
variable {P Q : Problem n m} {s : State n m}

structure Sound (P : Problem n m) (s : State n m) : Prop where
  basis : s.basis.Valid
  factors : s.factors.Represents (P.basisMatrix s.basis)
  weights : ∀ w, s.weights = some w → ∀ i,
    w.get i = ∑ k, P.inverseRow s.basis i k * P.inverseRow s.basis i k

/-- The values solve the system, the reduced costs are those of the costs, and the nonbasic
variables rest. -/
structure Settled (P : Problem n m) (s : State n m) : Prop extends s.Sound P where
  balanced : P.Balanced s.values.get
  priced : ∃ y, ∀ v, P.reducedCost y v = s.basis.spread s.reduced v
  rests : ∀ v, s.basis.isBasic v = false → (P.bounds.get v).Rests (s.values.get v)

/-- A settled state whose reduced costs agree with where the variables rest. -/
structure Ready (P : Problem n m) (s : State n m) : Prop extends s.Settled P where
  supports : ∀ v, (P.bounds.get v).Supports (s.values.get v) (s.basis.spread s.reduced v)

theorem Sound.isUnit (h : s.Sound P) : IsUnit (P.basisMatrix s.basis) := h.factors.isUnit

theorem Sound.congr (h : s.Sound P) (hm : Q.matrix = P.matrix) : s.Sound Q where
  basis := h.basis
  factors := by
    rw [Problem.basisMatrix_congr hm]
    exact h.factors
  weights w hw i := by
    simp only [Problem.inverseRow, Problem.basisMatrix_congr hm]
    exact h.weights w hw i

/-- Values, reduced costs, the log and the mark of a stuck variable do not matter. -/
theorem Sound.of_eq (h : s.Sound P) {t : State n m} (hb : t.basis = s.basis)
    (hf : t.factors = s.factors) (hw : t.weights = s.weights) : t.Sound P := by
  constructor
  · rw [hb]
    exact h.basis
  · rw [hf, hb]
    exact h.factors
  · rw [hw, hb]
    exact h.weights

theorem Settled.of_eq (h : s.Settled P) {t : State n m} (hp : t.toPoint = s.toPoint)
    (hf : t.factors = s.factors) (hw : t.weights = s.weights) : t.Settled P where
  toSound := h.toSound.of_eq (congrArg Point.basis hp) hf hw
  balanced := by
    rw [hp]
    exact h.balanced
  priced := by
    rw [hp]
    exact h.priced
  rests := by
    rw [hp]
    exact h.rests

theorem Ready.of_eq (h : s.Ready P) {t : State n m} (hp : t.toPoint = s.toPoint)
    (hf : t.factors = s.factors) (hw : t.weights = s.weights) : t.Ready P where
  toSettled := h.toSettled.of_eq hp hf hw
  supports := by
    rw [hp]
    exact h.supports

@[simp] theorem factors_record (s : State n m) (e : Event) : (s.record e).factors = s.factors := rfl

/-- A state to whose log events other than milestones have been added. -/
structure Noted (s t : State n m) : Prop where
  toPoint_eq : t.toPoint = s.toPoint
  factors_eq : t.factors = s.factors
  pivots_eq : t.pivots = s.pivots
  weights_eq : t.weights = s.weights
  stuck_eq : t.stuck = s.stuck
  milestones_eq : milestones t.log = milestones s.log

theorem Noted.refl (s : State n m) : Noted s s := ⟨rfl, rfl, rfl, rfl, rfl, rfl⟩

theorem Noted.record {t : State n m} (h : Noted s t) {e : Event} (he : e.isMilestone = false) :
    Noted s (t.record e) :=
  ⟨h.toPoint_eq, h.factors_eq, h.pivots_eq, h.weights_eq, h.stuck_eq,
    (logged_push t.log he).trans h.milestones_eq⟩

/-- Notes change nothing but the log. -/
theorem recordAll_eq (s : State n m) (es : List Event) :
    ∃ log, s.recordAll es = { s with log := log } := by
  induction es generalizing s with
  | nil => exact ⟨s.log, rfl⟩
  | cons e es ih => exact ih (s.record e)

theorem Noted.recordAll {t : State n m} (h : Noted s t) {es : List Event}
    (he : ∀ e ∈ es, e.isMilestone = false) : Noted s (t.recordAll es) := by
  induction es generalizing t with
  | nil => exact h
  | cons e es ih =>
    exact ih (h.record (he e List.mem_cons_self)) fun a ha => he a (List.mem_cons_of_mem e ha)

theorem Ready.of_noted (h : s.Ready P) {t : State n m} (ht : Noted s t) : t.Ready P :=
  h.of_eq ht.toPoint_eq ht.factors_eq ht.weights_eq

/-- The result of factorizing a point: the same point up to the order of the basis positions. -/
structure Factorized (point : Point n m) (s : State n m) : Prop where
  values_eq : s.values = point.values
  isBasic_eq : ∀ v, s.basis.isBasic v = point.basis.isBasic v
  spread_eq : ∀ v, s.basis.spread s.reduced v = point.basis.spread point.reduced v

/-- Factorizing a point notes that it has been factorized, and nothing else. -/
theorem logged_of_ofPoint {kind : Event → Bool} (hkind : ∀ updates values, kind (.factorized updates values) = false)
    {limit pivots : ℕ} {point : Point n m} {weights : Option (Vec m)} {stuck : Option (Var n m)} {log : Array Event}
    (h : ofPoint P limit point pivots weights stuck log = .ok s) : logged kind s.log = logged kind log := by
  obtain ⟨_, _, h⟩ := exists_of_bind_eq_ok h
  cases h
  exact logged_push log (hkind _ _)

/-- Factorizing succeeds for nonsingular bases and is refused for the others. -/
theorem ofPoint_cases (hA : P.matrix.Simple) {point : Point n m} (hb : point.basis.Valid)
    {weights : Option (Vec m)} (hw : ∀ w, weights = some w → ∀ i,
      w.get i = ∑ k, P.inverseRow point.basis i k * P.inverseRow point.basis i k)
    (limit pivots : ℕ) (stuck : Option (Var n m)) (log : Array Event) :
    (∃ s, ofPoint P limit point pivots weights stuck log = .ok s ∧ s.Sound P ∧
      Factorized point s ∧ s.stuck = stuck ∧ milestones s.log = milestones log) ∨
    ¬IsUnit (P.basisMatrix point.basis) ∧
      ∃ k, ofPoint P limit point pivots weights stuck log = .error (.refused (.singularBasis k)) := by
  have hcol : ∀ r, ∀ e ∈ (point.basis.basic.map P.column).get r, e.2 ≠ 0 := by
    intro r
    rw [get_map]
    exact P.column_ne_zero hA.toMirrored _
  rcases Factorization.ofColumns_cases hcol limit with ⟨F, order, ho, hbij, hF⟩ | ⟨hs, k, ho⟩
  · rw [P.columnMatrix_basic hA, ← P.basisMatrix_reorder] at hF
    have hu := (Problem.isUnit_reorder_iff hbij).mp hF.isUnit
    refine Or.inl ⟨_, by rw [ofPoint, ho]; rfl, ⟨hb.reorder hbij, hF, ?_⟩,
      ⟨rfl, hb.isBasic_reorder hbij, hb.spread_reorder hbij _⟩, rfl, logged_push log rfl⟩
    intro w hw' i
    obtain ⟨w₀, rfl, rfl⟩ := Option.map_eq_some_iff.mp hw'
    rw [get_map, hw w₀ rfl, P.inverseRow_reorder hu hbij]
  · rw [P.columnMatrix_basic hA] at hs
    exact Or.inr ⟨hs, k, by rw [ofPoint, ho]; rfl⟩

theorem get_setBasic {b : Basis n m} (hb : b.Valid) (x : PerVar ℚ n m) (w : Vec m) (i : Fin m) :
    (setBasic b x w).get (b.basic.get i) = w.get i := by
  refine PerVar.get_foldl_set_of_mem b.basic.get w.get x (List.mem_finRange i) fun j _ hj => ?_
  rw [hb.basic_injective hj]

theorem get_setBasic_of_nonbasic {b : Basis n m} (hb : b.Valid) (x : PerVar ℚ n m) (w : Vec m)
    {v : Var n m} (hv : b.isBasic v = false) : (setBasic b x w).get v = x.get v := by
  refine PerVar.get_foldl_set_of_notMem b.basic.get w.get _ x fun i _ hi => ?_
  rw [← hi, hb.isBasic_basic] at hv
  cases hv

theorem get_shiftBasic {b : Basis n m} (hb : b.Valid) (x : PerVar ℚ n m) (factor : ℚ) (w : Vec m)
    (i : Fin m) :
    (shiftBasic b x factor w).get (b.basic.get i) = x.get (b.basic.get i) - factor * w.get i := by
  rw [shiftBasic, PerVar.get_foldl_add, ← Fin.sum_univ_def]
  simp only [hb.basic_injective.eq_iff]
  rw [Finset.sum_ite_eq' Finset.univ i, if_pos (Finset.mem_univ i)]
  ring

theorem get_shiftBasic_of_nonbasic {b : Basis n m} (hb : b.Valid) (x : PerVar ℚ n m) (factor : ℚ)
    (w : Vec m) {v : Var n m} (hv : b.isBasic v = false) :
    (shiftBasic b x factor w).get v = x.get v := by
  have hne : ∀ i, b.basic.get i ≠ v := by
    rintro i rfl
    rw [hb.isBasic_basic] at hv
    cases hv
  rw [shiftBasic, PerVar.get_foldl_add, ← Fin.sum_univ_def,
    Finset.sum_eq_zero fun i _ => if_neg (hne i), add_zero]

theorem get_foldl_column (hA : P.matrix.Mirrored) {ι : Type} (key : ι → Var n m) (value : ι → ℚ)
    (l : List ι) (w : Vec m) (i : Fin m) :
    (l.foldl (fun w e => SparseVec.addTo (P.column (key e)) (value e) w) w).get i =
      w.get i + (l.map fun e => P.entry i (key e) * value e).sum := by
  induction l generalizing w with
  | nil => simp
  | cons e l ih =>
    rw [List.foldl_cons, ih, SparseVec.get_addTo, P.coeff_column hA, List.map_cons, List.sum_cons,
      add_assoc]

/-- Computed values balance the rows, the basic columns taken from the matrix that the factors
represent. -/
theorem computePrimal_of_represents (hb : s.basis.Valid) {B : Matrix (Fin m) (Fin m) ℚ}
    (hB : s.factors.Represents B) (hA : P.matrix.Mirrored) :
    ∃ x, s.computePrimal P = some { s with values := x } ∧
      (∀ i, ∑ r, B i r * x.get (s.basis.basic.get r) +
        ∑ k, P.entry i (s.basis.nonbasic.get k) * x.get (s.basis.nonbasic.get k) = 0) ∧
      ∀ v, s.basis.isBasic v = false → x.get v = s.values.get v := by
  obtain ⟨w, hw, heq⟩ := hB.solve_eq (s.basis.nonbasic.foldl
    (fun w v => SparseVec.addTo (P.column v) (-(s.values.get v)) w) (Vec.zero m))
  refine ⟨setBasic s.basis s.values w, by rw [computePrimal]; simp only [hw]; rfl, fun i => ?_,
    fun v hv => get_setBasic_of_nonbasic hb _ w hv⟩
  have hi := congrFun heq i
  rw [mulVec, dotProduct, foldl_eq_finRange,
    get_foldl_column hA s.basis.nonbasic.get fun k => -s.values.get (s.basis.nonbasic.get k),
    Vec.get_zero, zero_add, ← Fin.sum_univ_def] at hi
  simp only [get_setBasic hb, get_setBasic_of_nonbasic hb _ w (hb.isBasic_nonbasic _)]
  rw [hi, ← Finset.sum_add_distrib]
  exact Finset.sum_eq_zero fun k _ => by ring

namespace Sound
variable (h : s.Sound P) (hA : P.matrix.Mirrored)
include h

theorem duals_eq : ∃ y, s.duals P = some y ∧
    ∀ r, P.reducedCost y.get (s.basis.basic.get r) = 0 := by
  obtain ⟨y, hy, heq⟩ := h.factors.solveTransposed_eq (s.basis.basic.map P.cost)
  refine ⟨y, hy, fun r => ?_⟩
  have hr := congrFun heq r
  rw [P.vecMul_basisMatrix, get_map] at hr
  rw [Problem.reducedCost, hr, sub_self]

theorem priced_unique {y z : Fin m → ℚ}
    (hy : ∀ r, P.reducedCost y (s.basis.basic.get r) = 0)
    (hz : ∀ r, P.reducedCost z (s.basis.basic.get r) = 0) : y = z := by
  refine Problem.eq_of_combination_basic h.isUnit fun r => ?_
  have hy := hy r
  have hz := hz r
  rw [Problem.reducedCost] at hy hz
  linarith

theorem computeDual_eq : ∃ d, s.computeDual P = some { s with reduced := d } ∧
    ∃ y, ∀ v, P.reducedCost y v = s.basis.spread d v := by
  obtain ⟨y, hy, hbasic⟩ := h.duals_eq
  refine ⟨_, by rw [computeDual, hy]; rfl, y.get, fun v => ?_⟩
  rcases h.basis.basic_or_nonbasic v with ⟨i, rfl⟩ | ⟨k, rfl⟩
  · rw [hbasic, h.basis.spread_basic]
  · rw [h.basis.spread_nonbasic, get_ofFn, P.get_nonbasicProduct h.basis, Problem.reducedCost]

include hA

theorem computePrimal_eq : ∃ x, s.computePrimal P = some { s with values := x } ∧
    P.Balanced x.get ∧ ∀ v, s.basis.isBasic v = false → x.get v = s.values.get v := by
  obtain ⟨x, hx, hrows, hkeep⟩ := computePrimal_of_represents h.basis h.factors hA
  refine ⟨x, hx, fun i => ?_, hkeep⟩
  rw [h.basis.sum_eq]
  exact hrows i

/-- Recomputing gives the balanced point of the nonbasic values with the reduced costs of the
basis. -/
theorem recompute_eq : ∃ x d, s.recompute P = some { s with values := x, reduced := d } ∧
    P.Balanced x.get ∧ (∀ v, s.basis.isBasic v = false → x.get v = s.values.get v) ∧
    ∃ y, ∀ v, P.reducedCost y v = s.basis.spread d v := by
  obtain ⟨x, hx, hbal, hkeep⟩ := h.computePrimal_eq hA
  have h' : ({ s with values := x } : State n m).Sound P := h.of_eq rfl rfl rfl
  obtain ⟨d, hd, hy⟩ := h'.computeDual_eq
  exact ⟨x, d, by rw [recompute, hx, Option.bind_some, hd], hbal, hkeep, hy⟩

end Sound

end State

end ExactSimplex
