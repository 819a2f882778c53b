import ExactSimplex.Search.Pass
import ExactSimplex.Proofs.Search.RatioTest

/-! # Exchanging two variables

Values, reduced costs, weights and factors after the exchange of the leaving and the entering
variable. No step of the exchange can fail: the pivot element is not zero, so the new basis matrix
is nonsingular, and an update that is refused is made up for by a new factorization.
-/
namespace ExactSimplex
open Matrix
variable {n m : ℕ}

namespace Basis
variable {b : Basis n m}

theorem Valid.isBasic_exchange (h : b.Valid) (r : Fin m) (k : Fin n) (v : Var n m) :
    (b.exchange r k).isBasic v = if v = b.nonbasic.get k then true
      else if v = b.basic.get r then false else b.isBasic v := by
  have he := h.exchange r k
  by_cases hq : v = b.nonbasic.get k
  · rw [if_pos hq]
    refine he.isBasic_iff.mpr ⟨r, ?_⟩
    rw [basic_exchange, if_pos rfl, hq]
  · rw [if_neg hq]
    by_cases hp : v = b.basic.get r
    · rw [if_pos hp]
      refine he.isBasic_eq_false_iff.mpr ⟨k, ?_⟩
      rw [nonbasic_exchange, if_pos rfl, hp]
    · rw [if_neg hp]
      rcases h.basic_or_nonbasic v with ⟨i, rfl⟩ | ⟨l, rfl⟩
      · rw [h.isBasic_basic]
        refine he.isBasic_iff.mpr ⟨i, ?_⟩
        rw [basic_exchange, if_neg]
        rintro rfl
        exact hp rfl
      · rw [h.isBasic_nonbasic]
        refine he.isBasic_eq_false_iff.mpr ⟨l, ?_⟩
        rw [nonbasic_exchange, if_neg]
        rintro rfl
        exact hq rfl

end Basis

namespace State
variable {P : Problem n m} {s : State n m}

section Point
variable {b : Basis n m}

theorem sum_entry_shiftBasic (P : Problem n m) (hb : b.Valid) (x : PerVar ℚ n m) (factor : ℚ)
    (w : Vec m) (i : Fin m) :
    ∑ v, P.entry i v * (shiftBasic b x factor w).get v =
      ∑ v, P.entry i v * x.get v - factor * (P.basisMatrix b *ᵥ w.get) i := by
  rw [hb.sum_eq, hb.sum_eq, P.mulVec_basisMatrix, Finset.mul_sum]
  simp only [get_shiftBasic hb, get_shiftBasic_of_nonbasic hb _ _ _ (hb.isBasic_nonbasic _)]
  rw [add_sub_right_comm, ← Finset.sum_sub_distrib]
  congr 1
  exact Finset.sum_congr rfl fun r _ => by ring

theorem get_foldl_flips (flips : List (Var n m × ℚ)) (x : PerVar ℚ n m) (v : Var n m) :
    (flips.foldl (fun x f => x.add f.1 f.2) x).get v = x.get v + totalChange flips v :=
  PerVar.get_foldl_add Prod.fst Prod.snd flips x v

theorem sum_map_flips (c : Var n m → ℚ) (flips : List (Var n m × ℚ)) :
    (flips.map fun f => c f.1 * f.2).sum = ∑ v, c v * totalChange flips v := by
  unfold totalChange
  induction flips with
  | nil => simp
  | cons f flips ih =>
    have hf : ∑ v, c v * (if f.1 = v then f.2 else 0) = c f.1 * f.2 := by simp
    simp only [List.map_cons, List.sum_cons, mul_add, Finset.sum_add_distrib, ih, hf]

/-- Flips change the values of the nonbasic variables, and the basic ones follow. -/
theorem applyFlips_eq (h : s.Sound P) (hA : P.matrix.Mirrored) (hbal : P.Balanced s.values.get)
    (flips : List (Var n m × ℚ)) :
    ∃ x, s.applyFlips P flips = some x ∧ P.Balanced x.get ∧
      ∀ v, s.basis.isBasic v = false → x.get v = s.values.get v + totalChange flips v := by
  obtain ⟨w, hw, hB⟩ := h.factors.solve_eq
    (flips.foldl (fun w f => SparseVec.addTo (P.column f.1) f.2 w) (Vec.zero m))
  refine ⟨_, by rw [applyFlips]; simp only [hw]; rfl, fun i => ?_, fun v hv => ?_⟩
  · rw [sum_entry_shiftBasic P h.basis, hB, get_foldl_column hA Prod.fst Prod.snd, Vec.get_zero,
      zero_add, one_mul, sum_map_flips (P.entry i)]
    simp only [get_foldl_flips, mul_add, Finset.sum_add_distrib, hbal i]
    ring
  · rw [get_shiftBasic_of_nonbasic h.basis _ _ _ hv, get_foldl_flips]

/-- The leaving variable reaches its target, and the entering one makes up for it. -/
theorem stepPrimal_eq (hb : b.Valid) {x : PerVar ℚ n m} (hbal : P.Balanced x.get)
    {l : Leaving n m} (hl : b.basic.get l.row = l.var) (target : ℚ) {q : Var n m}
    (hq : b.isBasic q = false) {alphaColumn : Vec m}
    (hB : ∀ i, (P.basisMatrix b *ᵥ alphaColumn.get) i = P.entry i q)
    (hne : alphaColumn.get l.row ≠ 0) :
    ∃ x', stepPrimal b x l target q alphaColumn = some x' ∧ P.Balanced x'.get ∧
      x'.get l.var = target ∧ ∀ v, b.isBasic v = false → v ≠ q → x'.get v = x.get v := by
  refine ⟨_, by rw [stepPrimal, divide?_eq _ hne]; rfl, fun i => ?_, ?_, fun v hv hvq => ?_⟩
  · have hadd : ∀ v, P.entry i v * ((shiftBasic b x ((x.get l.var - target) /
        alphaColumn.get l.row) alphaColumn).add q ((x.get l.var - target) /
          alphaColumn.get l.row)).get v = P.entry i v * (shiftBasic b x ((x.get l.var - target) /
        alphaColumn.get l.row) alphaColumn).get v + if q = v then
          P.entry i v * ((x.get l.var - target) / alphaColumn.get l.row) else 0 := by
      intro v
      rw [PerVar.get_add]
      split <;> ring
    simp only [hadd, Finset.sum_add_distrib, sum_entry_shiftBasic P hb, hbal i, hB]
    rw [Finset.sum_ite_eq Finset.univ q, if_pos (Finset.mem_univ q)]
    ring
  · have hne' : q ≠ l.var := by
      rintro rfl
      rw [← hl, hb.isBasic_basic] at hq
      cases hq
    rw [PerVar.get_add, if_neg hne', ← hl, get_shiftBasic hb, div_mul_cancel₀ _ hne]
    ring
  · rw [PerVar.get_add, if_neg (Ne.symm hvq), get_shiftBasic_of_nonbasic hb _ _ _ hv]

/-- A dual step takes a multiple of the pivot row off the reduced costs. -/
theorem stepDual_eq (hb : b.Valid) (hu : IsUnit (P.basisMatrix b)) (d : Vec n) {alphaRow : Vec n}
    {r : Fin m} {k : Fin n} (halpha : ∀ j, alphaRow.get j = P.tableau b r j)
    (hne : alphaRow.get k ≠ 0) :
    ∃ d', stepDual d alphaRow k = some d' ∧ ∀ v, (b.exchange r k).spread d' v =
      b.spread d v - d.get k / alphaRow.get k * P.combination (P.inverseRow b r) v := by
  refine ⟨_, by rw [stepDual, divide?_eq _ hne]; rfl, fun v => ?_⟩
  have he := hb.exchange r k
  rcases hb.basic_or_nonbasic v with ⟨i, rfl⟩ | ⟨j, rfl⟩
  · rw [hb.spread_basic, Problem.combination_inverseRow hu]
    by_cases hi : r = i
    · have hk := he.spread_nonbasic (put (Vector.ofFn fun j => d.get j - d.get k / alphaRow.get k *
        alphaRow.get j) k (-(d.get k / alphaRow.get k))) k
      rw [Basis.nonbasic_exchange, if_pos rfl, get_put, if_pos rfl] at hk
      rw [← hi, hk, if_pos rfl]
      ring
    · rw [if_neg hi, he.spread_of_isBasic]
      · ring
      · refine he.isBasic_iff.mpr ⟨i, ?_⟩
        rw [Basis.basic_exchange, if_neg hi]
  · rw [hb.spread_nonbasic, ← Problem.tableau, ← halpha]
    by_cases hj : k = j
    · subst hj
      rw [he.spread_of_isBasic, div_mul_cancel₀ _ hne, sub_self]
      refine he.isBasic_iff.mpr ⟨r, ?_⟩
      rw [Basis.basic_exchange, if_pos rfl]
    · have hk := he.spread_nonbasic (put (Vector.ofFn fun j => d.get j - d.get k / alphaRow.get k *
        alphaRow.get j) k (-(d.get k / alphaRow.get k))) j
      rw [Basis.nonbasic_exchange, if_neg hj, get_put, if_neg hj, get_ofFn] at hk
      exact hk

end Point

/-- The state after an exchange, the factors still being those of the old basis. -/
structure Exchanged (P : Problem n m) (s t : State n m) (l : Leaving n m) (e : Entering n m) : Prop where
  basis_eq : t.basis = s.basis.exchange l.row e.position
  factors_eq : t.factors = s.factors
  stuck_eq : t.stuck = s.stuck
  milestones_eq : milestones t.log = milestones s.log
  weights : ∀ w, t.weights = some w → ∀ i,
    w.get i = ∑ k, P.inverseRow t.basis i k * P.inverseRow t.basis i k
  balanced : P.Balanced t.values.get
  value_leaving : t.values.get l.var = s.leavingTarget P l
  value_nonbasic : ∀ v, s.basis.isBasic v = false → v ≠ s.basis.nonbasic.get e.position →
    t.values.get v = s.values.get v + totalChange e.flips v
  spread_eq : ∀ v, t.basis.spread t.reduced v = s.basis.spread s.reduced v -
    s.reduced.get e.position / P.tableau s.basis l.row e.position *
      P.combination (P.inverseRow s.basis l.row) v

/-- A note in the log makes no difference for an exchange. -/
theorem Exchanged.of_record {t : State n m} {l : Leaving n m} {e : Entering n m} {note : Event}
    (hnote : note.isMilestone = false) (h : Exchanged P (s.record note) t l e) : Exchanged P s t l e :=
  { h with milestones_eq := h.milestones_eq.trans (logged_push s.log hnote) }

theorem Sound.carryWeights_eq (h : s.Sound P) {r : Fin m} {k : Fin n} {rho alphaColumn : Vec m}
    (hrho : rho.get = P.inverseRow s.basis r)
    (hcol : ∀ i, alphaColumn.get i = P.tableau s.basis i k) (hne : P.tableau s.basis r k ≠ 0) :
    ∃ weights, s.carryWeights r rho alphaColumn = some weights ∧ ∀ w, weights = some w → ∀ i,
      w.get i = ∑ l, P.inverseRow (s.basis.exchange r k) i l * P.inverseRow (s.basis.exchange r k) i l := by
  unfold carryWeights
  cases hw : s.weights with
  | none => exact ⟨none, rfl, fun w h => by cases h⟩
  | some weights =>
    obtain ⟨tau, ht, hB⟩ := h.factors.solve_eq rho
    obtain ⟨w, hu, hget⟩ := updateWeights_eq h.isUnit hcol (by rw [hcol]; exact hne) hrho hB
      (h.weights weights hw)
    refine ⟨some w, by simp only [ht, Option.bind_some, hu, Option.map_some], fun w' hw' => ?_⟩
    cases hw'
    exact hget

theorem Sound.exchange_eq (h : s.Sound P) (hA : P.matrix.Mirrored) (hbal : P.Balanced s.values.get)
    {l : Leaving n m} (hl : s.basis.basic.get l.row = l.var) (e : Entering n m)
    {rho alphaColumn : Vec m} {alphaRow : Vec n} (hrho : rho.get = P.inverseRow s.basis l.row)
    (hrow : ∀ j, alphaRow.get j = P.tableau s.basis l.row j)
    (hcol : ∀ i, (P.basisMatrix s.basis *ᵥ alphaColumn.get) i =
      P.entry i (s.basis.nonbasic.get e.position))
    (hne : P.tableau s.basis l.row e.position ≠ 0) :
    ∃ t, s.exchange P l e rho alphaRow alphaColumn = some t ∧ Exchanged P s t l e := by
  have hcolumn : ∀ i, alphaColumn.get i = P.tableau s.basis i e.position :=
    fun i => Problem.combination_eq_of_mulVec h.isUnit (funext hcol) i
  obtain ⟨d, hd, hspread⟩ := stepDual_eq h.basis h.isUnit s.reduced hrow (by rw [hrow]; exact hne)
  obtain ⟨x, hx, hxbal, hxnon⟩ := applyFlips_eq h hA hbal e.flips
  obtain ⟨x', hx', hbal', hleave, hkeep⟩ := stepPrimal_eq h.basis hxbal hl (s.leavingTarget P l)
    (h.basis.isBasic_nonbasic e.position) hcol (by rw [hcolumn]; exact hne)
  obtain ⟨weights, hw, hweights⟩ := h.carryWeights_eq hrho hcolumn hne
  have hex : s.exchange P l e rho alphaRow alphaColumn = some { s with
      basis := s.basis.exchange l.row e.position
      values := x'
      reduced := d
      weights := weights
      pivots := s.pivots + 1 } := by
    simp only [exchange, hd, hx, hx', hw, Option.bind_eq_bind, Option.bind_some, Option.pure_def]
  refine ⟨_, hex, rfl, rfl, rfl, rfl, hweights, hbal', hleave, fun v hv hvq => ?_, fun v => ?_⟩
  · exact (hkeep v hv hvq).trans (hxnon v hv)
  · rw [← hrow]
    exact hspread v

theorem refactor_eq (hA : P.matrix.Simple) (cfg : Config) (hb : s.basis.Valid)
    (hu : IsUnit (P.basisMatrix s.basis)) (hw : ∀ w, s.weights = some w → ∀ i,
      w.get i = ∑ k, P.inverseRow s.basis i k * P.inverseRow s.basis i k) :
    ∃ t, s.refactor P cfg = .ok t ∧ t.Sound P ∧ Factorized s.toPoint t ∧ t.stuck = s.stuck ∧
      milestones t.log = milestones s.log := by
  rcases ofPoint_cases hA hb hw cfg.searchLimit s.pivots s.stuck s.log with
    ⟨t, ht, hs⟩ | ⟨hn, _⟩
  · exact ⟨t, by rw [refactor, ht], hs⟩
  · exact absurd hu hn

theorem basisMatrix_exchange (P : Problem n m) (b : Basis n m) (r : Fin m) (k : Fin n)
    {column : Fin m → ℚ} (hc : ∀ i, column i = P.entry i (b.nonbasic.get k)) :
    P.basisMatrix (b.exchange r k) = (P.basisMatrix b).updateCol r column := by
  ext i j
  rw [updateCol_apply, Problem.basisMatrix, of_apply, Basis.basic_exchange, hc]
  by_cases hj : r = j
  · rw [if_pos hj, if_pos hj.symm]
  · rw [if_neg hj, if_neg (Ne.symm hj)]
    rfl

/-- The factors follow the exchange, by an update or from scratch. -/
theorem Sound.renewFactors_eq (h : s.Sound P) (hA : P.matrix.Simple) (cfg : Config)
    {t : State n m} {l : Leaving n m} {e : Entering n m} (ht : Exchanged P s t l e)
    (hne : P.tableau s.basis l.row e.position ≠ 0) {column : Vec m}
    (hc : ∀ i, column.get i = P.entry i (s.basis.nonbasic.get e.position)) :
    ∃ u, t.renewFactors P cfg l.row column = .ok u ∧ u.Sound P ∧ Factorized t.toPoint u ∧
      u.stuck = t.stuck ∧ milestones u.log = milestones t.log := by
  have hb : t.basis.Valid := by
    rw [ht.basis_eq]
    exact h.basis.exchange l.row e.position
  have hu : IsUnit (P.basisMatrix t.basis) := by
    rw [ht.basis_eq]
    exact Problem.isUnit_exchange h.isUnit hne
  unfold renewFactors
  by_cases hp : t.pivots % cfg.refactorInterval = 0
  · rw [if_pos hp]
    exact refactor_eq hA cfg hb hu ht.weights
  · rw [if_neg hp, ht.factors_eq]
    rcases h.factors.replaceColumn_cases l.row column with ⟨G, hG, hr⟩ | hG
    · rw [hG]
      refine ⟨_, rfl, ⟨hb, ?_, ht.weights⟩, ⟨rfl, fun _ => rfl, fun _ => rfl⟩, rfl, rfl⟩
      rw [← basisMatrix_exchange P s.basis l.row e.position hc] at hr
      rw [ht.basis_eq]
      exact hr
    · rw [hG]
      obtain ⟨u, hu', hs, hf, hstuck, hm⟩ := refactor_eq hA cfg
        (s := t.record (.updateRefused (.singularBasis 1))) hb hu ht.weights
      exact ⟨u, hu', hs, hf, hstuck, hm.trans (logged_push t.log rfl)⟩

theorem Sound.renewWeights_eq (h : s.Sound P) (cfg : Config) (iterations : ℕ) :
    ∃ t, s.renewWeights cfg iterations = .ok t ∧ t.Sound P ∧ t.toPoint = s.toPoint ∧
      t.stuck = s.stuck ∧ milestones t.log = milestones s.log := by
  unfold renewWeights
  split
  · obtain ⟨w, hw, hget⟩ := exactWeights_eq h.factors
    refine ⟨{ s.record (.weightsComputed iterations) with weights := some w }, ?_,
      ⟨h.basis, h.factors, fun w' hw' => ?_⟩, rfl, rfl, logged_push s.log rfl⟩
    · simp only [factors_record, hw, divided]
      rfl
    · cases hw'
      exact hget
  · exact ⟨s, rfl, h, rfl, rfl, rfl⟩

end State

end ExactSimplex
