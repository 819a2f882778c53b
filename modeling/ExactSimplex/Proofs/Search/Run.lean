import ExactSimplex.Search.Run
import ExactSimplex.Proofs.Search.Termination

/-! # Runs and solves

Coming to rest takes two rounds, because reduced costs do not depend on values. Under the surrogate
bounds every resting state is dual feasible and the origin is a feasible point, so phase one always
ends with an optimum; if that is zero, the next state at rest under the true bounds is dual feasible.
Hence a run enters phase one at most once, and a solve always has a verdict.
-/
namespace ExactSimplex
variable {n m : ℕ}

namespace State

section Interval
variable {b : Bounds} {x d : ℚ}

theorem rests_nonbasicValue (b : Bounds) (x : ℚ) : b.Rests (nonbasicValue b x) := by
  rcases b with ⟨_ | l, _ | u⟩
  · exact Or.inr (Or.inr ⟨rfl, rfl, rfl⟩)
  · exact Or.inr (Or.inl rfl)
  · exact Or.inl rfl
  · by_cases h : x = l ∨ x = u
    · simp only [nonbasicValue, if_pos h]
      exact h.imp (fun h => by rw [h]) fun h => Or.inl (by rw [h])
    · simp only [nonbasicValue, if_neg h]
      exact Or.inl rfl

theorem wantedBound?_eq_some {z : ℚ} (h : wantedBound? b x d = some z) :
    b.Rests z ∧ wantedBound? b z d = none := by
  rcases b with ⟨_ | l, _ | u⟩ <;> simp only [wantedBound?, Bounds.box?] at h ⊢
  · cases h
  · cases h
  · cases h
  · split at h
    · cases h
    · next hlu =>
      rw [if_neg hlu]
      split at h
      · next hx =>
        cases h
        refine ⟨Or.inr (Or.inl rfl), ?_⟩
        rw [if_neg fun he => hlu he.1.symm, if_neg fun he => absurd he.2 (not_lt.mpr hx.2.le)]
      · split at h
        · next hx =>
          cases h
          refine ⟨Or.inl rfl, ?_⟩
          rw [if_neg fun he => absurd he.2 (not_lt.mpr hx.2.le), if_neg fun he => hlu he.1]
        · cases h

theorem supports_of_not_wanted {l u : ℚ} (hb : b.box? = some (l, u)) (hr : b.Rests x)
    (hw : wantedBound? b x d = none) : b.Supports x d := by
  obtain ⟨hlow, hupp⟩ := Bounds.box?_eq_some_iff.mp hb
  rw [wantedBound?, hb] at hw
  simp only at hw
  by_cases hlu : l = u
  · have hx : b.lower = some x ∧ b.upper = some x := by
      rcases hr with h | h | ⟨h, _⟩
      · exact ⟨h, by rw [hupp, ← hlu, ← hlow, h]⟩
      · exact ⟨by rw [hlow, hlu, ← hupp, h], h⟩
      · rw [hlow] at h
        cases h
    exact ⟨fun _ => hx.1, fun _ => hx.2⟩
  · rw [if_neg hlu] at hw
    rcases hr with h | h | ⟨h, _⟩
    · refine Bounds.supports_of_lower h (Or.inl (not_lt.mp fun hd => ?_))
      have hx : x = l := Option.some.inj (h.symm.trans hlow)
      rw [if_pos ⟨hx, hd⟩] at hw
      cases hw
    · refine Bounds.supports_of_upper h (Or.inl (not_lt.mp fun hd => ?_))
      have hx : x = u := Option.some.inj (h.symm.trans hupp)
      rw [if_neg fun he => hlu (he.1.symm.trans hx), if_pos ⟨hx, hd⟩] at hw
      cases hw
    · rw [hlow] at h
      cases h

theorem isFixed_iff : b.isFixed = true ↔ ∃ l, b.lower = some l ∧ b.upper = some l := by
  rcases b with ⟨_ | l, _ | u⟩ <;> simp [Bounds.isFixed, Bounds.box?, eq_comm]

theorem agrees_iff (hr : b.Rests x) : agrees b x d = true ↔ b.Supports x d := by
  have hiff : agrees b x d = true ↔ (∃ l, b.lower = some l ∧ b.upper = some l) ∨
      ¬(b.lower = some x ∧ d < 0) ∧ ¬(b.upper = some x ∧ 0 < d) ∧
        ¬((b.lower = none ∧ b.upper = none) ∧ d ≠ 0) := by
    simp only [agrees, Bool.or_eq_true, isFixed_iff, Bool.and_eq_true, Bool.not_eq_true', and_assoc,
      ← Bool.not_eq_true, Bounds.isAt_iff, Bounds.isFree_iff, decide_eq_true_eq]
  rw [hiff]
  constructor
  · rintro (⟨l, hl, hu⟩ | ⟨hlow, hupp, hfree⟩)
    · rcases hr with h | h | ⟨h, _⟩
      · exact ⟨fun _ => h, fun _ => hu.trans (hl.symm.trans h)⟩
      · exact ⟨fun _ => hl.trans (hu.symm.trans h), fun _ => h⟩
      · rw [hl] at h
        cases h
    · rcases hr with h | h | ⟨hl, hu, _⟩
      · exact Bounds.supports_of_lower h (Or.inl (not_lt.mp fun hd => hlow ⟨h, hd⟩))
      · exact Bounds.supports_of_upper h (Or.inl (not_lt.mp fun hd => hupp ⟨h, hd⟩))
      · have hd : d = 0 := by
          by_contra hd
          exact hfree ⟨⟨hl, hu⟩, hd⟩
        rw [hd]
        exact Bounds.supports_zero
  · intro hs
    rw [or_iff_not_imp_left]
    intro hfix
    refine ⟨fun h => hfix ⟨x, h.1, hs.2 h.2⟩, fun h => hfix ⟨x, hs.1 h.2, h.1⟩, fun h => h.2 ?_⟩
    exact eq_zero_of_free hs h.1

end Interval

variable {P : Problem n m} {s : State n m}

theorem isDualFeasible_iff (h : s.Settled P) : s.isDualFeasible P = true ↔ s.Ready P := by
  simp only [isDualFeasible, List.all_eq_true, List.mem_finRange, true_imp_iff]
  constructor
  · intro hall
    refine ⟨h, fun v => ?_⟩
    rcases h.basis.basic_or_nonbasic v with ⟨i, rfl⟩ | ⟨k, rfl⟩
    · rw [h.basis.spread_basic]
      exact Bounds.supports_zero
    · rw [h.basis.spread_nonbasic]
      exact (agrees_iff (h.rests _ (h.basis.isBasic_nonbasic k))).mp (hall k)
  · intro hr k
    exact (agrees_iff (h.rests _ (h.basis.isBasic_nonbasic k))).mpr (hr.supports_nonbasic k)

/-- No nonbasic variable has a wish to change sides. -/
def Calm (P : Problem n m) (s : State n m) : Prop :=
  ∀ k, wantedBound? (P.bounds.get (s.basis.nonbasic.get k)) (s.values.get (s.basis.nonbasic.get k))
    (s.reduced.get k) = none

theorem calm_iff : s.wantedFlips P = [] ↔ s.Calm P := by
  simp [wantedFlips, Calm]

theorem Sound.moveToBounds (h : s.Sound P) : (s.moveToBounds P).Sound P := h.of_eq rfl rfl rfl

theorem rests_moveToBounds (h : s.Sound P) {v : Var n m} (hv : s.basis.isBasic v = false) :
    (P.bounds.get v).Rests ((s.moveToBounds P).values.get v) := by
  have hfold : ∀ (l : List (Fin n)) (x : PerVar ℚ n m),
      (∃ k ∈ l, s.basis.nonbasic.get k = v) ∨ (P.bounds.get v).Rests (x.get v) →
      (P.bounds.get v).Rests ((l.foldl (fun x k => x.set (s.basis.nonbasic.get k)
        (nonbasicValue (P.bounds.get (s.basis.nonbasic.get k)) (x.get (s.basis.nonbasic.get k))))
        x).get v) := by
    intro l
    induction l with
    | nil =>
      rintro x (⟨k, hk, _⟩ | hx)
      · cases hk
      · exact hx
    | cons k l ih =>
      intro x hx
      rw [List.foldl_cons]
      apply ih
      by_cases hk : s.basis.nonbasic.get k = v
      · rw [PerVar.get_set, if_pos hk, hk]
        exact Or.inr (rests_nonbasicValue _ _)
      · rw [PerVar.get_set, if_neg hk]
        refine hx.imp_left fun ⟨j, hj, hjv⟩ => ⟨j, (List.mem_cons.mp hj).resolve_left ?_, hjv⟩
        rintro rfl
        exact hk hjv
  obtain ⟨k, hk⟩ := h.basis.isBasic_eq_false_iff.mp hv
  rw [State.moveToBounds, foldl_eq_finRange]
  exact hfold _ _ (Or.inl ⟨k, List.mem_finRange k, hk⟩)

/-- A sound state whose point is balanced and has the reduced costs of its basis. Where its nonbasic
variables are does not matter. -/
structure Computed (P : Problem n m) (s : State n m) : Prop extends s.Sound P where
  balanced : P.Balanced s.values.get
  priced : ∃ y, ∀ v, P.reducedCost y v = s.basis.spread s.reduced v

theorem Settled.computed (h : s.Settled P) : s.Computed P := ⟨h.toSound, h.balanced, h.priced⟩

theorem Sound.recompute_computed (h : s.Sound P) (hA : P.matrix.Mirrored) :
    ∃ t, s.recompute P = some t ∧ t.Computed P ∧ t.basis = s.basis ∧ t.stuck = s.stuck ∧
      t.log = s.log ∧ ∀ v, s.basis.isBasic v = false → t.values.get v = s.values.get v := by
  obtain ⟨x, d, hrec, hbal, hkeep, hpriced⟩ := h.recompute_eq hA
  exact ⟨_, hrec, ⟨h.of_eq rfl rfl rfl, hbal, hpriced⟩, rfl, rfl, rfl, hkeep⟩

/-- Reduced costs depend on the basis and the costs only. -/
theorem Computed.spread_eq {Q : Problem n m} {t : State n m} (h : s.Computed P) (ht : t.Computed Q)
    (hb : t.basis = s.basis) (hcost : ∀ y v, Q.reducedCost y v = P.reducedCost y v) (v : Var n m) :
    t.basis.spread t.reduced v = s.basis.spread s.reduced v := by
  obtain ⟨y, hy⟩ := h.priced
  obtain ⟨z, hz⟩ := ht.priced
  have hyz : y = z := by
    refine h.priced_unique (fun r => ?_) fun r => ?_
    · rw [hy, h.basis.spread_basic]
    · have hr := ht.basis.spread_basic t.reduced r
      rw [← hcost, hz]
      rw [hb] at hr ⊢
      exact hr
  rw [← hy, ← hz, hcost, hyz]

def flipWanted (P : Problem n m) (s : State n m) : State n m :=
  ({ s with values :=
    (s.wantedFlips P).foldl (fun x f => x.set f.1 f.2) s.values } : State n m).record
    (.flipped (s.wantedFlips P).length)

theorem get_flipWanted (hb : s.basis.Valid) (k : Fin n) :
    (s.flipWanted P).values.get (s.basis.nonbasic.get k) =
      (wantedBound? (P.bounds.get (s.basis.nonbasic.get k)) (s.values.get (s.basis.nonbasic.get k))
        (s.reduced.get k)).getD (s.values.get (s.basis.nonbasic.get k)) := by
  have hmem : ∀ f, f ∈ s.wantedFlips P ↔ ∃ j, s.basis.nonbasic.get j = f.1 ∧
      wantedBound? (P.bounds.get f.1) (s.values.get f.1) (s.reduced.get j) = some f.2 := by
    intro f
    simp only [wantedFlips, List.mem_filterMap, List.mem_finRange, true_and, Option.map_eq_some_iff]
    constructor
    · rintro ⟨j, z, hz, rfl⟩
      exact ⟨j, rfl, hz⟩
    · rintro ⟨j, hj, hz⟩
      rw [← hj] at hz
      exact ⟨j, f.2, hz, by rw [hj]⟩
  cases hw : wantedBound? (P.bounds.get (s.basis.nonbasic.get k))
      (s.values.get (s.basis.nonbasic.get k)) (s.reduced.get k) with
  | none =>
    refine PerVar.get_foldl_set_of_notMem Prod.fst Prod.snd _ _ fun f hf he => ?_
    obtain ⟨j, hj, hz⟩ := (hmem f).mp hf
    rw [he] at hj hz
    rw [hb.nonbasic_injective hj, hw] at hz
    cases hz
  | some z =>
    refine PerVar.get_foldl_set_of_mem Prod.fst Prod.snd _
      ((hmem (s.basis.nonbasic.get k, z)).mpr ⟨k, rfl, hw⟩) fun f hf he => ?_
    obtain ⟨j, hj, hz⟩ := (hmem f).mp hf
    rw [he] at hj hz
    rw [hb.nonbasic_injective hj, hw] at hz
    exact (Option.some.inj hz).symm

theorem rests_flipWanted (hb : s.basis.Valid) {v : Var n m} (hv : s.basis.isBasic v = false)
    (hr : (P.bounds.get v).Rests (s.values.get v)) :
    (P.bounds.get v).Rests ((s.flipWanted P).values.get v) := by
  obtain ⟨k, rfl⟩ := hb.isBasic_eq_false_iff.mp hv
  rw [get_flipWanted hb]
  cases hz : wantedBound? (P.bounds.get (s.basis.nonbasic.get k))
      (s.values.get (s.basis.nonbasic.get k)) (s.reduced.get k) with
  | none => exact hr
  | some z => exact (wantedBound?_eq_some hz).1

/-- After the flips all variables are where their reduced costs want them, and the reduced costs are
still the same. -/
theorem Computed.calm_of_flipped (h : s.Computed P) {t : State n m} (ht : t.Computed P)
    (hb : t.basis = s.basis) (hv : ∀ v, s.basis.isBasic v = false →
      t.values.get v = (s.flipWanted P).values.get v) : t.Calm P := by
  intro k
  have hk := h.basis.isBasic_nonbasic k
  have hd : t.reduced.get k = s.reduced.get k := by
    have hs := h.spread_eq ht hb (fun _ _ => rfl) (s.basis.nonbasic.get k)
    rw [h.basis.spread_nonbasic] at hs
    rw [← hs, hb, h.basis.spread_nonbasic]
  rw [hb, hd, hv _ hk, get_flipWanted h.basis]
  cases hz : wantedBound? (P.bounds.get (s.basis.nonbasic.get k))
      (s.values.get (s.basis.nonbasic.get k)) (s.reduced.get k) with
  | none => exact hz
  | some z => exact (wantedBound?_eq_some hz).2

theorem settle_calm {rounds : ℕ} {t : State n m} (hrec : s.recompute P = some t) (ht : t.Calm P) :
    settle P (rounds + 1) s = .ok t := by
  unfold settle
  rw [hrec]
  simp only [divided, bind, Except.bind, calm_iff.mpr ht]
  rfl

theorem settle_flipWanted {rounds : ℕ} {t : State n m} (hrec : s.recompute P = some t)
    (ht : ¬t.Calm P) : settle P (rounds + 1) s = settle P rounds (t.flipWanted P) := by
  conv_lhs => unfold settle
  rw [hrec]
  simp only [divided, bind, Except.bind]
  split
  · next hw => exact absurd (calm_iff.mp hw) ht
  · rfl

/-- Wherever the variables are: after two rounds no variable wants to change sides, so that more rounds
are never made. -/
theorem Sound.settle_eq (h : s.Sound P) (hA : P.matrix.Mirrored) :
    ∃ t, (∀ rounds, settle P (rounds + 2) s = .ok t) ∧ t.Computed P ∧ t.Calm P ∧ t.basis = s.basis ∧
      t.stuck = s.stuck ∧ (t.log = s.log ∨ ∃ flips, t.log = s.log.push (.flipped flips)) ∧
      ∀ v, s.basis.isBasic v = false → (P.bounds.get v).Rests (s.values.get v) →
        (P.bounds.get v).Rests (t.values.get v) := by
  obtain ⟨t, hrec, ht, hb, hstuck, hlog, hkeep⟩ := h.recompute_computed hA
  by_cases hcalm : t.Calm P
  · refine ⟨t, fun _ => settle_calm hrec hcalm, ht, hcalm, hb, hstuck, Or.inl hlog, fun v hv hr => ?_⟩
    rwa [hkeep v hv]
  · have hf : (t.flipWanted P).Sound P := ht.toSound.of_eq rfl rfl rfl
    obtain ⟨u, hurec, hu, hub, hustuck, hulog, hukeep⟩ := hf.recompute_computed hA
    have hucalm := ht.calm_of_flipped hu hub hukeep
    refine ⟨u, fun _ => ?_, hu, hucalm, hub.trans hb, hustuck.trans hstuck, Or.inr ?_, fun v hv hr => ?_⟩
    · rw [settle_flipWanted hrec hcalm, settle_calm hurec hucalm]
    · exact ⟨(t.wantedFlips P).length, by rw [hulog, ← hlog]; rfl⟩
    · rw [← hb] at hv
      rw [hukeep v hv]
      refine rests_flipWanted ht.basis hv ?_
      rw [hb] at hv
      rwa [hkeep v hv]

/-- Coming to rest ends in a settled state in which no variable wants to change sides. -/
theorem Sound.comeToRest_eq (h : s.Sound P) (hA : P.matrix.Mirrored) :
    ∃ t, comeToRest P s = .ok t ∧ t.Settled P ∧ t.Calm P ∧ t.basis = s.basis ∧ t.stuck = s.stuck ∧
      milestones t.log = milestones s.log := by
  obtain ⟨t, hsettle, ht, hcalm, hb, hstuck, hlog, hrests⟩ := h.moveToBounds.settle_eq hA
  have hsettled : t.Settled P := ⟨ht.toSound, ht.balanced, ht.priced, fun v hv => by
    have hv' : s.basis.isBasic v = false := by
      rw [hb] at hv
      exact hv
    exact hrests v hv' (rests_moveToBounds h hv')⟩
  refine ⟨t, hsettle 0, hsettled, hcalm, hb, hstuck, ?_⟩
  rcases hlog with hlog | ⟨flips, hlog⟩
  · exact congrArg milestones hlog
  · rw [hlog]
    exact logged_push _ rfl

/-- A settled state without wanted flips is ready if nonzero reduced costs push towards finite
bounds only. -/
theorem Settled.ready_of_calm (h : s.Settled P) (hcalm : s.Calm P)
    (hfinite : ∀ v, (0 < s.basis.spread s.reduced v → (P.bounds.get v).lower ≠ none) ∧
      (s.basis.spread s.reduced v < 0 → (P.bounds.get v).upper ≠ none)) : s.Ready P := by
  refine ⟨h, fun v => ?_⟩
  rcases h.basis.basic_or_nonbasic v with ⟨i, rfl⟩ | ⟨k, rfl⟩
  · rw [h.basis.spread_basic]
    exact Bounds.supports_zero
  · have hr := h.rests _ (h.basis.isBasic_nonbasic k)
    obtain ⟨hlow, hupp⟩ := hfinite (s.basis.nonbasic.get k)
    have hw := hcalm k
    rw [h.basis.spread_nonbasic] at hlow hupp ⊢
    cases hl : (P.bounds.get (s.basis.nonbasic.get k)).lower with
    | none =>
      have hd : s.reduced.get k ≤ 0 := not_lt.mp fun hd => hlow hd hl
      rcases hr with h' | h' | ⟨_, hu, _⟩
      · rw [hl] at h'
        cases h'
      · exact Bounds.supports_of_upper h' (Or.inl hd)
      · rw [le_antisymm hd (not_lt.mp fun hd => hupp hd hu)]
        exact Bounds.supports_zero
    | some l =>
      cases hu : (P.bounds.get (s.basis.nonbasic.get k)).upper with
      | none =>
        have hd : 0 ≤ s.reduced.get k := not_lt.mp fun hd => hupp hd hu
        rcases hr with h' | h' | ⟨h', _⟩
        · exact Bounds.supports_of_lower h' (Or.inl hd)
        · rw [hu] at h'
          cases h'
        · rw [hl] at h'
          cases h'
      | some u =>
        refine supports_of_not_wanted (l := l) (u := u) ?_ hr hw
        rw [Bounds.box?, hl, hu]

/-- At rest, wherever the variables were and whatever the bounds are, a basis is dual feasible if its nonzero
reduced costs push towards finite bounds only. -/
theorem Computed.comeToRest_ready {Q : Problem n m} {t : State n m} (h : s.Computed P) (ht : t.Sound Q)
    (hA : Q.matrix.Mirrored) (hb : t.basis = s.basis)
    (hcost : ∀ y v, Q.reducedCost y v = P.reducedCost y v)
    (hfinite : ∀ v, (0 < s.basis.spread s.reduced v → (Q.bounds.get v).lower ≠ none) ∧
      (s.basis.spread s.reduced v < 0 → (Q.bounds.get v).upper ≠ none)) :
    ∃ u, comeToRest Q t = .ok u ∧ u.Ready Q ∧ u.basis = t.basis ∧ u.stuck = t.stuck ∧
      milestones u.log = milestones t.log := by
  obtain ⟨u, hu, hset, hcalm, hub, hstuck, hlog⟩ := ht.comeToRest_eq hA
  refine ⟨u, hu, hset.ready_of_calm hcalm fun v => ?_, hub, hstuck, hlog⟩
  rw [h.spread_eq hset.computed (hub.trans hb) hcost v]
  exact hfinite v

theorem Stuck.not_contains (h : s.Settled P) {p : Var n m} (hs : s.Stuck P p) {z : Var n m → ℚ}
    (hz : P.Balanced z) : ¬∀ v, (P.bounds.get v).Contains (z v) := by
  intro hc
  obtain ⟨l, rfl, hl, hblocked⟩ := hs
  have hdiff := (hz.sub h.balanced).basic_eq h.basis h.isUnit l.row
  rw [hl.var_eq] at hdiff
  have hnonpos : ∑ k, l.side.sign * (P.tableau s.basis l.row k *
      (z (s.basis.nonbasic.get k) - s.values.get (s.basis.nonbasic.get k))) ≤ 0 := by
    refine Finset.sum_nonpos fun k _ => ?_
    have hk := (supports_of_blocked (h.rests _ (h.basis.isBasic_nonbasic k)) (hblocked k)).mul_le
      (hc (s.basis.nonbasic.get k))
    linarith
  rw [← Finset.mul_sum] at hnonpos
  have hsign : l.side.sign * (z l.var - s.values.get l.var) =
      -(l.side.sign * ∑ k, P.tableau s.basis l.row k *
        (z (s.basis.nonbasic.get k) - s.values.get (s.basis.nonbasic.get k))) := by
    rw [hdiff, mul_neg]
    rfl
  have hx := (hc l.var).sign_mul_nonpos hl.bound_eq
  have hviol := hl.violated
  linarith

section Surrogate

theorem bounds_surrogate (P : Problem n m) (v : Var n m) :
    P.surrogate.bounds.get v = (P.bounds.get v).surrogate :=
  PerVar.get_mapped _ _ v

theorem consistent_surrogate (P : Problem n m) (v : Var n m) :
    (P.surrogate.bounds.get v).Consistent := by
  rw [bounds_surrogate]
  exact Bounds.consistent_surrogate _

theorem reducedCost_surrogate (P : Problem n m) (y : Fin m → ℚ) (v : Var n m) :
    P.surrogate.reducedCost y v = P.reducedCost y v := by
  cases v <;> rfl

theorem Settled.ready_surrogate (h : s.Settled P.surrogate) (hcalm : s.Calm P.surrogate) :
    s.Ready P.surrogate := by
  refine h.ready_of_calm hcalm fun v => ?_
  rw [bounds_surrogate]
  exact ⟨fun _ => by simp [Bounds.surrogate], fun _ => by simp [Bounds.surrogate]⟩

/-- The surrogate problem has a feasible point, so nothing gets stuck. -/
theorem not_stuck_surrogate (h : s.Settled P.surrogate) (v : Var n m) : ¬s.Stuck P.surrogate v := by
  intro hs
  refine hs.not_contains (z := fun _ => 0) h (fun i => by simp) fun v => ?_
  rw [bounds_surrogate]
  exact Bounds.contains_zero_surrogate _

/-- If the optimum of the surrogate problem is zero, reduced costs push towards finite bounds of the
true problem only. -/
theorem Ready.finite_of_surrogate (h : s.Ready P.surrogate) (h0 : P.objectiveValue s.values = 0)
    (v : Var n m) : (0 < s.basis.spread s.reduced v → (P.bounds.get v).lower ≠ none) ∧
      (s.basis.spread s.reduced v < 0 → (P.bounds.get v).upper ≠ none) := by
  obtain ⟨y, hy⟩ := h.priced
  have hsum : ∑ v, s.basis.spread s.reduced v * s.values.get v = 0 := by
    have hcost := h.balanced.sum_cost_eq y
    rw [← P.surrogate.objectiveValue_eq_sum] at hcost
    simp only [hy] at hcost
    rw [← hcost]
    exact h0
  have hterm : ∀ v, s.basis.spread s.reduced v * s.values.get v ≤ 0 := by
    intro v
    have hle := (h.supports v).mul_le (z := 0) (by
      rw [bounds_surrogate]
      exact Bounds.contains_zero_surrogate _)
    rwa [mul_zero] at hle
  have hzero := (Finset.sum_eq_zero_iff_of_nonpos fun v _ => hterm v).mp hsum v (Finset.mem_univ v)
  have hsup := h.supports v
  rw [bounds_surrogate] at hsup
  constructor
  · intro hd hn
    have hx := hsup.1 hd
    rw [(mul_eq_zero.mp hzero).resolve_left hd.ne', Bounds.surrogate, hn] at hx
    simp at hx
  · intro hd hn
    have hx := hsup.2 hd
    rw [(mul_eq_zero.mp hzero).resolve_left hd.ne, Bounds.surrogate, hn] at hx
    simp at hx

/-- A zero optimum of the surrogate problem leaves a basis that is dual feasible: at rest under the true
bounds the reduced costs are the same, and agree with where the variables are. -/
theorem Ready.comeToRest_after_surrogate (h : s.Ready P.surrogate) (hA : P.matrix.Mirrored)
    (h0 : P.objectiveValue s.values = 0) :
    ∃ t, comeToRest P s = .ok t ∧ t.Ready P ∧ t.basis = s.basis ∧ t.stuck = s.stuck ∧
      milestones t.log = milestones s.log :=
  h.toSettled.computed.comeToRest_ready (h.toSound.congr rfl) hA rfl
    (fun y v => (reducedCost_surrogate P y v).symm) (h.finite_of_surrogate h0)

end Surrogate

/-- What is known about the state in which a run ends. A run that ends unbounded is still in phase
one, at an optimum of the surrogate problem that is not zero. -/
def Concludes (P : Problem n m) (mayStall : Bool) (t : State n m) : Ending → Prop
  | .verdict .unbounded => t.stuck = none ∧ t.Ready P.surrogate ∧
      Outcome P.surrogate mayStall none t (.verdict .optimal) ∧ P.objectiveValue t.values ≠ 0
  | .verdict v => t.Ready P ∧ Outcome P mayStall none t (.verdict v)
  | .stalled => mayStall = true

/-- The milestones of one run: it enters phase one or it does not. -/
def RunMilestones (es : List Event) : Prop := es = [] ∨ es = [.phaseOneStarted]

section Run
variable (hA : P.matrix.Simple) (cfg : Config) (mayStall : Bool)
include hA

/-- Phase one ends at an optimum of the surrogate problem, unless it stalls. -/
theorem Sound.runSurrogate_eq (h : s.Sound P) :
    ∃ t ending, runSurrogate P cfg mayStall s = .ok (t, ending) ∧ t.Ready P.surrogate ∧
      milestones t.log = milestones s.log ∧
      (ending = .stalled ∧ mayStall = true ∨
        ending = .verdict .optimal ∧ Outcome P.surrogate mayStall none t ending) := by
  have h' : ({ s with stuck := none } : State n m).Sound P.surrogate :=
    (h.congr (Q := P.surrogate) rfl).of_eq rfl rfl rfl
  obtain ⟨u, hu, hset, hcalm, _, hustuck, hulog⟩ := h'.comeToRest_eq hA.toMirrored
  obtain ⟨t, ending, ht, hready, hlog, hout⟩ := (hset.ready_surrogate hcalm).iterate_eq hA
    (consistent_surrogate P) cfg mayStall {}
  refine ⟨t, ending, ?_, hready, hlog.trans hulog, ?_⟩
  · rw [runSurrogate, hu]
    exact ht
  · rw [hustuck] at hout
    match ending, hout with
    | .stalled, hout => exact Or.inl ⟨rfl, hout.2⟩
    | .verdict .optimal, hout => exact Or.inr ⟨rfl, hout⟩
    | .verdict .unbounded, hout => exact hout.elim
    | .verdict .infeasible, ⟨v, _, hv⟩ => exact absurd hv (not_stuck_surrogate hready.toSettled v)
    | .verdict .cutOff, ⟨_, bound, hb, _⟩ => cases hb

variable (hc : ∀ v, (P.bounds.get v).Consistent)
include hc

theorem Ready.iterate_concludes (h : s.Ready P) (hs : s.stuck = none) :
    ∃ t ending, s.iterate P cfg mayStall (cfg.passAllowance n m) {} = .ok (t, ending) ∧ t.Sound P ∧
      Concludes P mayStall t ending ∧ milestones t.log = milestones s.log := by
  obtain ⟨t, ending, ht, hready, hlog, hout⟩ := h.iterate_eq hA hc cfg mayStall {}
  refine ⟨t, ending, ht, hready.toSound, ?_, hlog⟩
  rw [hs] at hout
  match ending, hout with
  | .stalled, hout => exact hout.2
  | .verdict .optimal, hout => exact ⟨hready, hout⟩
  | .verdict .unbounded, hout => exact hout.elim
  | .verdict .infeasible, hout => exact ⟨hready, hout⟩
  | .verdict .cutOff, hout => exact ⟨hready, hout⟩

/-- After an optimum of zero phase one is not entered again. -/
theorem Ready.runPhases_after_surrogate (h : s.Ready P.surrogate) (hs : s.stuck = none)
    (h0 : P.objectiveValue s.values = 0) (phases : ℕ) :
    ∃ t ending, runPhases P cfg mayStall (phases + 1) s = .ok (t, ending) ∧ t.Sound P ∧
      Concludes P mayStall t ending ∧ milestones t.log = milestones s.log := by
  obtain ⟨u, hu, hready, _, hustuck, hulog⟩ := h.comeToRest_after_surrogate hA.toMirrored h0
  obtain ⟨t, ending, ht, htsound, hcon, hlog⟩ := hready.iterate_concludes hA cfg mayStall hc
    (hustuck.trans hs)
  refine ⟨t, ending, ?_, htsound, hcon, hlog.trans hulog⟩
  rw [runPhases, hu]
  simp only [bind, Except.bind, (isDualFeasible_iff hready.toSettled).mpr hready, if_true]
  exact ht

/-- A run enters phase one at most once and always comes to an end. -/
theorem Sound.run_eq (h : s.Sound P) :
    ∃ t ending, run P cfg mayStall s = .ok (t, ending) ∧ t.Sound P ∧ Concludes P mayStall t ending ∧
      ∃ es, RunMilestones es ∧ milestones t.log = milestones s.log ++ es := by
  obtain ⟨phases, hphases⟩ : ∃ phases, Config.assignments n m + 1 = phases + 1 + 1 := by
    have hpos : 0 < Config.assignments n m := Nat.pow_pos (by omega)
    exact ⟨Config.assignments n m - 1, by omega⟩
  have h' : ({ s with stuck := none } : State n m).Sound P := h.of_eq rfl rfl rfl
  obtain ⟨u, hu, hset, _, _, hustuck, hulog⟩ := h'.comeToRest_eq hA.toMirrored
  rw [run, hphases, runPhases, hu]
  by_cases hfeas : u.isDualFeasible P = true
  · obtain ⟨t, ending, ht, hsound, hcon, hlog⟩ := ((isDualFeasible_iff hset).mp hfeas).iterate_concludes
      hA cfg mayStall hc hustuck
    refine ⟨t, ending, ?_, hsound, hcon, [], Or.inl rfl, ?_⟩
    · simp only [bind, Except.bind, hfeas, if_true]
      exact ht
    · rw [hlog, hulog, List.append_nil]
  · have hstart : (u.record .phaseOneStarted).Sound P := hset.toSound.of_eq rfl rfl rfl
    have hmile : milestones (u.record .phaseOneStarted).log =
        milestones s.log ++ [.phaseOneStarted] := by
      rw [← hulog]
      exact logged_push_of u.log rfl
    obtain ⟨w, ending, hw, hready, hwlog, ⟨rfl, hstall⟩ | ⟨rfl, hout⟩⟩ :=
      hstart.runSurrogate_eq hA cfg mayStall
    · refine ⟨w, .stalled, ?_, hready.toSound.congr rfl, hstall, _, Or.inr rfl, hwlog.trans hmile⟩
      simp only [bind, Except.bind, hfeas, hw]
      rfl
    · by_cases h0 : P.objectiveValue w.values = 0
      · have hnext : (w.record .phaseOneFeasible).Ready P.surrogate := hready.of_eq rfl rfl rfl
        obtain ⟨t, ending, ht, hsound, hcon, hlog⟩ := hnext.runPhases_after_surrogate hA cfg mayStall hc
          hout.1 h0 phases
        refine ⟨t, ending, ?_, hsound, hcon, _, Or.inr rfl, ?_⟩
        · simp only [bind, Except.bind, hfeas, hw, h0, and_self, if_true]
          exact ht
        · exact hlog.trans ((logged_push w.log rfl).trans (hwlog.trans hmile))
      · refine ⟨w.record (.phaseOneFailed .optimal (P.objectiveValue w.values)), .verdict .unbounded,
          ?_, (hready.toSound.congr (Q := P) rfl).of_eq rfl rfl rfl, ?_, _, Or.inr rfl,
          (logged_push w.log rfl).trans (hwlog.trans hmile)⟩
        · simp only [bind, Except.bind, hfeas, hw, h0, and_false, if_false]
          rfl
        · exact ⟨hout.1, hready.of_eq rfl rfl rfl, hout, h0⟩

/-- The milestones of a solve: one run, or a run that stalls, one with perturbed costs, and one with
the true costs. -/
def SolveMilestones (es : List Event) : Prop :=
  RunMilestones es ∨ ∃ first second third, RunMilestones first ∧ RunMilestones second ∧
    RunMilestones third ∧ es = first ++ .costsPerturbed :: (second ++ third)

/-- After its first run a solve is at its end, or the run has stalled and is followed by one with perturbed
costs and one with the true costs. -/
theorem solve_of_run {t : State n m} {ending : Ending} (ht : run P cfg true s = .ok (t, ending))
    (hsound : t.Sound P) (hcon : Concludes P true t ending) :
    ∃ u v, solve P cfg s = .ok (u, v) ∧ u.Sound P ∧ Concludes P true u (.verdict v) ∧
      ∃ es, (es = [] ∨ ∃ second third, RunMilestones second ∧ RunMilestones third ∧
        es = .costsPerturbed :: (second ++ third)) ∧ milestones u.log = milestones t.log ++ es := by
  rw [solve, ht]
  cases ending with
  | verdict v => exact ⟨t, v, rfl, hsound, hcon, [], Or.inl rfl, (List.append_nil _).symm⟩
  | stalled =>
    have hper : (t.record .costsPerturbed).Sound (P.perturbed cfg.numbers) :=
      (hsound.congr (Q := P.perturbed cfg.numbers) rfl).of_eq rfl rfl rfl
    have hAper : (P.perturbed cfg.numbers).matrix.Simple := hA
    obtain ⟨u, _, hu, husound, _, es, hes, hulog⟩ := hper.run_eq hAper cfg false hc
    have hback : u.Sound P := husound.congr rfl
    obtain ⟨w, ending, hw, hwsound, hwcon, es', hes', hwlog⟩ := hback.run_eq hA cfg false hc
    have hmile : milestones w.log = milestones t.log ++ (.costsPerturbed :: (es ++ es')) := by
      have hrec : milestones (t.record .costsPerturbed).log = milestones t.log ++ [.costsPerturbed] :=
        logged_push_of t.log rfl
      rw [hwlog, hulog, hrec]
      simp
    cases ending with
    | stalled => cases hwcon
    | verdict v =>
      refine ⟨w, v, ?_, hwsound, ?_, _, Or.inr ⟨es, es', hes, hes', rfl⟩, hmile⟩
      · simp only [bind, Except.bind, hu, hw]
        rfl
      · cases v <;> exact hwcon

/-- A solve has a verdict. The costs are perturbed at most once. -/
theorem Sound.solve_eq (h : s.Sound P) :
    ∃ t v, solve P cfg s = .ok (t, v) ∧ t.Sound P ∧ Concludes P true t (.verdict v) ∧
      ∃ es, SolveMilestones es ∧ milestones t.log = milestones s.log ++ es := by
  obtain ⟨t, ending, ht, hsound, hcon, es, hes, hlog⟩ := h.run_eq hA cfg true hc
  obtain ⟨u, v, hu, husound, hucon, es', hes', hulog⟩ := solve_of_run hA cfg hc ht hsound hcon
  refine ⟨u, v, hu, husound, hucon, es ++ es', ?_, by rw [hulog, hlog, List.append_assoc]⟩
  rcases hes' with rfl | ⟨second, third, hsecond, hthird, rfl⟩
  · rw [List.append_nil]
    exact Or.inl hes
  · exact Or.inr ⟨es, second, third, hes, hsecond, hthird, rfl⟩

end Run

section Entry
variable {Q : Problem n m}

/-- Where a run enters its loop: at rest within the true bounds when that is dual feasible, or at rest
within the surrogate bounds of phase one. -/
inductive Entry (P : Problem n m) : Problem n m → State n m → Prop
  | main {s t : State n m} (hs : s.Sound P) (ht : comeToRest P s = .ok t)
      (hd : t.isDualFeasible P = true) : Entry P P t
  | phaseOne {s t : State n m} (hs : s.Sound P) (ht : comeToRest P.surrogate s = .ok t) :
      Entry P P.surrogate t

theorem Entry.ready {t : State n m} (h : Entry P Q t) (hA : P.matrix.Simple) : t.Ready Q := by
  cases h with
  | main hs ht hd =>
    obtain ⟨u, hu, hset, _⟩ := hs.comeToRest_eq hA.toMirrored
    cases hu.symm.trans ht
    exact (isDualFeasible_iff hset).mp hd
  | phaseOne hs ht =>
    have hs' := hs.congr (Q := P.surrogate) rfl
    obtain ⟨u, hu, hset, hcalm, _⟩ := hs'.comeToRest_eq hA.toMirrored
    cases hu.symm.trans ht
    exact hset.ready_surrogate hcalm

/-- A loop that is entered makes fewer passes than its allowance. -/
theorem Entry.length_lt {cfg : Config} {mayStall : Bool} {length : ℕ} {p : ℕ → Progress}
    {s : ℕ → State n m} (h : Entry P Q (s 0)) (hA : P.matrix.Simple)
    (hc : ∀ v, (P.bounds.get v).Consistent) (ht : Trace Q cfg mayStall length p s) :
    length < cfg.passAllowance n m := by
  have hready := h.ready hA
  cases h with
  | main => exact ht.length_lt hready hA hc
  | phaseOne => exact ht.length_lt hready hA (consistent_surrogate P)

end Entry

end State

end ExactSimplex
