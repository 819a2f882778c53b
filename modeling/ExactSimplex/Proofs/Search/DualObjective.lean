import ExactSimplex.Proofs.Certificate

/-! # The dual objective along the pivot row

A step along the pivot row changes the reduced costs. The dual objective is the least value of the form
with these costs over all bounds: every boxed variable is then at the end that its reduced cost wants, and
a reduced cost that pushes against a missing bound makes the objective minus infinity. As a function of
the step it is concave: with some candidates on their other sides it lies below a line, and it touches the
line where the candidates that have changed sides are those up to that step.
-/
namespace ExactSimplex
open Matrix
variable {n m : ℕ}

namespace Bounds
variable {b : Bounds} {d : ℚ}

theorem least?_eq_none_iff :
    b.least? d = none ↔ 0 < d ∧ b.lower = none ∨ d < 0 ∧ b.upper = none := by
  unfold least?
  rcases lt_trichotomy d 0 with hd | rfl | hd
  · simp [hd, hd.not_gt]
  · simp
  · simp [hd, hd.not_gt]

theorem Consistent.contains_of_get {side : Side} {x : ℚ} (hb : b.get side = some x) (hc : b.Consistent) :
    b.Contains x := by
  refine Rests.contains ?_ hc
  cases side with
  | lower => exact Or.inl hb
  | upper => exact Or.inr (Or.inl hb)

end Bounds

namespace Problem
variable {P : Problem n m}

theorem least?_eq_none_of {d : PerVar ℚ n m} {v : Var n m}
    (hv : (P.bounds.get v).least? (d.get v) = none) : P.least? d = none := by
  have hfold : ∀ (l : List (Var n m)) (a : ℚ), v ∈ l → l.foldlM (fun total v =>
      ((P.bounds.get v).least? (d.get v)).map fun t => total + t) a = none := by
    intro l
    induction l with
    | nil => exact fun a hl => absurd hl List.not_mem_nil
    | cons w l ih =>
      intro a hl
      rw [List.foldlM_cons]
      cases hw : (P.bounds.get w).least? (d.get w) with
      | none => rfl
      | some c =>
        refine ih _ ((List.mem_cons.mp hl).resolve_left ?_)
        rintro rfl
        cases hv.symm.trans hw
  exact hfold _ _ (Var.mem_all v)

/-- Where all variables agree with the reduced costs, the form with these costs is least, and its value
there is the objective value. -/
theorem Balanced.least?_eq {x d : PerVar ℚ n m} {y : Fin m → ℚ} (hx : P.Balanced x.get)
    (hy : ∀ v, P.reducedCost y v = d.get v) (hs : ∀ v, (P.bounds.get v).Supports (x.get v) (d.get v)) :
    P.least? d = some (P.objectiveValue x) := by
  rw [least?_of_supports hs, P.objectiveValue_eq_sum, hx.sum_cost_eq y]
  simp only [hy]

end Problem

namespace State
variable {P : Problem n m} {s t : State n m}

/-- The reduced costs of all variables after a step along the pivot row: the leaving variable gets one that
pushes towards the bound that it violates, and those of the other basic variables stay zero. -/
def stepped (s : State n m) (l : Leaving n m) (alphaRow : Vec n) (step : ℚ) : PerVar ℚ n m :=
  let reduced (v : Var n m) : ℚ :=
    match s.basis.place.get v with
    | .basic i => if i = l.row then -towards l.side step else 0
    | .nonbasic k => s.reduced.get k - step * towards l.side (alphaRow.get k)
  ⟨Vector.ofFn fun j => reduced (.structural j), Vector.ofFn fun i => reduced (.slack i)⟩

/-- The dual objective after a step along the pivot row. -/
def dualAt (P : Problem n m) (s : State n m) (l : Leaving n m) (alphaRow : Vec n) (step : ℚ) :
    WithBot ℚ :=
  P.least? (s.stepped l alphaRow step)

section Stepped
variable {l : Leaving n m} {alphaRow : Vec n} {step : ℚ}

theorem get_stepped (s : State n m) (l : Leaving n m) (alphaRow : Vec n) (step : ℚ) (v : Var n m) :
    (s.stepped l alphaRow step).get v = match s.basis.place.get v with
      | .basic i => if i = l.row then -towards l.side step else 0
      | .nonbasic k => s.reduced.get k - step * towards l.side (alphaRow.get k) := by
  cases v <;> simp [stepped, PerVar.get]

theorem get_stepped_basic (hb : s.basis.Valid) (i : Fin m) :
    (s.stepped l alphaRow step).get (s.basis.basic.get i) =
      if i = l.row then -towards l.side step else 0 := by
  rw [get_stepped, hb.place_basic]

theorem get_stepped_nonbasic (hb : s.basis.Valid) (k : Fin n) :
    (s.stepped l alphaRow step).get (s.basis.nonbasic.get k) =
      s.reduced.get k - step * towards l.side (alphaRow.get k) := by
  rw [get_stepped, hb.place_nonbasic]

/-- The reduced costs of a pivot are those after a step by the ratio of the entering position. -/
theorem Pivots.get_stepped {bland : Bool} {e : Entering n m} (hs : s.Sound P)
    (hrow : ∀ k, alphaRow.get k = P.tableau s.basis l.row k)
    (hp : Pivots P bland s.toPoint t.toPoint (s.moveOf P l e)) (v : Var n m) :
    (s.stepped l alphaRow (s.ratio l.side alphaRow e.position)).get v =
      t.basis.spread t.reduced v := by
  have hstep : (s.moveOf P l e).step = s.ratio l.side alphaRow e.position := by
    rw [ratio, towards_eq, hrow]
    rfl
  rw [hp.spread_eq, hstep]
  rcases hs.basis.basic_or_nonbasic v with ⟨i, rfl⟩ | ⟨k, rfl⟩
  · rw [get_stepped_basic hs.basis, hs.basis.spread_basic, moveOf_row_basic hs.isUnit, towards_eq]
    by_cases hi : i = l.row
    · rw [if_pos hi, if_pos hi.symm]
      ring
    · rw [if_neg hi, if_neg (Ne.symm hi)]
      ring
  · rw [get_stepped_nonbasic hs.basis, hs.basis.spread_nonbasic, moveOf_row_nonbasic, towards_eq, hrow]

end Stepped

theorem Ready.dualAt_zero (h : s.Ready P) (l : Leaving n m) (alphaRow : Vec n) :
    s.dualAt P l alphaRow 0 = P.objectiveValue s.values := by
  obtain ⟨y, hy⟩ := h.priced
  have hget : ∀ v, (s.stepped l alphaRow 0).get v = s.basis.spread s.reduced v := fun v => by
    rcases h.basis.basic_or_nonbasic v with ⟨i, rfl⟩ | ⟨k, rfl⟩
    · rw [get_stepped_basic h.basis, h.basis.spread_basic, towards_eq, mul_zero, neg_zero, ite_self]
    · rw [get_stepped_nonbasic h.basis, h.basis.spread_nonbasic, zero_mul, sub_zero]
  refine h.balanced.least?_eq (fun v => (hy v).trans (hget v).symm) fun v => ?_
  rw [hget]
  exact h.supports v

section Past
variable {b : Bounds} {x d a step : ℚ}

/-- Past the ratio of a candidate its reduced cost pushes it away from where it rests. -/
theorem past_ratio (hs : b.Supports x d) (he : isEligible b x a = true) (hlt : d / a < step)
    (ha : a ≠ 0) :
    (b.lower = none ∧ b.upper = none ∧ d - step * a ≠ 0) ∨
      (b.lower = some x ∧ b.upper ≠ some x ∧ d - step * a < 0) ∨
      (b.upper = some x ∧ b.lower ≠ some x ∧ 0 < d - step * a) := by
  rcases isEligible_iff.mp he with hfree | ⟨hl, hu, hpos⟩ | ⟨hu, hl, hneg⟩
  · refine Or.inl ⟨hfree.1, hfree.2, ?_⟩
    rw [eq_zero_of_free hs hfree, zero_div] at hlt
    rw [eq_zero_of_free hs hfree, zero_sub]
    exact neg_ne_zero.mpr (mul_ne_zero hlt.ne' ha)
  · exact Or.inr (Or.inl ⟨hl, hu, sub_neg.mpr ((div_lt_iff₀ hpos).mp hlt)⟩)
  · exact Or.inr (Or.inr ⟨hu, hl, sub_pos.mpr ((div_lt_iff_of_neg hneg).mp hlt)⟩)

theorem not_supports_past (hs : b.Supports x d) (he : isEligible b x a = true) (hlt : d / a < step)
    (ha : a ≠ 0) : ¬b.Supports x (d - step * a) := by
  intro hpast
  rcases past_ratio hs he hlt ha with ⟨hl, hu, hne⟩ | ⟨_, hu, hneg⟩ | ⟨_, hl, hpos⟩
  · exact hne (eq_zero_of_free hpast ⟨hl, hu⟩)
  · exact hu (hpast.2 hneg)
  · exact hl (hpast.1 hpos)

theorem least?_past (hs : b.Supports x d) (he : isEligible b x a = true) (hlt : d / a < step)
    (ha : a ≠ 0) (hbox : b.box? = none) : b.least? (d - step * a) = none := by
  refine Bounds.least?_eq_none_iff.mpr ?_
  rcases past_ratio hs he hlt ha with ⟨hl, hu, hne⟩ | ⟨hl, _, hneg⟩ | ⟨hu, _, hpos⟩
  · exact (lt_or_gt_of_ne hne).symm.imp (fun h => ⟨h, hl⟩) fun h => ⟨h, hu⟩
  · refine Or.inr ⟨hneg, (Bounds.box?_eq_none_iff.mp hbox).resolve_left ?_⟩
    rw [hl]
    exact Option.some_ne_none x
  · refine Or.inl ⟨hpos, (Bounds.box?_eq_none_iff.mp hbox).resolve_right ?_⟩
    rw [hu]
    exact Option.some_ne_none x

end Past

section Lines
variable {l : Leaving n m} {alphaRow : Vec n} {ks : List (Fin n)} {step : ℚ}

/-- The leaving variable at the bound that it violates, and some nonbasic variables on their other sides. -/
def restingAt (P : Problem n m) (s : State n m) (l : Leaving n m) (ks : List (Fin n)) (v : Var n m) : ℚ :=
  match s.basis.place.get v with
  | .basic i => if i = l.row then s.leavingTarget P l else 0
  | .nonbasic k => s.movedTo P ks k

/-- The violation that is left when candidates have changed sides. -/
def slope (P : Problem n m) (s : State n m) (l : Leaving n m) (alphaRow : Vec n) (ks : List (Fin n)) : ℚ :=
  l.side.sign * (s.values.get l.var - s.leavingTarget P l) - (ks.map (s.flipCost P alphaRow)).sum

/-- The line that is traced by the reduced costs when the variables stay where they are. -/
def line (P : Problem n m) (s : State n m) (l : Leaving n m) (alphaRow : Vec n) (ks : List (Fin n))
    (step : ℚ) : ℚ :=
  ∑ k, s.reduced.get k * s.movedTo P ks k + step * s.slope P l alphaRow ks

theorem restingAt_basic (hb : s.basis.Valid) (i : Fin m) : s.restingAt P l ks (s.basis.basic.get i) =
    if i = l.row then s.leavingTarget P l else 0 := by
  rw [restingAt, hb.place_basic]

theorem restingAt_nonbasic (hb : s.basis.Valid) (k : Fin n) :
    s.restingAt P l ks (s.basis.nonbasic.get k) = s.movedTo P ks k := by
  rw [restingAt, hb.place_nonbasic]

/-- The equation of the pivot row in a balanced point. -/
theorem Sound.sign_mul_leaving (h : s.Sound P) (hl : s.Leaves P l)
    (hrow : ∀ k, alphaRow.get k = P.tableau s.basis l.row k) {z : Var n m → ℚ} (hz : P.Balanced z) :
    l.side.sign * z l.var =
      -∑ k, towards l.side (alphaRow.get k) * z (s.basis.nonbasic.get k) := by
  rw [← hl.var_eq, hz.basic_eq h.basis h.isUnit, mul_neg, Finset.mul_sum]
  refine congrArg _ (Finset.sum_congr rfl fun k _ => ?_)
  rw [towards_eq, hrow, Problem.tableau, mul_assoc]

variable (h : s.Ready P) (hc : ∀ v, (P.bounds.get v).Consistent) (hl : s.Leaves P l)
  (hrow : ∀ k, alphaRow.get k = P.tableau s.basis l.row k)
include h hc hl hrow

theorem Ready.sum_stepped (hks : ∀ k ∈ ks, CanFlip P s l.side alphaRow k) (hnodup : ks.Nodup) :
    ∑ v, (s.stepped l alphaRow step).get v * s.restingAt P l ks v = s.line P l alphaRow ks step := by
  have hbasic : ∑ i, (s.stepped l alphaRow step).get (s.basis.basic.get i) *
      s.restingAt P l ks (s.basis.basic.get i) = -(step * (l.side.sign * s.leavingTarget P l)) := by
    rw [Finset.sum_eq_single l.row (fun i _ hi => by
      rw [get_stepped_basic h.basis, if_neg hi, zero_mul]) fun hn => absurd (Finset.mem_univ _) hn,
      get_stepped_basic h.basis, restingAt_basic h.basis, if_pos rfl, if_pos rfl, towards_eq]
    ring
  have hnonbasic : ∑ k, (s.stepped l alphaRow step).get (s.basis.nonbasic.get k) *
      s.restingAt P l ks (s.basis.nonbasic.get k) = ∑ k, s.reduced.get k * s.movedTo P ks k -
        step * ∑ k, towards l.side (alphaRow.get k) * s.movedTo P ks k := by
    rw [Finset.mul_sum, ← Finset.sum_sub_distrib]
    refine Finset.sum_congr rfl fun k _ => ?_
    rw [get_stepped_nonbasic h.basis, restingAt_nonbasic h.basis]
    ring
  have hrest := h.toSound.sign_mul_leaving hl hrow h.balanced
  have hmoved := h.sum_movedTo hc hks hnodup
  simp only [mul_sub, Finset.sum_sub_distrib] at hmoved
  rw [h.basis.sum_eq, hbasic, hnonbasic, line, slope, ← hmoved, mul_sub l.side.sign, hrest]
  ring

/-- The dual objective is below every line. -/
theorem Ready.dualAt_le_line (hks : ∀ k ∈ ks, CanFlip P s l.side alphaRow k) (hnodup : ks.Nodup)
    (step : ℚ) : s.dualAt P l alphaRow step ≤ s.line P l alphaRow ks step := by
  unfold dualAt
  cases hleast : P.least? (s.stepped l alphaRow step) with
  | none => exact bot_le
  | some least =>
    refine WithBot.coe_le_coe.mpr ?_
    rw [← h.sum_stepped hc hl hrow hks hnodup]
    refine Problem.least?_le hleast fun v hv => ?_
    rcases h.basis.basic_or_nonbasic v with ⟨i, rfl⟩ | ⟨k, rfl⟩
    · rw [get_stepped_basic h.basis] at hv
      have hi : i = l.row := by
        by_contra hi
        exact hv (if_neg hi)
      rw [restingAt_basic h.basis, if_pos hi, hi, hl.var_eq]
      exact Bounds.Consistent.contains_of_get hl.bound_eq (hc l.var)
    · rw [restingAt_nonbasic h.basis]
      exact (h.rests_movedTo hc hks k).contains (hc _)

/-- The dual objective touches the line of the candidates up to a step there. -/
theorem Ready.dualAt_eq_line (hks : ∀ k ∈ ks, CanFlip P s l.side alphaRow k) (hnodup : ks.Nodup)
    (hstep : 0 ≤ step) (hle : ∀ k ∈ ks, s.ratio l.side alphaRow k ≤ step)
    (hge : ∀ k, Candidate P s l.side alphaRow k → k ∉ ks → step ≤ s.ratio l.side alphaRow k) :
    s.dualAt P l alphaRow step = s.line P l alphaRow ks step := by
  unfold dualAt
  rw [← h.sum_stepped hc hl hrow hks hnodup]
  refine Problem.least?_of_supports fun v => ?_
  rcases h.basis.basic_or_nonbasic v with ⟨i, rfl⟩ | ⟨k, rfl⟩
  · rw [get_stepped_basic h.basis, restingAt_basic h.basis]
    by_cases hi : i = l.row
    · rw [if_pos hi, if_pos hi, hi, hl.var_eq, towards_eq, mul_comm]
      exact Bounds.supports_of_get hl.bound_eq hstep
    · rw [if_neg hi, if_neg hi]
      exact Bounds.supports_zero
  · rw [get_stepped_nonbasic h.basis, restingAt_nonbasic h.basis]
    exact h.supports_movedTo hc hks hstep hle hge k

end Lines

end State

end ExactSimplex
