import ExactSimplex.Proofs.Iterates
import ExactSimplex.Proofs.Search.DualObjective

/-! # The ratio test makes the best step

The walk along the sorted candidates ends where the dual objective stops growing. Up to there the flips
leave something of the violation, so the objective lies below a line that rises to the entering candidate.
Past it the objective is minus infinity if that candidate has no other end, and else, with that candidate
flipped too, below a line that falls.
-/
namespace ExactSimplex
variable {n m : ℕ}

namespace State
variable {P : Problem n m} {s t : State n m} {l : Leaving n m} {alphaRow : Vec n} {step : ℚ}
  {e : Entering n m} {passed later : List (Fin n)}

/-- Past the ratio of a candidate without another end. -/
theorem Ready.dualAt_past (h : s.Ready P) {k : Fin n} (hk : Candidate P s l.side alphaRow k)
    (hbox : (P.bounds.get (s.basis.nonbasic.get k)).box? = none)
    (hlt : s.ratio l.side alphaRow k < step) : s.dualAt P l alphaRow step = ⊥ := by
  refine Problem.least?_eq_none_of (v := s.basis.nonbasic.get k) ?_
  rw [get_stepped_nonbasic h.basis]
  exact least?_past (h.supports_nonbasic k) hk.2 hlt hk.1 hbox

theorem flipCost_nonneg (hc : ∀ v, (P.bounds.get v).Consistent) (s : State n m) (alphaRow : Vec n)
    (k : Fin n) : 0 ≤ s.flipCost P alphaRow k := by
  unfold flipCost
  split
  · next lower upper hb =>
    obtain ⟨hlow, hupp⟩ := Bounds.box?_eq_some_iff.mp hb
    exact mul_nonneg (sub_nonneg.mpr (hc _ lower upper hlow hupp)) Rat.abs_nonneg
  · exact le_rfl

theorem CanFlip.flipOf_eq {side : Side} {k : Fin n} (hk : CanFlip P s side alphaRow k) :
    s.flipOf P k = [(s.basis.nonbasic.get k,
      flipChange (P.bounds.get (s.basis.nonbasic.get k)) (s.values.get (s.basis.nonbasic.get k)))] := by
  obtain ⟨hcand, ⟨lower, upper⟩, hb⟩ := hk
  refine if_neg ?_
  obtain ⟨hne, ⟨_, _, hchange⟩ | ⟨_, _, hchange⟩⟩ := flipChange_cases hb hcand.2
  · rw [hchange]
    exact sub_ne_zero.mpr hne.symm
  · rw [hchange]
    exact sub_ne_zero.mpr hne

namespace Selects
variable {side : Side} {distance : ℚ} (hs : Selects P s side alphaRow distance e passed later)
include hs

theorem candidate : Candidate P s side alphaRow e.position :=
  (hs.mem_iff _).mp (hs.passes hs.sorted).position_mem

theorem canFlip : ∀ k ∈ passed, CanFlip P s side alphaRow k :=
  fun k hk => ⟨(hs.mem_iff k).mp (List.mem_append_left later hk), hs.boxed k hk⟩

theorem nodup_passed : passed.Nodup := (List.nodup_append.mp hs.nodup).1

theorem le_ratio {k : Fin n} (hk : Candidate P s side alphaRow k) (hn : k ∉ passed) :
    s.ratio side alphaRow e.position ≤ s.ratio side alphaRow k :=
  (hs.passes hs.sorted).ge k ((List.mem_append.mp ((hs.mem_iff k).mpr hk)).resolve_left hn)

/-- Every candidate that is passed is flipped. -/
theorem flips_eq_map : e.flips = passed.map fun k => (s.basis.nonbasic.get k,
    flipChange (P.bounds.get (s.basis.nonbasic.get k)) (s.values.get (s.basis.nonbasic.get k))) := by
  rw [hs.flips_eq, List.map_eq_flatMap]
  exact List.flatMap_congr fun k hk => (hs.canFlip k hk).flipOf_eq

end Selects

/-- The flips leave something of the violation, or nothing. -/
theorem Leaves.slope_nonneg (hl : s.Leaves P l)
    (hs : Selects P s l.side alphaRow (s.leavingTarget P l - s.values.get l.var).abs e passed later) :
    0 ≤ s.slope P l alphaRow passed := by
  rw [slope, ← hl.abs_sub_eq]
  exact sub_nonneg.mpr hs.cost_le

section Best
variable (h : s.Ready P) (hc : ∀ v, (P.bounds.get v).Consistent) (hl : s.Leaves P l)
  (hrow : ∀ k, alphaRow.get k = P.tableau s.basis l.row k)
  (hs : Selects P s l.side alphaRow (s.leavingTarget P l - s.values.get l.var).abs e passed later)
include h hc hl hrow

theorem Ready.dualAt_eq_bot_iff (hstep : 0 ≤ step) : s.dualAt P l alphaRow step = ⊥ ↔
    ∃ k, Candidate P s l.side alphaRow k ∧ (P.bounds.get (s.basis.nonbasic.get k)).box? = none ∧
      s.ratio l.side alphaRow k < step := by
  classical
  refine ⟨fun hbot => ?_, fun ⟨k, hk, hbox, hlt⟩ => h.dualAt_past hk hbox hlt⟩
  by_contra hnone
  push Not at hnone
  let ks := (List.finRange n).filter fun k =>
    decide (CanFlip P s l.side alphaRow k ∧ s.ratio l.side alphaRow k ≤ step)
  have hks : ∀ k, k ∈ ks ↔ CanFlip P s l.side alphaRow k ∧ s.ratio l.side alphaRow k ≤ step := by
    simp [ks]
  have hflip : ∀ k ∈ ks, CanFlip P s l.side alphaRow k := fun k hk => ((hks k).mp hk).1
  have hline := h.dualAt_eq_line hc hl hrow hflip ((List.nodup_finRange n).filter _) hstep
    (fun k hk => ((hks k).mp hk).2) fun k hk hn => by
      cases hb : (P.bounds.get (s.basis.nonbasic.get k)).box? with
      | none => exact hnone k hk hb
      | some box => exact (not_le.mp fun hle => hn ((hks k).mpr ⟨⟨hk, box, hb⟩, hle⟩)).le
  rw [hline] at hbot
  exact WithBot.coe_ne_bot hbot

include hs

theorem Ready.dualAt_selected : s.dualAt P l alphaRow (s.ratio l.side alphaRow e.position) =
    s.line P l alphaRow passed (s.ratio l.side alphaRow e.position) :=
  h.dualAt_eq_line hc hl hrow hs.canFlip hs.nodup_passed (h.ratio_nonneg hs.candidate)
    (hs.passes hs.sorted).le fun _ hk hn => hs.le_ratio hk hn

/-- No candidate has a ratio at which the dual objective is greater. -/
theorem Ready.dualAt_le_selected {k : Fin n} (hk : Candidate P s l.side alphaRow k) :
    s.dualAt P l alphaRow (s.ratio l.side alphaRow k) ≤
      s.dualAt P l alphaRow (s.ratio l.side alphaRow e.position) := by
  rcases le_or_gt (s.ratio l.side alphaRow k) (s.ratio l.side alphaRow e.position) with hle | hlt
  · rw [h.dualAt_selected hc hl hrow hs]
    refine (h.dualAt_le_line hc hl hrow hs.canFlip hs.nodup_passed _).trans (WithBot.coe_le_coe.mpr ?_)
    exact add_le_add_right (mul_le_mul_of_nonneg_right hle (hl.slope_nonneg hs)) _
  · cases hb : (P.bounds.get (s.basis.nonbasic.get e.position)).box? with
    | none =>
      rw [h.dualAt_past hs.candidate hb hlt]
      exact bot_le
    | some box =>
      rcases hs.ends with ⟨rest, rfl, hnone | hcost⟩ | ⟨rfl, _⟩
      · cases hb.symm.trans hnone
      · -- With the entering candidate flipped too, the variables still agree with the reduced costs there.
        have hks : ∀ j ∈ passed ++ [e.position], CanFlip P s l.side alphaRow j := fun j hj => by
          rcases List.mem_append.mp hj with hj | hj
          · exact hs.canFlip j hj
          · rw [List.mem_singleton.mp hj]
            exact ⟨hs.candidate, box, hb⟩
        have hnodup : (passed ++ [e.position]).Nodup := hs.nodup.sublist
          (List.Sublist.append_left (List.singleton_sublist.mpr List.mem_cons_self) passed)
        have hstar := h.dualAt_eq_line hc hl hrow hks hnodup (h.ratio_nonneg hs.candidate)
          (fun j hj => by
            rcases List.mem_append.mp hj with hj | hj
            · exact (hs.passes hs.sorted).le j hj
            · rw [List.mem_singleton.mp hj])
          fun j hj hn => hs.le_ratio hj fun hm => hn (List.mem_append_left _ hm)
        have hfalls : s.slope P l alphaRow (passed ++ [e.position]) ≤ 0 := by
          rw [slope, ← hl.abs_sub_eq, List.map_append, List.sum_append, List.map_singleton,
            List.sum_singleton]
          exact sub_nonpos.mpr hcost.le
        rw [hstar]
        refine (h.dualAt_le_line hc hl hrow hks hnodup _).trans (WithBot.coe_le_coe.mpr ?_)
        exact add_le_add_right (mul_le_mul_of_nonpos_right hlt.le hfalls) _
      · have hmem := (hs.mem_iff k).mpr hk
        rw [List.append_nil] at hmem
        exact absurd ((hs.passes hs.sorted).le k hmem) (not_le.mpr hlt)

end Best

/-- What a ratio test has to choose: a step after which the dual objective is as great as after the step of
any candidate, and flips that leave the leaving variable on the side where it is. -/
structure BestStep (P : Problem n m) (s : State n m) (l : Leaving n m) (alphaRow : Vec n)
    (e : Entering n m) : Prop where
  candidate : Candidate P s l.side alphaRow e.position
  finite : s.dualAt P l alphaRow (s.ratio l.side alphaRow e.position) ≠ ⊥
  best : ∀ k, Candidate P s l.side alphaRow k → s.dualAt P l alphaRow (s.ratio l.side alphaRow k) ≤
    s.dualAt P l alphaRow (s.ratio l.side alphaRow e.position)
  boxed : ∀ f ∈ e.flips, s.basis.isBasic f.1 = false ∧ ∃ lower upper,
    (P.bounds.get f.1).box? = some (lower, upper) ∧
      (s.values.get f.1 = lower ∧ f.2 = upper - lower ∨ s.values.get f.1 = upper ∧ f.2 = lower - upper)
  once : (e.flips.map Prod.fst).Nodup
  bounded : ∑ k, |alphaRow.get k| * |totalChange e.flips (s.basis.nonbasic.get k)| ≤
    l.side.sign * (s.values.get l.var - s.leavingTarget P l)
  kept : ∃ x, s.applyFlips P e.flips = some x ∧ 0 ≤ l.side.sign * (x.get l.var - s.leavingTarget P l)
  flipped : ∀ k, Candidate P s l.side alphaRow k →
    s.ratio l.side alphaRow k < s.ratio l.side alphaRow e.position →
    ∃ change, (s.basis.nonbasic.get k, change) ∈ e.flips

section Flips
variable (h : s.Ready P) (hc : ∀ v, (P.bounds.get v).Consistent) (hl : s.Leaves P l)
  (hrow : ∀ k, alphaRow.get k = P.tableau s.basis l.row k)
  (hs : Selects P s l.side alphaRow (s.leavingTarget P l - s.values.get l.var).abs e passed later)
include h hc hs

theorem Ready.towards_mul_change (k : Fin n) :
    towards l.side (alphaRow.get k) * totalChange e.flips (s.basis.nonbasic.get k) =
      if k ∈ passed then s.flipCost P alphaRow k else 0 := by
  rw [← (h.mul_movedTo hc hs.canFlip k).2,
    ← (hs.passes hs.sorted).add_totalChange h.basis hs.nodup_passed k, add_sub_cancel_left]

/-- How far the flips move the leaving variable. -/
theorem Ready.sum_towards_mul_change :
    ∑ k, towards l.side (alphaRow.get k) * totalChange e.flips (s.basis.nonbasic.get k) =
      (passed.map (s.flipCost P alphaRow)).sum := by
  rw [← h.sum_movedTo hc hs.canFlip hs.nodup_passed]
  refine Finset.sum_congr rfl fun k _ => ?_
  rw [← (hs.passes hs.sorted).add_totalChange h.basis hs.nodup_passed k, add_sub_cancel_left]

theorem Ready.abs_mul_change (k : Fin n) :
    |alphaRow.get k| * |totalChange e.flips (s.basis.nonbasic.get k)| =
      towards l.side (alphaRow.get k) * totalChange e.flips (s.basis.nonbasic.get k) := by
  have hnonneg : 0 ≤ towards l.side (alphaRow.get k) *
      totalChange e.flips (s.basis.nonbasic.get k) := by
    rw [h.towards_mul_change hc hs]
    split
    · exact flipCost_nonneg hc s alphaRow k
    · exact le_rfl
  have habs : |towards l.side (alphaRow.get k)| = |alphaRow.get k| := by
    cases l.side with
    | lower => exact abs_neg _
    | upper => rfl
  rw [← habs, ← abs_mul, abs_of_nonneg hnonneg]

include hl hrow

/-- After the flips the leaving variable is still outside of its bounds, or at the violated one. -/
theorem Ready.exists_applyFlips (hA : P.matrix.Mirrored) : ∃ x, s.applyFlips P e.flips = some x ∧
    0 ≤ l.side.sign * (x.get l.var - s.leavingTarget P l) := by
  obtain ⟨x, hx, hbalanced, hmoved⟩ := applyFlips_eq h.toSound hA h.balanced e.flips
  refine ⟨x, hx, ?_⟩
  have hbefore := h.toSound.sign_mul_leaving hl hrow h.balanced
  have hafter := h.toSound.sign_mul_leaving hl hrow hbalanced
  simp only [hmoved _ (h.basis.isBasic_nonbasic _), mul_add, Finset.sum_add_distrib,
    h.sum_towards_mul_change hc hs] at hafter
  have hslope := hl.slope_nonneg hs
  rw [slope, mul_sub, hbefore] at hslope
  rw [mul_sub, hafter]
  linarith

theorem Ready.bestStep (hA : P.matrix.Mirrored) : BestStep P s l alphaRow e where
  candidate := hs.candidate
  finite := by
    rw [h.dualAt_selected hc hl hrow hs]
    exact WithBot.coe_ne_bot
  best _ hk := h.dualAt_le_selected hc hl hrow hs hk
  boxed f hf := by
    rw [hs.flips_eq_map] at hf
    obtain ⟨k, hk, rfl⟩ := List.mem_map.mp hf
    obtain ⟨hcand, ⟨lower, upper⟩, hb⟩ := hs.canFlip k hk
    obtain ⟨_, hends⟩ := flipChange_cases hb hcand.2
    exact ⟨h.basis.isBasic_nonbasic k, lower, upper, hb,
      hends.imp (fun hend => ⟨hend.1, hend.2.2⟩) fun hend => ⟨hend.1, hend.2.2⟩⟩
  once := by
    rw [hs.flips_eq_map, List.map_map]
    exact hs.nodup_passed.map h.basis.nonbasic_injective
  bounded := by
    simp only [h.abs_mul_change hc hs]
    rw [h.sum_towards_mul_change hc hs, ← hl.abs_sub_eq]
    exact hs.cost_le
  kept := h.exists_applyFlips hc hl hrow hs hA
  flipped k hk hlt := by
    have hpassed : k ∈ passed := by_contra fun hn => absurd (hs.le_ratio hk hn) (not_le.mpr hlt)
    rw [hs.flips_eq_map]
    exact ⟨_, List.mem_map_of_mem hpassed⟩

end Flips

/-- No candidate is found exactly if all steps keep the nonbasic variables where they are. -/
theorem Ready.chooseEntering_eq_none_iff (h : s.Ready P) (hc : ∀ v, (P.bounds.get v).Consistent)
    (l : Leaving n m) (alphaRow : Vec n) (bland : Bool) : s.chooseEntering P bland l alphaRow = none ↔
      ∀ step, 0 ≤ step → ∀ v, s.basis.isBasic v = false →
        agrees (P.bounds.get v) (s.values.get v) ((s.stepped l alphaRow step).get v) = true := by
  constructor
  · intro hnone step hstep v hv
    obtain ⟨k, rfl⟩ := h.basis.isBasic_eq_false_iff.mp hv
    rcases h.chooseEntering_cases hc bland l alphaRow with ⟨_, hblocked⟩ | ⟨e, he, _⟩
    · have hk := hblocked k
      rw [Candidate, not_and_or, not_not, Bool.not_eq_true] at hk
      rw [agrees_iff (h.rests_nonbasic k), get_stepped_nonbasic h.basis]
      exact supports_step_of_blocked (h.rests_nonbasic k) (h.supports_nonbasic k) hstep hk
    · cases hnone.symm.trans he
  · intro hagrees
    rcases h.chooseEntering_cases hc bland l alphaRow with ⟨hnone, _⟩ | ⟨e, _, henters⟩
    · exact hnone
    · have hk := henters.candidate
      have hratio := h.ratio_nonneg hk
      have hpast := hagrees (s.ratio l.side alphaRow e.position + 1) (by linarith)
        (s.basis.nonbasic.get e.position) (h.basis.isBasic_nonbasic _)
      rw [agrees_iff (h.rests_nonbasic _), get_stepped_nonbasic h.basis] at hpast
      exact absurd hpast (not_supports_past (h.supports_nonbasic _) hk.2 (lt_add_one _) hk.1)

section Pivot
variable {cfg : Config} {p p' : Progress}

theorem values_of_refactor (hr : s.refactor P cfg = .ok t) : t.values = s.values := by
  unfold refactor at hr
  split at hr
  · next next hnext =>
    cases hr
    obtain ⟨_, _, hr⟩ := exists_of_bind_eq_ok hnext
    cases hr
    rfl
  · cases hr

theorem values_of_renewFactors {r : Fin m} {column : Vec m}
    (hr : s.renewFactors P cfg r column = .ok t) : t.values = s.values := by
  unfold renewFactors at hr
  split at hr
  · exact values_of_refactor hr
  · split at hr
    · cases hr
      rfl
    · next cause _ => exact values_of_refactor (s := s.record (.updateRefused cause)) hr
    · cases hr

theorem values_of_renewWeights {iterations : ℕ} (hr : s.renewWeights cfg iterations = .ok t) :
    t.values = s.values := by
  unfold renewWeights at hr
  split at hr
  · obtain ⟨_, _, hr⟩ := exists_of_bind_eq_ok hr
    cases hr
    rfl
  · cases hr
    rfl

/-- The values that an exchange gives, for the reduced costs after a step by the ratio of the entering
position. -/
theorem Ready.dualAt_of_exchanged (h : s.Ready P) (hl : s.Leaves P l)
    (hrow : ∀ k, alphaRow.get k = P.tableau s.basis l.row k) {bland : Bool}
    (he : Enters P s l.side alphaRow (s.leavingTarget P l - s.values.get l.var).abs bland e)
    (ht : Exchanged P s t l e) :
    s.dualAt P l alphaRow (s.ratio l.side alphaRow e.position) = P.objectiveValue t.values := by
  -- which variable leaves does not matter here, so the pivot is taken for one by any rule
  have hp := h.pivots_of_exchanged hl hrow he.relaxed (fun hb => by cases hb) ht
    ⟨rfl, fun _ => rfl, fun _ => rfl⟩
  have hbasis : t.basis.Valid := by
    rw [ht.basis_eq]
    exact h.basis.exchange l.row e.position
  obtain ⟨y, hy⟩ := hp.priced h
  refine ht.balanced.least?_eq (fun v => (hy v).trans (hp.get_stepped h.toSound hrow v).symm) fun v => ?_
  rw [hp.get_stepped h.toSound hrow]
  exact hp.supports_next h hbasis v

/-- A pivot that hands over has found a variable that enters, and the objective value after it is the dual
objective at the ratio of that variable. -/
theorem Ready.dualAt_of_pivot (h : s.Ready P) (hA : P.matrix.Mirrored)
    (hc : ∀ v, (P.bounds.get v).Consistent) (hl : s.Leaves P l) {rho : Vec m}
    (hrho : s.factors.solveTransposed (Vec.unit l.row) = some rho)
    (hp : s.pivot P cfg p l = .ok (t, .next p')) :
    ∃ e, s.chooseEntering P p.bland l (P.nonbasicProduct s.basis.place rho) = some e ∧
      s.dualAt P l (P.nonbasicProduct s.basis.place rho)
        (s.ratio l.side (P.nonbasicProduct s.basis.place rho) e.position) =
          P.objectiveValue t.values := by
  obtain ⟨rho', hrho', hget, hrow⟩ := h.pivotRow_eq l.row
  cases hrho'.symm.trans hrho
  obtain ⟨_, hdivided, hp⟩ := exists_of_bind_eq_ok hp
  cases (eq_some_of_divided hdivided).symm.trans hrho
  dsimp only at hp
  cases he : s.chooseEntering P p.bland l (P.nonbasicProduct s.basis.place rho) with
  | none =>
    rw [he] at hp
    cases hp
  | some e =>
    rw [he] at hp
    have henters := h.enters_of_chooseEntering hc he
    obtain ⟨alphaColumn, hcol, hB⟩ := h.pivotColumn_eq hA e.position
    obtain ⟨_, hdivided, hp⟩ := exists_of_bind_eq_ok hp
    cases (eq_some_of_divided hdivided).symm.trans hcol
    obtain ⟨u, hdivided, hp⟩ := exists_of_bind_eq_ok hp
    obtain ⟨w, hw, hp⟩ := exists_of_bind_eq_ok hp
    obtain ⟨t, ht, hp⟩ := exists_of_bind_eq_ok hp
    cases hp
    -- the exchange is made with one more event in the log
    have h' := h.of_noted ((Noted.refl s).record (e := .enters (s.basis.nonbasic.get e.position).index
      e.flips.length) rfl)
    have hex := eq_some_of_divided hdivided
    obtain ⟨u', hu', hexchanged⟩ := h'.toSound.exchange_eq hA h'.balanced (l := l) hl.var_eq e hget hrow
      hB (henters.tableau_ne_zero hrow)
    cases hu'.symm.trans hex
    have hvalues : t.values = u.values :=
      (values_of_renewWeights ht).trans (values_of_renewFactors hw)
    rw [hvalues]
    exact ⟨e, rfl, h.dualAt_of_exchanged hl hrow henters (hexchanged.of_record rfl)⟩

/-- Where the ratio test finds a variable, no step of a pivot fails, by either rule. -/
theorem Ready.pivot_hands_over (h : s.Ready P) (hA : P.matrix.Simple)
    (hc : ∀ v, (P.bounds.get v).Consistent) (cfg : Config) (p : Progress) (hl : s.Leaves P l)
    {rho : Vec m} (hrho : s.factors.solveTransposed (Vec.unit l.row) = some rho)
    (he : s.chooseEntering P false l (P.nonbasicProduct s.basis.place rho) = some e) :
    ∃ t p', s.pivot P cfg p l = .ok (t, .next p') := by
  -- the other rule finds a variable too: that there is a candidate does not depend on the rule
  rcases h.chooseEntering_cases hc p.bland l (P.nonbasicProduct s.basis.place rho) with
    ⟨_, hblocked⟩ | ⟨_, he', _⟩
  · exact absurd (h.enters_of_chooseEntering hc he).candidate (hblocked e.position)
  · obtain ⟨t, _, ht, _⟩ := h.pivot_exchanges hA hc cfg p hl hrho he'
    exact ⟨t, _, ht⟩

/-- A pivot by any rule raises the objective value at most as far as one with the best step. -/
theorem Ready.objectiveValue_le_of_bestStep (h : s.Ready P) (hA : P.matrix.Mirrored)
    (hc : ∀ v, (P.bounds.get v).Consistent) (hl : s.Leaves P l) {rho : Vec m}
    (hrho : s.factors.solveTransposed (Vec.unit l.row) = some rho)
    (hbest : BestStep P s l (P.nonbasicProduct s.basis.place rho) e)
    (he : s.chooseEntering P p.bland l (P.nonbasicProduct s.basis.place rho) = some e)
    (ht : s.pivot P cfg p l = .ok (t, .next p')) {cfg' : Config} {q q' : Progress} {u : State n m}
    (hu : s.pivot P cfg' q l = .ok (u, .next q')) :
    P.objectiveValue u.values ≤ P.objectiveValue t.values := by
  obtain ⟨_, he', hbest'⟩ := h.dualAt_of_pivot hA hc hl hrho ht
  cases he'.symm.trans he
  obtain ⟨_, hother, hobjective⟩ := h.dualAt_of_pivot hA hc hl hrho hu
  have hle := hbest.best _ (h.enters_of_chooseEntering hc hother).candidate
  rw [hbest', hobjective] at hle
  exact WithBot.coe_le_coe.mp hle

end Pivot

/-- The ratio test that flips bounds makes the best step along the pivot row, for every variable that
leaves, and so a pivot by it raises the objective value at least as far as a pivot by Bland's rule. It
finds no variable exactly if no step gives a reduced cost that disagrees with where its variable rests.
Bounds that contradict each other are refused before any search. -/
theorem Settled.ratio_test_best (h : s.Settled P) (hd : s.isDualFeasible P = true)
    (hc : P.contradictory? = none) (hA : P.matrix.Mirrored) (hl : s.Leaves P l) :
    ∃ rho alphaRow, s.factors.solveTransposed (Vec.unit l.row) = some rho ∧
      P.nonbasicProduct s.basis.place rho = alphaRow ∧
      s.dualAt P l alphaRow 0 = P.objectiveValue s.values ∧
      (∀ step, 0 ≤ step → (s.dualAt P l alphaRow step = ⊥ ↔
        ∃ k, Candidate P s l.side alphaRow k ∧
          (P.bounds.get (s.basis.nonbasic.get k)).box? = none ∧ s.ratio l.side alphaRow k < step)) ∧
      (∀ e, s.chooseEntering P false l alphaRow = some e → BestStep P s l alphaRow e ∧
        (P.matrix.Simple → ∀ cfg p, ∃ t p', s.pivot P cfg p l = .ok (t, .next p')) ∧
        ∀ cfg cfg' p q t u p' q', p.bland = false → q.bland = true →
          s.pivot P cfg p l = .ok (t, .next p') → s.pivot P cfg' q l = .ok (u, .next q') →
          P.objectiveValue u.values ≤ P.objectiveValue t.values) ∧
      (s.chooseEntering P false l alphaRow = none ↔
        ∀ step, 0 ≤ step → ∀ v, s.basis.isBasic v = false →
          agrees (P.bounds.get v) (s.values.get v) ((s.stepped l alphaRow step).get v) = true) := by
  have hr := (isDualFeasible_iff h).mp hd
  have hcon := Problem.contradictory?_eq_none_iff.mp hc
  obtain ⟨rho, hrho, _, hrow⟩ := hr.pivotRow_eq l.row
  refine ⟨rho, _, hrho, rfl, hr.dualAt_zero l _,
    fun step hstep => hr.dualAt_eq_bot_iff hcon hl hrow hstep, fun e he => ?_,
    hr.chooseEntering_eq_none_iff hcon l _ false⟩
  have hdistance : 0 ≤ (s.leavingTarget P l - s.values.get l.var).abs := Rat.abs_nonneg
  rcases passCandidates_selects P s l.side (P.nonbasicProduct s.basis.place rho) hdistance with
    ⟨hnone, _⟩ | ⟨e', passed, later, he', hs⟩
  · cases hnone.symm.trans he
  · cases he'.symm.trans he
    have hbest := hr.bestStep hcon hl hrow hs hA
    refine ⟨hbest, fun hsimple cfg p => hr.pivot_hands_over hsimple hcon cfg p hl hrho he, ?_⟩
    intro cfg cfg' p q t u p' q' hp _ ht hu
    rw [← hp] at he
    exact hr.objectiveValue_le_of_bestStep hA hcon hl hrho hbest he ht hu

end State

namespace Session

/-- A row that asks for four units: the cheapest variable is flipped, the next one makes up for the rest.
By Bland's rule the cheapest variable would have entered and gone past its upper bound. -/
theorem ratio_test_best_of_cheapest_flipped :
    ∃ first : Session, ∃ Q u l rho alphaRow e t p' v q',
      create {} (.ofRowList (n := 3) [[(0, 1), (1, 1), (2, 1)]]) [1, 3, 5]
        [some 4] [none] [some 0, some 0, some 0] [some 3, some 2, some 5] = .ok first ∧
      first.solver.Visits Q u ∧ u.Leaves Q l ∧
      u.factors.solveTransposed (Vec.unit l.row) = some rho ∧
      Q.nonbasicProduct u.basis.place rho = alphaRow ∧
      u.chooseEntering Q false l alphaRow = some e ∧ State.BestStep Q u l alphaRow e ∧
      (u.basis.nonbasic.get e.position).index = 1 ∧
      e.flips.map (fun f => (f.1.index, f.2)) = [(0, 3)] ∧
      u.pivot Q first.solver.config {} l = .ok (t, .next p') ∧
      u.pivot Q first.solver.config { bland := true } l = .ok (v, .next q') ∧
      Q.objectiveValue v.values = 4 ∧ Q.objectiveValue t.values = 6 ∧
      Q.objectiveValue v.values ≤ Q.objectiveValue t.values := by
  have hrun : (create {} (.ofRowList (n := 3) [[(0, 1), (1, 1), (2, 1)]]) [1, 3, 5]
      [some 4] [none] [some 0, some 0, some 0] [some 3, some 2, some 5]).toOption.any
      (fun first => decide first.solver.problem.matrix.Distinct && (first.solver.firstTop? 0).any fun top =>
        (top.2.chooseLeaving top.1 false).any fun choice => choice.any fun l =>
          (top.2.factors.solveTransposed (Vec.unit l.row)).any fun rho =>
            (top.2.chooseEntering top.1 false l (top.1.nonbasicProduct top.2.basis.place rho)).any fun e =>
              decide ((top.2.basis.nonbasic.get e.position).index = 1 ∧
                e.flips.map (fun f => (f.1.index, f.2)) = [(0, 3)]) &&
              (top.2.pivot top.1 first.solver.config {} l).toOption.any fun next =>
                (top.2.pivot top.1 first.solver.config { bland := true } l).toOption.any fun other =>
                  decide (top.1.objectiveValue other.1.values = 4 ∧
                    top.1.objectiveValue next.1.values = 6)) = true := by decide +kernel
  obtain ⟨first, hfirst, hrun⟩ := exists_of_toOption_any hrun
  obtain ⟨hrows, hrun⟩ := Bool.and_eq_true_iff.mp hrun
  obtain ⟨⟨Q, u⟩, htop, hrun⟩ := (Option.any_eq_true _ _).mp hrun
  obtain ⟨choice, hchoice, hrun⟩ := (Option.any_eq_true _ _).mp hrun
  obtain ⟨l, hleaving, hrun⟩ := (Option.any_eq_true _ _).mp hrun
  rw [hleaving] at hchoice
  obtain ⟨rho, hrho, hrun⟩ := (Option.any_eq_true _ _).mp hrun
  obtain ⟨e, he, hrun⟩ := (Option.any_eq_true _ _).mp hrun
  obtain ⟨hchosen, hrun⟩ := Bool.and_eq_true_iff.mp hrun
  obtain ⟨⟨t, result⟩, ht, hrun⟩ := exists_of_toOption_any hrun
  obtain ⟨⟨v, other⟩, hv, hrun⟩ := exists_of_toOption_any hrun
  obtain ⟨hindex, hflips⟩ := of_decide_eq_true hchosen
  obtain ⟨hbland, hobjective⟩ := of_decide_eq_true hrun
  have hstore : (MatrixStore.ofRowList (n := 3) [[(0, 1), (1, 1), (2, 1)]]).Built :=
    .compressed (rfl : MatrixStore.ofCompressed [1, 1, 1] [0, 1, 2] [0, 3] 3 = _)
  have hopened : Opened first := ⟨_, _, _, _, _, _, _, first, [], hstore, hfirst, rfl⟩
  have hvisits := Solver.visits_of_firstTop? htop
  have hway := hopened.underway (of_decide_eq_true hrows) hvisits
  have hl : u.Leaves Q l := by
    rcases hway.ready.chooseLeaving_cases false with ⟨hnone, _⟩ | ⟨l', hsome, hl, _⟩
    · cases hnone.symm.trans hchoice
    · cases hsome.symm.trans hchoice
      exact hl
  obtain ⟨rho', alphaRow, hrho', rfl, _, _, hsome, _⟩ := hway.ready.toSettled.ratio_test_best
    ((State.isDualFeasible_iff hway.ready.toSettled).mpr hway.ready)
    (Problem.contradictory?_eq_none_iff.mpr hway.consistent) hway.simple.toMirrored hl
  cases hrho'.symm.trans hrho
  obtain ⟨hbest, hpivots, hle⟩ := hsome e he
  obtain ⟨_, p', hnext⟩ := hpivots hway.simple first.solver.config {}
  cases hnext.symm.trans ht
  obtain ⟨_, q', hnext'⟩ := hpivots hway.simple first.solver.config { bland := true }
  cases hnext'.symm.trans hv
  exact ⟨first, Q, u, l, rho, _, e, t, p', v, q', hfirst, hvisits, hl, hrho, rfl, he, hbest, hindex,
    hflips, ht, hv, hbland, hobjective, hle _ _ _ _ _ _ _ _ rfl rfl ht hv⟩

end Session

end ExactSimplex
