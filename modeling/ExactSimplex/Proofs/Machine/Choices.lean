import ExactSimplex.Proofs.Choice
import ExactSimplex.Proofs.Machine.Points
import ExactSimplex.Proofs.Search.Pricing

/-! # The choices of a machine

A machine chooses the same leaving and the same entering variable as the search whose state it contains, and
brings the weights to the same values.
-/
namespace ExactSimplex
variable {n m : ℕ}
open ExactSimplex.Action Machine

def Leaving.departure (l : Leaving n m) : Departure := ⟨l.row, l.var.index, l.side⟩

def Entering.arrival (e : Entering n m) : Arrival := ⟨e.position, e.flips.map fun f => (f.1.index, f.2)⟩

namespace Contents
variable {c : Context} {P : Problem n m} {s : State n m} {threads : Threads}

section Leaving

theorem departure?_contents (s : State n m) (i : Fin m) :
    ((s.contents c P).machine threads).departure? i (s.basis.basic.get i).index =
      .ok (((P.bounds.get (s.basis.basic.get i)).violation? (s.values.get (s.basis.basic.get i))).map
        fun e => (e.2, (⟨i, s.basis.basic.get i, e.1⟩ : Leaving n m).departure)) := by
  exact (bind_of_ok (PerVar.read_list P.bounds _)).trans (bind_of_ok (PerVar.read_list s.values _))

/-- The leaving variable, for any way in which violations are judged and compared. -/
theorem selectLeaving_of_score {steepest : Bool} {score : ℚ × Leaving n m → ℚ}
    {better : ℚ × Leaving n m → ℚ × Leaving n m → Bool}
    (hscore : ∀ e : ℚ × Leaving n m,
      ((s.contents c P).machine threads).score steepest (e.1, e.2.departure) = .ok (score e))
    (hbetter : ∀ a b : ℚ × Leaving n m,
      ((s.contents c P).machine threads).isBetter steepest (a.1, a.2.departure) (b.1, b.2.departure) = better a b) :
    ((s.contents c P).machine threads).selectLeaving steepest =
      .ok ((firstBest better ((s.violations P).map fun e => (score e, e.2))).map fun e => e.2.departure) := by
  refine (bind_of_ok (a := (firstBest better ((s.violations P).map fun e => (score e, e.2))).map
    fun e => (e.1, e.2.departure)) ?_).trans ?_
  · have hbasic : ((s.contents c P).machine threads).basic = indices s.basis.basic := rfl
    rw [hbasic, firstBest_eq_foldl, State.violations, List.map_filterMap, List.foldl_filterMap, zipIdx_indices,
      List.foldlM_map]
    refine foldlM_of_step (g := Option.map fun e : ℚ × Leaving n m => (e.1, e.2.departure))
      (fun best i _ => ?_) none
    refine (bind_of_ok (departure?_contents s i)).trans ?_
    dsimp only
    cases (P.bounds.get (s.basis.basic.get i)).violation? (s.values.get (s.basis.basic.get i)) with
    | none => rfl
    | some e =>
      refine (bind_of_ok (hscore (e.2, ⟨i, s.basis.basic.get i, e.1⟩))).trans ?_
      cases best with
      | none => rfl
      | some best =>
        simp only [Option.map_some, Option.all_some]
        have hb := hbetter (score (e.2, ⟨i, s.basis.basic.get i, e.1⟩), ⟨i, s.basis.basic.get i, e.1⟩) best
        rw [hb]
        split <;> rfl
  · rw [Option.map_map]
    rfl

theorem selectLeaving_lowest (s : State n m) : ((s.contents c P).machine threads).selectLeaving false =
    .ok ((firstBest (fun a b => decide (a.2.var.index < b.2.var.index)) (s.violations P)).map
      fun e => e.2.departure) := by
  have hscored : ((s.contents c P).machine threads).selectLeaving false =
      .ok ((firstBest (fun a b => decide (a.2.var.index < b.2.var.index))
        ((s.violations P).map fun e => (e.1, e.2))).map fun e => e.2.departure) := by
    refine selectLeaving_of_score (fun e => ?_) fun a b => ?_
    · unfold Machine.score
      split
      · next hfalse => cases hfalse
      · rfl
    · unfold Machine.isBetter
      rw [Bool.and_false]
      rfl
  simpa only [Prod.mk.eta, List.map_id'] using hscored

theorem selectLeaving_steepest (h : s.Sound P) {w : Vec m} (hw : s.weights = some w) :
    ((s.contents c P).machine threads).selectLeaving true =
      .ok ((firstBest (fun a b => decide (b.1 < a.1))
        ((s.violations P).map fun e => (e.1 * e.1 / w.get e.2.row, e.2))).map fun e => e.2.departure) := by
  have hweights : ((s.contents c P).machine threads).weights = some w.toList := by
    change s.weights.map _ = _
    rw [hw]
    rfl
  refine selectLeaving_of_score (fun e => ?_) fun a b => ?_
  · unfold Machine.score
    rw [hweights]
    refine (bind_of_ok (read_toList w e.2.row)).trans ?_
    exact if_neg (h.weight_pos hw e.2.row).ne'
  · unfold Machine.isBetter
    rw [hweights]
    rfl

theorem selectLeaving_contents (h : s.Sound P) {bland : Bool} {o : Option (Leaving n m)}
    (ho : s.chooseLeaving P bland = some o) :
    ((s.contents c P).machine threads).selectLeaving (s.weights.isSome && !bland) =
      .ok (o.map Leaving.departure) := by
  unfold State.chooseLeaving at ho
  cases hw : s.weights with
  | none =>
    rw [hw] at ho
    cases ho
    rw [Option.map_map]
    exact selectLeaving_lowest s
  | some w =>
    rw [hw] at ho
    cases bland with
    | true =>
      cases ho
      rw [Option.map_map]
      exact selectLeaving_lowest s
    | false =>
      dsimp only at ho
      rw [h.scores_eq hw] at ho
      cases ho
      rw [Option.map_map]
      exact selectLeaving_steepest h hw

theorem leavingTarget_contents (s : State n m) (c : Context) (l : Leaving n m) :
    ((s.contents c P).machine threads).leavingTarget l.departure = .ok (s.leavingTarget P l) := by
  unfold Machine.leavingTarget State.leavingTarget
  refine (bind_of_ok (PerVar.read_list P.bounds l.var)).trans ?_
  dsimp only [Leaving.departure]
  cases (P.bounds.get l.var).get l.side with
  | none => exact PerVar.read_list s.values l.var
  | some bound => rfl

theorem violation_contents {l : Leaving n m} (hl : s.Leaves P l) :
    ((s.contents c P).machine threads).violation l.departure =
      .ok (s.leavingTarget P l - s.values.get l.var).abs := by
  unfold Machine.violation
  refine (bind_of_ok (leavingTarget_contents s c l)).trans
    ((bind_of_ok (PerVar.read_list s.values l.var)).trans ?_)
  rw [hl.abs_sub_eq]
  dsimp only [Leaving.departure]
  cases l.side with
  | lower =>
    refine congrArg Except.ok ?_
    rw [Side.sign]
    ring
  | upper =>
    refine congrArg Except.ok ?_
    rw [Side.sign, one_mul]

end Leaving

section Entering

theorem candidates_contents (s : State n m) (c : Context) (side : Side) (alphaRow : Vec n) :
    ((s.contents c P).machine threads).candidates side alphaRow.toList =
      .ok ((s.candidates P side alphaRow).map fun e => (e.1, e.2.val)) := by
  have hfound : (indices s.basis.nonbasic).zipIdx.mapM (fun e =>
      ((s.contents c P).machine threads).candidate? side alphaRow.toList e.2 e.1) =
      .ok (Vector.ofFn fun k => if State.towards side (alphaRow.get k) ≠ 0 &&
          State.isEligible (P.bounds.get (s.basis.nonbasic.get k)) (s.values.get (s.basis.nonbasic.get k))
            (State.towards side (alphaRow.get k)) then
        some (s.reduced.get k / State.towards side (alphaRow.get k), k.val) else none).toList := by
    rw [zipIdx_indices]
    refine mapM_map_finRange fun k => ?_
    unfold Machine.candidate?
    refine (bind_of_ok (read_toList alphaRow k)).trans ?_
    by_cases halpha : alphaRow.get k = 0
    · have hzero : State.towards side (alphaRow.get k) = 0 := by
        rw [halpha]
        cases side <;> simp [State.towards]
      rw [if_pos halpha, hzero]
      simp only [ne_eq, not_true_eq_false, decide_false, Bool.false_and, Bool.false_eq_true, ↓reduceIte]
      rfl
    · have hne : State.towards side (alphaRow.get k) ≠ 0 := by
        cases side <;> simpa [State.towards] using halpha
      rw [if_neg halpha]
      refine (bind_of_ok (PerVar.read_list P.bounds _)).trans ((bind_of_ok (PerVar.read_list s.values _)).trans ?_)
      rw [decide_eq_true hne, Bool.true_and]
      split
      · refine (bind_of_ok (read_toList s.reduced k)).trans ?_
        exact bind_of_ok (if_neg hne)
      · rfl
  refine (bind_of_ok hfound).trans (congrArg Except.ok ?_)
  rw [State.candidates, List.map_filterMap, toList_eq_map_get, List.filterMap_map]
  refine List.filterMap_congr fun k _ => ?_
  simp only [Function.comp_apply, get_ofFn, id]
  split <;> rfl

/-- Passing candidates from where some have been passed already. -/
theorem passCandidates_contents (s : State n m) (c : Context) (alphaRow : Vec n) (ks : List (Fin n))
    (remaining : ℚ) (entering : Option ℕ) (flips : List (ℕ × ℚ)) :
    ((s.contents c P).machine threads).passCandidates alphaRow.toList remaining entering flips (ks.map Fin.val) =
      .ok (match s.passCandidates P alphaRow remaining ks with
        | none => entering.map fun k => ⟨k, flips⟩
        | some e => some ⟨e.arrival.position, flips ++ e.arrival.flips⟩) := by
  induction ks generalizing remaining entering flips with
  | nil => rfl
  | cons k ks ih =>
    rw [List.map_cons, Machine.passCandidates, State.passCandidates]
    refine (bind_of_ok (read_indices s.basis.nonbasic k)).trans
      ((bind_of_ok (PerVar.read_list P.bounds _)).trans ?_)
    dsimp only
    cases (P.bounds.get (s.basis.nonbasic.get k)).box? with
    | none =>
      simp only [Entering.arrival, List.map_nil, List.append_nil]
      rfl
    | some box =>
      refine (bind_of_ok (read_toList alphaRow k)).trans ?_
      dsimp only
      split
      · simp only [Entering.arrival, List.map_nil, List.append_nil]
        rfl
      · refine (bind_of_ok (PerVar.read_list s.values _)).trans ((ih _ _ _).trans ?_)
        generalize (if s.values.get (s.basis.nonbasic.get k) = box.1 then box.2 - box.1 else box.1 - box.2) = change
        cases s.passCandidates P alphaRow (remaining - (box.2 - box.1) * (alphaRow.get k).abs) ks with
        | none =>
          simp only [Entering.arrival, Option.map_some]
          split <;> simp
        | some e =>
          simp only [Entering.arrival, List.map_append]
          split <;> simp

theorem enteringBland_contents (s : State n m) (c : Context) (found : List (ℚ × Fin n)) :
    ((s.contents c P).machine threads).enteringBland (found.map fun e => (e.1, e.2.val)) =
      .ok ((s.chooseBland found).map Entering.arrival) := by
  have hindexed : (found.map fun e => (e.1, e.2.val)).mapM (fun e => do
      return (e, ← read ((s.contents c P).machine threads).nonbasic e.2)) =
      .ok (found.map fun e => ((e.1, e.2.val), (s.basis.nonbasic.get e.2).index)) := by
    rw [List.mapM_map]
    exact mapM_of_forall fun e _ => bind_of_ok (read_indices s.basis.nonbasic e.2)
  refine (bind_of_ok hindexed).trans (congrArg Except.ok ?_)
  rw [firstBest_map, State.chooseBland, Option.map_map, Option.map_map]
  rfl

/-- Among equal steps the order of the positions is the order in which the candidates were found. -/
theorem sorted_candidates (s : State n m) (side : Side) (alphaRow : Vec n) :
    stableSort (fun a b : ℚ × ℕ => decide (a.1 < b.1) || (decide (a.1 = b.1) && decide (a.2 ≤ b.2)))
        ((s.candidates P side alphaRow).map fun e => (e.1, e.2.val)) =
      (stableSort (fun a b => decide (a.1 ≤ b.1)) (s.candidates P side alphaRow)).map fun e => (e.1, e.2.val) := by
  refine stableSort_map _ ?_
  have hpositions : (s.candidates P side alphaRow).Pairwise fun a b => a.2 < b.2 := by
    rw [State.candidates, List.pairwise_filterMap]
    refine (List.pairwise_lt_finRange n).imp fun hij a ha b hb => ?_
    dsimp only at ha hb
    split at ha
    · split at hb
      · cases ha
        cases hb
        exact hij
      · cases hb
    · cases ha
  refine hpositions.imp fun {a b} hab => ?_
  have hle : a.2.val ≤ b.2.val := hab.le
  rw [decide_eq_true hle, Bool.and_true, ← Bool.decide_or]
  exact decide_eq_decide.mpr le_iff_lt_or_eq.symm

theorem selectEntering_contents (c : Context) {l : Leaving n m} (hl : s.Leaves P l) (alphaRow : Vec n)
    (bland : Bool) : ((s.contents c P).machine threads).selectEntering l.departure alphaRow.toList bland =
      .ok ((s.chooseEntering P bland l alphaRow).map Entering.arrival) := by
  unfold Machine.selectEntering State.chooseEntering
  refine (bind_of_ok (candidates_contents s c l.side alphaRow)).trans ?_
  dsimp only
  rw [List.isEmpty_map]
  cases hfound : s.candidates P l.side alphaRow with
  | nil => cases bland <;> rfl
  | cons e found =>
    rw [← hfound]
    have hnonempty : (s.candidates P l.side alphaRow).isEmpty = false := by rw [hfound]; rfl
    rw [hnonempty]
    cases bland with
    | true => exact enteringBland_contents s c _
    | false =>
      refine (bind_of_ok (violation_contents hl)).trans ?_
      rw [sorted_candidates, List.map_map]
      have hpass := @passCandidates_contents n m P threads s c alphaRow
        ((stableSort (fun a b => decide (a.1 ≤ b.1)) (s.candidates P l.side alphaRow)).map Prod.snd)
        (s.leavingTarget P l - s.values.get l.var).abs none []
      rw [List.map_map] at hpass
      refine hpass.trans (congrArg Except.ok ?_)
      cases s.passCandidates P alphaRow _ _ <;> rfl

end Entering

section Weights

theorem updatedWeights_toList {r : Fin m} {alpha tau weights w : Vec m} (hne : alpha.get r ≠ 0)
    (h : State.updateWeights r alpha tau weights = some w) :
    updatedWeights r alpha.toList tau.toList weights.toList = .ok (some w.toList) := by
  unfold State.updateWeights at h
  rw [State.divide?_eq _ hne] at h
  cases h
  have hdivide : divide (weights.get r) (alpha.get r * alpha.get r) =
      .ok (weights.get r / (alpha.get r * alpha.get r)) := if_neg (mul_ne_zero hne hne)
  have hupdated := changeAlong_toList (v := put weights r (weights.get r / (alpha.get r * alpha.get r))) (w := alpha)
    (f := fun i weight a => if i = r ∨ a = 0 then .ok weight
      else do
        let ratio ← divide a (alpha.get r)
        return weight - 2 * ratio * (← read tau.toList i) + ratio * ratio * weights.get r)
    (g := fun i => if i = r then weights.get r * (1 / alpha.get r * (1 / alpha.get r))
      else weights.get i - 2 * (alpha.get i * (1 / alpha.get r)) * tau.get i +
        alpha.get i * (1 / alpha.get r) * (alpha.get i * (1 / alpha.get r)) * weights.get r) fun i => ?_
  · unfold updatedWeights
    rw [if_neg (by simp)]
    exact (bind_of_ok (read_toList alpha r)).trans ((bind_of_ok (read_toList weights r)).trans
      ((bind_of_ok hdivide).trans ((bind_of_ok (write_toList weights r _)).trans (bind_of_ok hupdated))))
  · rw [get_put]
    by_cases hi : i = r
    · rw [if_pos (Or.inl (congrArg Fin.val hi)), if_pos hi.symm, if_pos hi]
      refine congrArg Except.ok ?_
      field_simp
    · rw [if_neg (Ne.symm hi), if_neg hi]
      by_cases ha : alpha.get i = 0
      · rw [if_pos (Or.inr ha), ha]
        refine congrArg Except.ok ?_
        ring
      · rw [if_neg (not_or.mpr ⟨fun hv => hi (Fin.ext hv), ha⟩)]
        have hratio : divide (alpha.get i) (alpha.get r) = .ok (alpha.get i / alpha.get r) := if_neg hne
        refine (bind_of_ok hratio).trans ((bind_of_ok (read_toList tau i)).trans (congrArg Except.ok ?_))
        rw [div_eq_mul_one_div]

theorem recomputeWeights_contents (h : s.Sound P) {w : Vec m} (hw : State.exactWeights s.factors = some w) :
    recomputeWeights ⟨m, s.factors⟩ = .ok w.toList := by
  obtain ⟨w', hw', hnorm⟩ := State.exactWeights_eq h.factors
  cases hw'.symm.trans hw
  have hm : (⟨m, s.factors⟩ : BasisFactors).order = m := h.factors.length_order
  unfold recomputeWeights
  rw [hm, ← List.map_coe_finRange_eq_range]
  refine (mapM_map_finRange (g := w.get) fun i => ?_).trans (congrArg Except.ok ?_)
  · obtain ⟨row, hrow, heq⟩ := State.solveTransposed_unit h.factors i
    rw [toList_replicate]
    refine (bind_of_ok (write_toList _ i 1)).trans ?_
    refine (bind_of_ok (BasisFactors.btran_of_solveTransposed h.factors.length_order hrow)).trans
      (congrArg Except.ok ?_)
    rw [addUp_eq_sum, sum_map_filter fun v hv => ?_, hnorm, ← heq, toList_eq_map_get, List.map_map, Fin.sum_univ_def]
    · rfl
    · simp only [ne_eq, decide_not, Bool.not_eq_eq_eq_not, Bool.not_false, decide_eq_true_eq] at hv
      rw [hv, mul_zero]
  · rw [toList_eq_map_get, toList_eq_map_get]
    exact List.map_congr_left fun i _ => get_ofFn w.get i

variable {C : Contents n m}

theorem leads_startTau {F : Factorization m} (horder : F.order.length = m) {rho tau : Vec m}
    (htau : F.solve rho = some tau) (hC : C.tau = none) :
    Leads (startTau ⟨m, F⟩ rho.toList) C () { C with tau := some tau } := by
  intro threads hmeets
  obtain ⟨turn, schedule, hturn, hmeets'⟩ := reaches_nextTurn hmeets
  have hidle : (threads.steepestEdge.getD (.spawn turn.started)).Idle := by
    cases hedge : threads.steepestEdge with
    | none => exact Helper.idle_spawn turn.started
    | some helper => exact hmeets.idle hC helper hedge
  obtain ⟨busy, hsubmit, hcarries⟩ := hidle.submit turn tau.toList
  refine ⟨{ threads with schedule := schedule, steepestEdge := some busy },
    ⟨hmeets.multiplier, fun hnone => ?_, fun other hother => ?_⟩, ?_⟩
  · cases hnone
  · cases hother
    exact ⟨busy, rfl, hcarries⟩
  · refine (run_bind_of_value hturn).trans (run_step ?_)
    rw [BasisFactors.ftran_of_solve horder htau]
    exact bind_of_ok hsubmit

theorem leads_waitForTau {tau : Vec m} (hC : C.tau = some tau) :
    Leads waitForTau C tau.toList { C with tau := none } := by
  intro threads hmeets
  obtain ⟨helper, hedge, hcarries⟩ := hmeets.carries tau hC
  obtain ⟨free, hwait, hidle⟩ := hcarries.wait
  refine ⟨{ threads with steepestEdge := some free },
    ⟨hmeets.multiplier, fun _ other hother => ?_, fun other hother => ?_⟩, ?_⟩
  · cases hother
    exact hidle
  · cases hother
  · have hmachine : (C.machine threads).steepestEdge = some helper := hedge
    unfold waitForTau
    rw [run_get_bind, hmachine]
    exact (run_lift_bind hwait).trans rfl

end Weights

end Contents

end ExactSimplex
