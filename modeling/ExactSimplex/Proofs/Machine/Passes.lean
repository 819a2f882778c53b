import ExactSimplex.Proofs.Machine.Choices
import ExactSimplex.Proofs.Search.Safety

/-! # The passes of a machine

Where a search goes from one state to the next in a pass, the machine with the first one's contents goes to the
contents of the second, whatever its threads do. The weights are computed in the background meanwhile.
-/
namespace ExactSimplex
variable {n m : ℕ}
open ExactSimplex.Action Machine Matrix

namespace Contents
variable {c : Context} {P : Problem n m} {s t : State n m} {threads : Threads}

section Steps

theorem steppedDual_contents {alphaRow d : Vec n} {k : Fin n} (s : State n m) (c : Context) (P : Problem n m)
    (hd : State.stepDual s.reduced alphaRow k = some d) :
    Machine.steppedDual k alphaRow.toList ((s.contents c P).machine threads) =
      .ok (({ s with reduced := d } : State n m).contents c P |>.machine threads) := by
  unfold State.stepDual divide? at hd
  split at hd
  · cases hd
  · next hne =>
    cases hd
    have htheta : divide (s.reduced.get k) (alphaRow.get k) = .ok (s.reduced.get k / alphaRow.get k) := if_neg hne
    refine (bind_of_ok (read_toList s.reduced k)).trans ((bind_of_ok (read_toList alphaRow k)).trans
      ((bind_of_ok htheta).trans ?_))
    refine (bind_of_ok (changeAlong_toList (v := s.reduced) (w := alphaRow)
      (g := fun j => s.reduced.get j - s.reduced.get k / alphaRow.get k * alphaRow.get j) fun j => ?_)).trans ?_
    · split
      · next hzero => rw [hzero, mul_zero, sub_zero]
      · rfl
    · exact bind_of_ok (write_toList _ k _)

theorem foldlM_flip (hA : P.matrix.Mirrored) (s : State n m) (c : Context) (flips : List (Var n m × ℚ))
    (x : PerVar ℚ n m) (w : Vec m) :
    (flips.map fun f => (f.1.index, f.2)).foldlM (fun e f => e.1.flip e.2 f)
        (({ s with values := x } : State n m).contents c P |>.machine threads, w.toList) =
      .ok (({ s with values := flips.foldl (fun x f => x.add f.1 f.2) x } : State n m).contents c P
          |>.machine threads,
        (flips.foldl (fun w f => SparseVec.addTo (P.column f.1) f.2 w) w).toList) := by
  induction flips generalizing x w with
  | nil => rfl
  | cons f flips ih =>
    rw [List.map_cons, List.foldlM_cons]
    refine (bind_of_ok ?_).trans (ih (x.add f.1 f.2) (SparseVec.addTo (P.column f.1) f.2 w))
    refine (bind_of_ok (PerVar.change_list x f.1 _)).trans (bind_of_ok ?_)
    exact (s.contents c P).addColumn_machine threads hA f.1 f.2 w

/-- Nothing moves if there are no flips. -/
theorem applyFlips_nil (h : s.Sound P) {x : PerVar ℚ n m} (hx : s.applyFlips P [] = some x) : x = s.values := by
  obtain ⟨w, hw, hB⟩ := h.factors.solve_eq (Vec.zero m)
  obtain ⟨w', hw', rfl⟩ := Option.map_eq_some_iff.mp hx
  cases hw.symm.trans hw'
  have hzero : w.get = 0 := by
    refine Matrix.mulVec_injective_iff_isUnit.mpr h.factors.isUnit (hB.trans ?_)
    rw [Matrix.mulVec_zero]
    exact funext fun i => Vec.get_zero i
  refine PerVar.ext_get fun v => ?_
  rcases h.basis.basic_or_nonbasic v with ⟨i, rfl⟩ | ⟨k, rfl⟩
  · rw [State.get_shiftBasic h.basis, hzero]
    simp
  · rw [State.get_shiftBasic_of_nonbasic h.basis _ _ _ (h.basis.isBasic_nonbasic k)]
    rfl

theorem flipped_contents (h : s.Sound P) (hA : P.matrix.Mirrored) (c : Context) {flips : List (Var n m × ℚ)}
    {x : PerVar ℚ n m} (hx : s.applyFlips P flips = some x) :
    Machine.flipped ⟨m, s.factors⟩ (flips.map fun f => (f.1.index, f.2)) ((s.contents c P).machine threads) =
      .ok (({ s with values := x } : State n m).contents c P |>.machine threads) := by
  unfold Machine.flipped
  cases flips with
  | nil =>
    rw [applyFlips_nil h hx]
    rfl
  | cons f flips =>
    rw [if_neg (by simp)]
    obtain ⟨w, hw, rfl⟩ := Option.map_eq_some_iff.mp hx
    rw [numRows_machine, toList_replicate]
    refine (bind_of_ok (foldlM_flip hA s c (f :: flips) s.values (Vec.zero m))).trans ?_
    refine (bind_of_ok (BasisFactors.ftran_of_solve h.factors.length_order hw)).trans ?_
    exact shiftBasic_contents
      ({ s with values := (f :: flips).foldl (fun x f => x.add f.1 f.2) s.values } : State n m) c 1 w

theorem steppedPrimal_contents (s : State n m) (c : Context) {l : Leaving n m} {q : Var n m} {alphaColumn : Vec m}
    {x : PerVar ℚ n m}
    (hx : State.stepPrimal s.basis s.values l (s.leavingTarget P l) q alphaColumn = some x) :
    Machine.steppedPrimal l.departure q.index alphaColumn.toList ((s.contents c P).machine threads) =
      .ok (({ s with values := x } : State n m).contents c P |>.machine threads) := by
  unfold State.stepPrimal divide? at hx
  split at hx
  · cases hx
  · next hne =>
    cases hx
    have htheta : divide (s.values.get l.var - s.leavingTarget P l) (alphaColumn.get l.row) =
      .ok ((s.values.get l.var - s.leavingTarget P l) / alphaColumn.get l.row) := if_neg hne
    refine (bind_of_ok (leavingTarget_contents s c l)).trans ((bind_of_ok (PerVar.read_list s.values l.var)).trans
      ((bind_of_ok (read_toList alphaColumn l.row)).trans ((bind_of_ok htheta).trans
        ((bind_of_ok (shiftBasic_contents s c _ alphaColumn)).trans ?_))))
    exact bind_of_ok (PerVar.change_list _ q _)

theorem exchanged_contents (s : State n m) (c : Context) (hb : s.basis.Valid) {l : Leaving n m}
    (hl : s.basis.basic.get l.row = l.var) (k : Fin n) :
    Machine.exchanged l.departure k (s.basis.nonbasic.get k).index ((s.contents c P).machine threads) =
      .ok (({ s with basis := s.basis.exchange l.row k, pivots := s.pivots + 1 } : State n m).contents c P
        |>.machine threads) := by
  obtain ⟨r, v, side⟩ := l
  dsimp only at hl
  subst hl
  have hne := hb.basic_ne_nonbasic r k
  have hswap : (s.basis.place.set (s.basis.basic.get r) (.nonbasic k)).set (s.basis.nonbasic.get k)
      (.basic r) = (s.basis.exchange r k).place := by
    refine PerVar.ext_get fun v => ?_
    rw [Basis.exchange]
    simp only [PerVar.get_set]
    split
    · next hv => rw [← hv, if_neg hne]
    · rfl
  have hnonbasic := write_map_list Place.column? (s.basis.place.set (s.basis.basic.get r) (.nonbasic k))
    (s.basis.nonbasic.get k) (.basic r)
  rw [hswap] at hnonbasic
  refine (bind_of_ok (write_indices s.basis.basic r _)).trans
    ((bind_of_ok (write_map_list Place.row? s.basis.place (s.basis.nonbasic.get k) (.basic r))).trans
    ((bind_of_ok (write_map_list Place.row? _ (s.basis.basic.get r) (.nonbasic k))).trans
    ((bind_of_ok (write_indices s.basis.nonbasic k _)).trans
    ((bind_of_ok (write_map_list Place.column? s.basis.place (s.basis.basic.get r) (.nonbasic k))).trans
    (bind_of_ok hnonbasic)))))

theorem reweighted_contents {w weights tau : Vec m} {r : Fin m} {alphaColumn : Vec m} (hw : s.weights = some w)
    (hne : alphaColumn.get r ≠ 0) (h : State.updateWeights r alphaColumn tau w = some weights) :
    Machine.reweighted r alphaColumn.toList tau.toList ((s.contents c P).machine threads) =
      .ok (({ s with weights := some weights } : State n m).contents c P |>.machine threads) := by
  have hmachine : ((s.contents c P).machine threads).weights = some w.toList := by
    change s.weights.map _ = _
    rw [hw]
    rfl
  unfold Machine.reweighted
  rw [hmachine]
  exact bind_of_ok (updatedWeights_toList hne h)

end Steps

section Renew
variable {u : State n m}

theorem leads_changeBasis (horder : s.factors.order.length = m) {r : Fin m} {column : Vec m} {F : Factorization m}
    (hF : s.factors.replaceColumn r column = .ok F) :
    Leads (Machine.changeBasis r (SparseVec.entries (Vec.support (s.factors.applyEtas column)))) (s.contents c P) ()
      (({ s with factors := F } : State n m).contents c P) := by
  intro threads hmeets
  refine ⟨threads, hmeets.congr rfl, ?_⟩
  unfold Machine.changeBasis
  rw [run_get_bind]
  exact (run_lift_bind (BasisFactors.changeBasis_of_replaceColumn horder hF)).trans rfl

theorem leads_refactor_of_ok (hA : P.matrix.Mirrored) (hb : s.basis.Valid)
    (ht : s.refactor P c.config = .ok t) : Leads Machine.refactor (s.contents c P) () (t.contents c P) := by
  unfold State.refactor at ht
  split at ht
  · next hs =>
    cases ht
    exact leads_refactor (C := s.contents c P) hA hb hs
  · cases ht

theorem leads_renewFactors (hA : P.matrix.Mirrored) (hb : s.basis.Valid) (horder : s.factors.order.length = m)
    (hinterval : c.config.refactorInterval ≠ 0) {r : Fin m} {column : Vec m} {F : Factorization m}
    (hF : s.factors.replaceColumn r column = .ok F) (ht : s.renewFactors P c.config r column = .ok t) :
    Leads (Machine.renewFactors r (SparseVec.entries (Vec.support (s.factors.applyEtas column)))) (s.contents c P) ()
      (t.contents c P) := by
  refine leads_get_bind fun threads => ?_
  change Leads (if c.config.refactorInterval = 0 then _ else if s.pivots % c.config.refactorInterval = 0 then _ else _)
    _ _ _
  rw [if_neg hinterval]
  unfold State.renewFactors at ht
  split
  · next hdue =>
    rw [if_pos hdue] at ht
    exact leads_refactor_of_ok hA hb ht
  · next hdue =>
    rw [if_neg hdue, hF] at ht
    cases ht
    exact (leads_attempt (leads_changeBasis horder hF)).bind (leads_pure _ _)

theorem leads_renewWeights (h : s.Sound P) {iterations : ℕ} (ht : s.renewWeights c.config iterations = .ok t) :
    Leads (Machine.renewWeights iterations) (s.contents c P) () (t.contents c P) := by
  refine leads_get_bind fun threads => ?_
  have hisNone : ((s.contents c P).machine threads).weights.isNone = s.weights.isNone := Option.isNone_map ..
  rw [hisNone, numRows_machine]
  change Leads (if (s.weights.isNone && decide (m < c.config.recomputeFactor * iterations)) = true then _ else _) _ _ _
  unfold State.renewWeights at ht
  split
  · next hdue =>
    rw [if_pos hdue] at ht
    obtain ⟨w, hw, ht⟩ := exists_of_bind_eq_ok ht
    cases ht
    have hw' := State.eq_some_of_divided hw
    have h' : (s.record (.weightsComputed iterations)).Sound P := h.of_eq rfl rfl rfl
    refine (leads_record (s.contents c P) _).bind ((leads_factorization (F := s.factors) rfl).bind ?_)
    refine leads_lift_bind (recomputeWeights_contents h' hw') ?_
    exact leads_modify (fun _ => rfl) rfl
  · next hdue =>
    rw [if_neg hdue] at ht
    cases ht
    exact leads_pure _ _

end Renew

section Pivot

/-- The contents while `tau` is computed in the background, if the weights are known. -/
def weighing (s : State n m) (c : Context) (P : Problem n m) (rho : Vec m) : Contents n m :=
  { s.contents c P with tau := s.weights.bind fun _ => s.factors.solve rho }

/-- Known weights are carried over, and what follows does not have to wait for `tau` any more. -/
theorem leads_reweighted {α : Type} {rest : Action Machine α} {a : α} {D : Contents n m} {weights : Option (Vec m)}
    {r : Fin m} {rho alphaColumn : Vec m} (hne : alphaColumn.get r ≠ 0)
    (hw : s.carryWeights r rho alphaColumn = some weights)
    (hrest : Leads rest (({ s with weights := weights } : State n m).contents c P) a D) :
    Leads (if s.weights.isSome = true then do
        step (Machine.reweighted r alphaColumn.toList (← waitForTau))
        rest
      else rest) (weighing s c P rho) a D := by
  unfold State.carryWeights at hw
  unfold weighing
  cases hs : s.weights with
  | none =>
    rw [hs] at hw
    cases hw
    rw [← hs] at hrest
    exact hrest
  | some w =>
    rw [hs] at hw
    obtain ⟨tau, htau, hw⟩ := Option.bind_eq_some_iff.mp hw
    obtain ⟨w', hw', rfl⟩ := Option.map_eq_some_iff.mp hw
    rw [Option.bind_some, htau]
    have hstep : Leads (step (Machine.reweighted r alphaColumn.toList tau.toList)) (s.contents c P) ()
        (({ s with weights := some w' } : State n m).contents c P) :=
      leads_step (fun threads => reweighted_contents hs hne hw') rfl
    exact (leads_waitForTau (C := { s.contents c P with tau := some tau }) rfl).bind (hstep.bind hrest)

theorem leads_exchangeVariables (h : s.Ready P) (hA : P.matrix.Simple) (hinterval : c.config.refactorInterval ≠ 0)
    {l : Leaving n m} (hl : s.Leaves P l) {e : Entering n m} {rho : Vec m} {alphaRow : Vec n} {alphaColumn : Vec m}
    (hcolumn : s.factors.solve (SparseVec.addTo (P.column (s.basis.nonbasic.get e.position)) 1 (Vec.zero m)) =
      some alphaColumn) (hne : alphaColumn.get l.row ≠ 0) {t u : State n m} {F : Factorization m}
    (ht : (s.record (.enters (s.basis.nonbasic.get e.position).index e.flips.length)).exchange P l e rho alphaRow
      alphaColumn = some t)
    (hF : t.factors.replaceColumn l.row
      (SparseVec.addTo (P.column (s.basis.nonbasic.get e.position)) 1 (Vec.zero m)) = .ok F)
    (hu : t.renewFactors P c.config l.row
      (SparseVec.addTo (P.column (s.basis.nonbasic.get e.position)) 1 (Vec.zero m)) = .ok u) :
    Leads (Machine.exchangeVariables ⟨m, s.factors⟩ s.weights.isSome l.departure e.arrival alphaRow.toList)
      (weighing s c P rho) () (u.contents c P) := by
  unfold State.exchange at ht
  obtain ⟨reduced, hreduced, ht⟩ := Option.bind_eq_some_iff.mp ht
  obtain ⟨flipped, hflipped, ht⟩ := Option.bind_eq_some_iff.mp ht
  obtain ⟨values, hvalues, ht⟩ := Option.bind_eq_some_iff.mp ht
  obtain ⟨weights, hweights, ht⟩ := Option.bind_eq_some_iff.mp ht
  cases ht
  -- the bound that the leaving variable attains does not depend on what has been flipped
  have htarget (s' : State n m) : s'.leavingTarget P l = s.leavingTarget P l := by
    rw [State.leavingTarget, State.leavingTarget, hl.bound_eq]
    rfl
  let enters := s.record (.enters (s.basis.nonbasic.get e.position).index e.flips.length)
  let stepped : State n m := { enters with reduced := reduced }
  let shifted : State n m := { stepped with values := flipped }
  let moved : State n m := { shifted with values := values }
  have hstepped (threads : Threads) : Machine.steppedDual e.position alphaRow.toList
      ((weighing enters c P rho).machine threads) = .ok ((weighing stepped c P rho).machine threads) :=
    steppedDual_contents enters c P hreduced
  have hshifted (threads : Threads) : Machine.flipped ⟨m, s.factors⟩ (e.flips.map fun f => (f.1.index, f.2))
      ((weighing stepped c P rho).machine threads) = .ok ((weighing shifted c P rho).machine threads) :=
    flipped_contents (s := stepped) (h.toSound.of_eq rfl rfl rfl) hA.toMirrored c hflipped
  have hmoved (threads : Threads) : Machine.steppedPrimal l.departure (s.basis.nonbasic.get e.position).index
      alphaColumn.toList ((weighing shifted c P rho).machine threads) =
        .ok ((weighing moved c P rho).machine threads) := by
    refine steppedPrimal_contents (P := P) shifted c ?_
    rw [(htarget shifted).trans (htarget enters).symm]
    exact hvalues
  have hexchanged (threads : Threads) := @exchanged_contents n m P threads
    { moved with weights := weights } c h.basis l hl.var_eq e.position
  unfold Machine.exchangeVariables
  refine leads_get_bind fun threads => leads_lift_bind (read_indices s.basis.nonbasic e.position) ?_
  have hrecord : Leads (Machine.record (.enters (s.basis.nonbasic.get e.position).index e.arrival.flips.length))
      (weighing s c P rho) () (weighing enters c P rho) := by
    rw [show e.arrival.flips.length = e.flips.length from List.length_map ..]
    exact leads_record _ _
  refine hrecord.bind ?_
  have hadd := (s.contents c P).addColumn_machine threads hA.toMirrored (s.basis.nonbasic.get e.position) 1
    (Vec.zero m)
  rw [Vec.zero, ← toList_replicate] at hadd
  rw [numRows_machine]
  refine leads_lift_bind hadd (leads_lift_bind
    (BasisFactors.ftranWithSpike_of_solve h.factors.length_order hcolumn) ?_)
  dsimp only
  refine (leads_step hstepped rfl).bind ?_
  refine (leads_step hshifted rfl).bind ?_
  refine (leads_step hmoved rfl).bind ?_
  refine leads_reweighted (s := moved) hne hweights ?_
  refine (leads_step hexchanged rfl).bind ?_
  exact leads_renewFactors (s := { moved with
      weights := weights, basis := s.basis.exchange l.row e.position, pivots := s.pivots + 1 })
    hA.toMirrored (h.basis.exchange l.row e.position) h.factors.length_order hinterval hF hu

theorem leads_giveUp {rho tau : Vec m} (htau : s.factors.solve rho = some tau) (l : Leaving n m) :
    Leads (Machine.giveUp s.weights.isSome l.departure) (weighing s c P rho) (.stop (.verdict .infeasible))
      (({ s.record (.noneEnters l.var.index) with stuck := some l.var } : State n m).contents c P) := by
  have hrest : Leads (do
      Machine.record (.noneEnters l.var.index)
      modify fun s => { s with stuck := some l.var.index }
      return .stop (.verdict .infeasible) : Action Machine PassResult) (s.contents c P) (.stop (.verdict .infeasible))
      (({ s.record (.noneEnters l.var.index) with stuck := some l.var } : State n m).contents c P) := by
    refine (leads_record _ _).bind ?_
    refine Leads.bind (D := ({ s.record (.noneEnters l.var.index) with stuck := some l.var } : State n m).contents c P)
      (leads_modify (fun _ => rfl) rfl) (leads_pure _ _)
  unfold Machine.giveUp weighing
  cases hs : s.weights with
  | none => exact hrest
  | some w =>
    rw [Option.bind_some, htau]
    have hwait : Leads (discard waitForTau) { s.contents c P with tau := some tau } () (s.contents c P) :=
      (leads_waitForTau (C := { s.contents c P with tau := some tau }) rfl).bind (leads_pure _ _)
    exact hwait.bind hrest

variable (h : s.Ready P) (hA : P.matrix.Simple) (hc : ∀ v, (P.bounds.get v).Consistent)
  (hinterval : c.config.refactorInterval ≠ 0)
include h hA hc hinterval

theorem leads_pivotInRow {p : Progress} {l : Leaving n m} (hl : s.Leaves P l) {r : PassResult} {rho : Vec m}
    (hrho : s.factors.solveTransposed (Vec.unit l.row) = some rho)
    (ht : s.pivot P c.config p l = .ok (t, r)) :
    Leads (Machine.pivotInRow ⟨m, s.factors⟩ rho.toList s.weights.isSome p l.departure) (weighing s c P rho) r
      (t.contents c P) := by
  obtain ⟨rho', hrho', hget, hrow⟩ := h.pivotRow_eq l.row
  cases hrho'.symm.trans hrho
  have hproduct := leads_multiply (C := weighing s c P rho) h.basis rho
  have hselect (threads : Threads) := @selectEntering_contents n m P s threads c l hl
    (P.nonbasicProduct s.basis.place rho) p.bland
  unfold State.pivot at ht
  obtain ⟨rho', hrho', ht⟩ := exists_of_bind_eq_ok ht
  cases (State.eq_some_of_divided hrho').symm.trans hrho
  dsimp only at ht
  cases he : s.chooseEntering P p.bland l (P.nonbasicProduct s.basis.place rho) with
  | none =>
    rw [he] at ht hselect
    cases ht
    obtain ⟨tau, htau, -⟩ := h.factors.solve_eq rho
    exact hproduct.bind (leads_get_bind fun threads => leads_lift_bind (hselect threads) (leads_giveUp htau l))
  | some e =>
    rw [he] at ht hselect
    obtain ⟨alphaColumn, hcolumn, ht⟩ := exists_of_bind_eq_ok ht
    obtain ⟨u, hu, ht⟩ := exists_of_bind_eq_ok ht
    obtain ⟨v, hv, ht⟩ := exists_of_bind_eq_ok ht
    obtain ⟨t', ht', ht⟩ := exists_of_bind_eq_ok ht
    cases ht
    replace hcolumn := State.eq_some_of_divided hcolumn
    replace hu := State.eq_some_of_divided hu
    -- the exchange works on a state with one more event in its log
    have hnoted := (State.Noted.refl s).record
      (e := .enters (s.basis.nonbasic.get e.position).index e.flips.length) rfl
    have h' := h.of_noted hnoted
    have hne := (h.enters_of_chooseEntering hc he).tableau_ne_zero hrow
    obtain ⟨alphaColumn', u', hcolumn', -, hpivot, hu', -, F, -, hF, -, -⟩ :=
      h'.canExchange hA c.config ⟨hl.var_eq, hl.bound_eq, hl.violated⟩ hne hget hrow
    cases hcolumn'.symm.trans hcolumn
    cases hu'.symm.trans hu
    have hsound : v.Sound P := by
      obtain ⟨alphaColumn', hcolumn', hB⟩ := h.pivotColumn_eq hA.toMirrored e.position
      cases hcolumn'.symm.trans hcolumn
      obtain ⟨u', hu', hex⟩ := h'.toSound.exchange_eq hA.toMirrored h'.balanced hl.var_eq e hget hrow hB hne
      cases hu'.symm.trans hu
      obtain ⟨v', hv', hsound, -⟩ := h'.toSound.renewFactors_eq hA c.config hex hne
        (State.get_addTo_column hA.toMirrored (s.basis.nonbasic.get e.position))
      cases hv'.symm.trans hv
      exact hsound
    refine hproduct.bind (leads_get_bind fun threads => leads_lift_bind (hselect threads) ?_)
    refine (leads_exchangeVariables h hA hinterval hl hcolumn hpivot hu hF hv).bind ?_
    exact (leads_renewWeights hsound ht').bind (leads_pure _ _)

theorem leads_pivot {p : Progress} {l : Leaving n m} (hl : s.Leaves P l) {r : PassResult}
    (ht : s.pivot P c.config p l = .ok (t, r)) :
    Leads (Machine.pivot p l.departure) (s.contents c P) r (t.contents c P) := by
  obtain ⟨rho, hrho, -, -⟩ := h.pivotRow_eq l.row
  obtain ⟨tau, htau, -⟩ := h.factors.solve_eq rho
  have hrest := leads_pivotInRow h hA hc hinterval hl hrho ht
  have hisSome (threads : Threads) : ((s.contents c P).machine threads).weights.isSome = s.weights.isSome :=
    Option.isSome_map ..
  refine (leads_factorization (F := s.factors) rfl).bind (leads_get_bind fun threads => ?_)
  rw [numRows_machine, toList_replicate, hisSome]
  refine leads_lift_bind (write_toList _ l.row 1) ?_
  refine leads_lift_bind (BasisFactors.btran_of_solveTransposed h.factors.length_order hrho) ?_
  unfold weighing at hrest
  cases hs : s.weights with
  | none =>
    rw [hs] at hrest
    exact hrest
  | some w =>
    rw [hs, Option.bind_some, htau] at hrest
    exact (leads_startTau h.factors.length_order htau rfl).bind hrest

end Pivot

section Pass
variable (h : s.Ready P) (hA : P.matrix.Simple) (hc : ∀ v, (P.bounds.get v).Consistent)
  (hinterval : c.config.refactorInterval ≠ 0) {phaseOne : Bool}
  (hcut : P.cutOff = if phaseOne = true then none else c.cutOff)

theorem leads_recordAll (s : State n m) (c : Context) (P : Problem n m) (es : List Event) :
    Leads (es.forM Machine.record) (s.contents c P) () ((s.recordAll es).contents c P) := by
  induction es generalizing s with
  | nil => exact leads_pure _ _
  | cons e es ih => exact (leads_record _ e).bind (ih (s.record e))

/-- Recording events does not change which variable leaves. -/
theorem selectLeaving_of_recordAll (hs : s.Sound P) {events : List Event} {bland : Bool}
    {o : Option (Leaving n m)} (ho : (s.recordAll events).chooseLeaving P bland = some o) :
    ((s.contents c P).machine threads).selectLeaving
      (((s.contents c P).machine threads).weights.isSome && !bland) = .ok (o.map Leaving.departure) := by
  obtain ⟨log, hlog⟩ := s.recordAll_eq events
  rw [hlog] at ho
  rw [show ((s.contents c P).machine threads).weights.isSome = s.weights.isSome from Option.isSome_map ..]
  exact selectLeaving_contents hs ho

theorem leaves_of_chooseLeaving (hs : s.Sound P) {bland : Bool} {l : Leaving n m}
    (ho : s.chooseLeaving P bland = some (some l)) : s.Leaves P l := by
  rcases hs.chooseLeaving_cases bland with ⟨hnone, -⟩ | ⟨l', hsome, hl, -⟩
  · cases hnone.symm.trans ho
  · cases hsome.symm.trans ho
    exact hl

include h hA hc hinterval hcut

/-- A machine goes through the same pass as the search whose state it contains. -/
theorem leads_pass {p : Progress} {r : PassResult} (ht : s.pass P c.config (!c.perturbed) p = .ok (t, r)) :
    Leads (Machine.pass phaseOne p) (s.contents c P) r (t.contents c P) := by
  have hlimit (threads : Threads) :
      (if phaseOne = true then none else ((s.contents c P).machine threads).cutOff) = P.cutOff := hcut.symm
  refine leads_get_bind fun threads => ?_
  have hvalue : ((s.contents c P).machine threads).objectiveValue = P.objectiveValue s.values :=
    objectiveValue_machine _ _
  dsimp only
  rw [hvalue, hlimit]
  unfold State.pass at ht
  dsimp only at ht
  cases hreached : P.cutOff.filter fun bound => decide (bound ≤ P.objectiveValue s.values) with
  | some bound =>
    rw [hreached] at ht
    cases ht
    exact (leads_record _ _).bind (leads_pure _ _)
  | none =>
    rw [hreached] at ht
    dsimp only at ht ⊢
    generalize hobserved : p.observe c.config.cycleThreshold (P.objectiveValue s.values) = observed at ht
    have hmachine (threads : Threads) : p.observe ((s.contents c P).machine threads).config.cycleThreshold
        (P.objectiveValue s.values) = observed := hobserved
    rw [hmachine]
    obtain ⟨p', events⟩ := observed
    have hevents := State.observe_events p c.config.cycleThreshold (P.objectiveValue s.values)
    rw [hobserved] at hevents
    have h' := h.of_noted ((State.Noted.refl s).recordAll hevents)
    refine (leads_recordAll s c P events).bind ?_
    change Leads
      (if (!c.perturbed && decide (c.config.perturbationThreshold < p'.repeated)) = true then _ else _) _ _ _
    dsimp only at ht ⊢
    split
    · next hstall =>
      rw [if_pos hstall] at ht
      cases ht
      exact leads_pure _ _
    · next hstall =>
      rw [if_neg hstall] at ht
      obtain ⟨o, ho, ht⟩ := exists_of_bind_eq_ok ht
      replace ho := State.eq_some_of_divided ho
      -- the variable is chosen from the machine as it was before the events
      refine leads_lift_bind (selectLeaving_of_recordAll h.toSound ho) ?_
      cases o with
      | none =>
        cases ht
        exact leads_pure _ _
      | some l =>
        refine (leads_record _ _).bind ?_
        have hn := ((State.Noted.refl s).recordAll hevents).record
          (e := .leaves p'.iterations l.var.index l.row) rfl
        have hl := leaves_of_chooseLeaving h'.toSound ho
        exact leads_pivot (h.of_noted hn) hA hc hinterval ⟨hl.var_eq, hl.bound_eq, hl.violated⟩ ht

theorem leads_iterate {allowance : ℕ} {p : Progress} {ending : Ending}
    (ht : s.iterate P c.config (!c.perturbed) allowance p = .ok (t, ending)) :
    Leads (Machine.iterate phaseOne allowance p) (s.contents c P) ending (t.contents c P) := by
  induction allowance generalizing p s with
  | zero => cases ht
  | succ allowance ih =>
    obtain ⟨⟨s', r⟩, hpass, ht⟩ := exists_of_bind_eq_ok ht
    refine (leads_pass h hA hc hinterval hcut hpass).bind ?_
    rcases h.pass_cases hA hc c.config (!c.perturbed) p with ⟨t', ending', hstop, -⟩ | ⟨t', hnext, hsteps⟩
    · cases hstop.symm.trans hpass
      cases ht
      exact leads_pure _ _
    · cases hnext.symm.trans hpass
      exact ih hsteps.ready ht

end Pass

end Contents

end ExactSimplex
