import ExactSimplex.Machine.Run
import ExactSimplex.Proofs.Machine.Passes
import ExactSimplex.Proofs.Safety
import ExactSimplex.Proofs.Search.Run

/-! # The runs of a machine

Coming to rest, phase one with its overwritten bounds and the run with perturbed costs lead a machine where the
search goes that is given another problem for them.
-/
namespace ExactSimplex
variable {n m : ℕ}
open ExactSimplex.Action Machine

namespace Contents
variable {c : Context} {P : Problem n m} {s t : State n m} {threads : Threads}

section Rest

theorem movedToBounds_contents (s : State n m) (c : Context) (P : Problem n m) :
    ((s.contents c P).machine threads).movedToBounds = .ok (((s.moveToBounds P).contents c P).machine threads) := by
  have hmoved : (indices s.basis.nonbasic).foldlM (fun x j => do
      write x j (State.nonbasicValue (← read P.bounds.list j) (← read x j))) s.values.list =
      .ok (s.moveToBounds P).values.list := by
    rw [indices, List.foldlM_map, State.moveToBounds, ← Vector.foldl_toList]
    refine foldlM_of_step (g := PerVar.list) (fun x v _ => ?_) _
    exact (bind_of_ok (PerVar.read_list P.bounds v)).trans ((bind_of_ok (PerVar.read_list x v)).trans
      (PerVar.write_list x v _))
  exact bind_of_ok hmoved

/-- Flipping one position after the other compares with the values from before, since every variable stands at
one position only. -/
theorem foldlM_flipBoxed (hb : s.basis.Valid) (c : Context) (P : Problem n m) (ks : List (Fin n)) (x : PerVar ℚ n m)
    (count : ℕ) (hnodup : ks.Nodup)
    (hx : ∀ k ∈ ks, x.get (s.basis.nonbasic.get k) = s.values.get (s.basis.nonbasic.get k)) :
    let flips := ks.filterMap fun k =>
      (State.wantedBound? (P.bounds.get (s.basis.nonbasic.get k)) (s.values.get (s.basis.nonbasic.get k))
        (s.reduced.get k)).map fun x => (s.basis.nonbasic.get k, x)
    (ks.map fun k => ((s.basis.nonbasic.get k).index, k.val)).foldlM
        (fun e v => ((s.contents c P).machine threads).flipBoxed e v.1 v.2) (x.list, count) =
      .ok ((flips.foldl (fun x f => x.set f.1 f.2) x).list, count + flips.length) := by
  induction ks generalizing x count with
  | nil => rfl
  | cons k ks ih =>
    obtain ⟨hk, hnodup⟩ := List.nodup_cons.mp hnodup
    rw [List.map_cons, List.foldlM_cons, List.filterMap_cons]
    refine (congrArg (· >>= _) ((bind_of_ok (PerVar.read_list P.bounds _)).trans
      ((bind_of_ok (PerVar.read_list x _)).trans (bind_of_ok (read_toList s.reduced k))))).trans ?_
    dsimp only
    rw [hx k List.mem_cons_self]
    cases State.wantedBound? (P.bounds.get (s.basis.nonbasic.get k)) (s.values.get (s.basis.nonbasic.get k))
        (s.reduced.get k) with
    | none => exact ih x count hnodup fun j hj => hx j (List.mem_cons_of_mem k hj)
    | some value =>
      have hflip : (do return (← write x.list (s.basis.nonbasic.get k).index value, count + 1)) =
          Except.ok ((x.set (s.basis.nonbasic.get k) value).list, count + 1) :=
        bind_of_ok (PerVar.write_list x (s.basis.nonbasic.get k) value)
      refine (bind_of_ok hflip).trans ?_
      refine (ih _ (count + 1) hnodup fun j hj => ?_).trans ?_
      · rw [PerVar.get_set, if_neg fun heq => hk (by rwa [hb.nonbasic_injective heq])]
        exact hx j (List.mem_cons_of_mem k hj)
      · simp only [Option.map_some, List.foldl_cons, List.length_cons]
        rw [Nat.add_right_comm, Nat.add_assoc]

theorem flippedBoxed_contents (hb : s.basis.Valid) (c : Context) (P : Problem n m) :
    ((s.contents c P).machine threads).flippedBoxed =
      .ok (((s.wantedFlips P).foldl (fun x f => x.set f.1 f.2) s.values).list, (s.wantedFlips P).length) := by
  unfold Machine.flippedBoxed
  refine Eq.trans ?_ ((@foldlM_flipBoxed n m s threads hb c P (List.finRange n) s.values 0
    (List.nodup_finRange n) fun _ _ => rfl).trans ?_)
  · rw [← zipIdx_indices]
    rfl
  · rw [Nat.zero_add]
    rfl

theorem leads_settle (h : s.Sound P) (hA : P.matrix.Mirrored) {rounds : ℕ}
    (ht : State.settle P rounds s = .ok t) :
    Leads (Machine.flipToDualFeasibility rounds) (s.contents c P) () (t.contents c P) := by
  induction rounds generalizing s with
  | zero => cases ht
  | succ rounds ih =>
    obtain ⟨u, hu, ht⟩ := exists_of_bind_eq_ok ht
    obtain ⟨v, hv, hu⟩ := Option.bind_eq_some_iff.mp (State.eq_some_of_divided hu)
    have hsound : v.Sound P ∧ u.Sound P := by
      obtain ⟨_, -, rfl⟩ := Option.map_eq_some_iff.mp hv
      obtain ⟨_, -, rfl⟩ := Option.map_eq_some_iff.mp hu
      exact ⟨h.of_eq rfl rfl rfl, h.of_eq rfl rfl rfl⟩
    unfold Machine.flipToDualFeasibility
    refine (leads_computePrimal h hA hv).bind ((leads_computeDual hsound.1 hu).bind fun threads hmeets => ?_)
    refine reaches_get_bind (reaches_lift_bind (flippedBoxed_contents hsound.2.basis c P) ?_)
    dsimp only at ht
    cases hflips : u.wantedFlips P with
    | nil =>
      rw [hflips] at ht
      cases ht
      exact reaches_set_bind (D := t.contents c P) rfl hmeets (leads_pure _ _)
    | cons f flips =>
      rw [hflips] at ht
      let flipped : State n m := { u with values := (f :: flips).foldl (fun x f => x.set f.1 f.2) u.values }
      refine reaches_set_bind (D := flipped.contents c P) rfl (hmeets.congr rfl) ?_
      refine (leads_record _ _).bind (ih (s := flipped.record _) (hsound.2.of_eq rfl rfl rfl) ht)

theorem leads_comeToRest {α : Type} {rest : Action Machine α} {a : α} {D : Contents n m} (h : s.Sound P)
    (hA : P.matrix.Mirrored) (ht : State.comeToRest P s = .ok t) (hrest : Leads rest (t.contents c P) a D) :
    Leads (do step Machine.movedToBounds; Machine.flipToDualFeasibility 2; rest) (s.contents c P) a D := by
  refine (leads_step (fun _ => movedToBounds_contents s c P) rfl).bind ?_
  exact (leads_settle h.moveToBounds hA ht).bind hrest

theorem isDualFeasible_contents (s : State n m) (c : Context) (P : Problem n m) :
    ((s.contents c P).machine threads).isDualFeasible = .ok (s.isDualFeasible P) := by
  have hzip : (indices s.basis.nonbasic).zip s.reduced.toList =
      (List.finRange n).map fun k => ((s.basis.nonbasic.get k).index, s.reduced.get k) := by
    rw [indices_eq_map, toList_eq_map_get, List.zip_map']
  have hagree : ((indices s.basis.nonbasic).zip s.reduced.toList).mapM (fun e => do
      return State.agrees (← read P.bounds.list e.1) (← read s.values.list e.1) e.2) =
      .ok (Vector.ofFn fun k => State.agrees (P.bounds.get (s.basis.nonbasic.get k))
        (s.values.get (s.basis.nonbasic.get k)) (s.reduced.get k)).toList := by
    rw [hzip]
    exact mapM_map_finRange fun k => (bind_of_ok (PerVar.read_list P.bounds (s.basis.nonbasic.get k))).trans
      (bind_of_ok (PerVar.read_list s.values (s.basis.nonbasic.get k)))
  refine (bind_of_ok hagree).trans (congrArg Except.ok ?_)
  rw [toList_eq_map_get, List.all_map, State.isDualFeasible]
  rw [Function.id_comp]
  exact congrArg (List.finRange n).all (funext fun k => get_ofFn _ k)

end Rest

section Phases

theorem findIdx?_eq_find? {l : List (Var n m)} {k : ℕ} (hl : l.map Var.index = List.range' k l.length)
    (p : Var n m → Bool) : (l.map p).findIdx? id = (l.find? p).map fun v => v.index - k := by
  induction l generalizing k with
  | nil => rfl
  | cons v l ih =>
    rw [List.map_cons, List.length_cons, List.range'_succ, List.cons.injEq] at hl
    obtain ⟨hv, hl⟩ := hl
    rw [List.map_cons, List.findIdx?_cons, List.find?_cons, ih hl, id]
    cases p v with
    | true => simp [hv]
    | false =>
      have hmem : ∀ w ∈ l.find? p, k + 1 ≤ w.index := fun w hw => by
        have hmem := List.mem_map_of_mem (f := Var.index) (List.mem_of_find?_eq_some hw)
        rw [hl, List.mem_range'_1] at hmem
        exact hmem.1
      cases hfound : l.find? p with
      | none => rfl
      | some w =>
        have hle := hmem w hfound
        simp only [Bool.false_eq_true, ↓reduceIte, Option.map_some, Option.some_inj]
        omega

theorem contradictory?_machine (C : Contents n m) (threads : Threads) :
    (C.machine threads).contradictory? = C.problem.contradictory?.map Var.index := by
  have hfind := findIdx?_eq_find? (k := 0) (l := Var.all n m)
    (by rw [Var.map_index_all, Var.length_all, List.range_eq_range'])
    fun v => (C.problem.bounds.get v).isContradictory
  have hlist : C.problem.bounds.list.findIdx? Bounds.isContradictory =
      ((Var.all n m).map fun v => (C.problem.bounds.get v).isContradictory).findIdx? id := by
    rw [PerVar.list_eq_map, List.findIdx?_map, List.findIdx?_map]
    rfl
  exact hlist.trans hfind

theorem contradictory?_surrogate (P : Problem n m) : P.surrogate.contradictory? = none :=
  Problem.contradictory?_eq_none_iff.mpr (State.consistent_surrogate P)

variable (hA : P.matrix.Simple) (hinterval : c.config.refactorInterval ≠ 0)
include hA hinterval

/-- The run of phase one works on the problem with surrogate bounds. -/
theorem leads_surrogateRun (h : s.Sound P) {repair : Action Machine Repair} {ending : Ending}
    (ht : State.runSurrogate P c.config (!c.perturbed) s = .ok (t, ending)) :
    Leads (Machine.runWith true repair) (s.contents c P.surrogate) ending (t.contents c P.surrogate) := by
  obtain ⟨u, hu, ht⟩ := exists_of_bind_eq_ok ht
  have hs : ({ s with stuck := none } : State n m).Sound P.surrogate :=
    State.Sound.of_eq (h.congr (Q := P.surrogate) rfl) rfl rfl rfl
  obtain ⟨u', hu', hsettled, hcalm, -⟩ := hs.comeToRest_eq hA.toMirrored
  cases hu'.symm.trans hu
  have hready := hsettled.ready_surrogate hcalm
  refine leads_get_bind fun threads => ?_
  have hnone : (s.contents c P.surrogate).problem.contradictory? = none := contradictory?_surrogate P
  rw [contradictory?_machine, hnone]
  refine Leads.bind (D := ({ s with stuck := none } : State n m).contents c P.surrogate)
    (leads_modify (fun _ => rfl) rfl) ?_
  unfold Machine.runPhases
  refine leads_comeToRest hs hA.toMirrored hu ((leads_pure _ true).bind ?_)
  rw [if_pos rfl]
  refine leads_get_bind fun threads => ?_
  rw [numCols_machine, numRows_machine]
  exact leads_iterate hready hA (State.consistent_surrogate P) hinterval rfl ht

/-- What phase one has found out, given how its run ended, and the state in which it is over. -/
def repaired (P : Problem n m) (s : State n m) : Ending → Repair × State n m
  | .stalled => (.stalled, s)
  | .verdict v =>
    if v = .optimal ∧ P.objectiveValue s.values = 0 then (.feasible, s.record .phaseOneFeasible)
    else (.infeasible, s.record (.phaseOneFailed v (P.objectiveValue s.values)))

omit hA hinterval in
theorem repaired_of {v : Verdict} (h : v = .optimal ∧ P.objectiveValue s.values = 0) :
    repaired P s (.verdict v) = (.feasible, s.record .phaseOneFeasible) := if_pos h

omit hA hinterval in
theorem repaired_of_not {v : Verdict} (h : ¬(v = .optimal ∧ P.objectiveValue s.values = 0)) :
    repaired P s (.verdict v) = (.infeasible, s.record (.phaseOneFailed v (P.objectiveValue s.values))) := if_neg h

/-- Phase one puts the bounds back that it has overwritten. -/
theorem leads_phaseOne (h : s.Sound P) {ending : Ending}
    (ht : State.runSurrogate P c.config (!c.perturbed) (s.record .phaseOneStarted) = .ok (t, ending)) :
    Leads Machine.phaseOne (s.contents c P) (repaired P t ending).1 ((repaired P t ending).2.contents c P) := by
  have hrecord : (s.record .phaseOneStarted).Sound P := h.of_eq rfl rfl rfl
  have hrun : Leads (Machine.runWith true (fail .exhausted))
      ((s.record .phaseOneStarted).contents c P.surrogate) ending
      (t.contents c P.surrogate) := leads_surrogateRun hA hinterval hrecord ht
  refine (leads_record _ _).bind (leads_get_bind fun threads => ?_)
  have hover : Leads (modify fun s : Machine => { s with bounds := s.bounds.map Bounds.surrogate })
      ((s.record .phaseOneStarted).contents c P) () ((s.record .phaseOneStarted).contents c P.surrogate) := by
    refine leads_modify (fun threads => ?_) rfl
    change { (s.record .phaseOneStarted).contents c P |>.machine threads with
      bounds := P.bounds.list.map Bounds.surrogate } = _
    rw [PerVar.list_map]
    rfl
  have hback : Leads (modify fun s : Machine => { s with bounds := P.bounds.list })
      (t.contents c P.surrogate) () (t.contents c P) := leads_modify (fun _ => rfl) rfl
  refine hover.bind ((leads_attempt hrun).bind (leads_get_bind fun threads => ?_))
  rw [objectiveValue_machine]
  refine hback.bind ?_
  cases ending with
  | stalled => exact leads_pure _ _
  | verdict v =>
    change Leads (if v = .optimal ∧ P.objectiveValue t.values = 0 then _ else _) _ _ _
    split
    · next hzero =>
      rw [repaired_of hzero]
      exact (leads_record _ _).bind (leads_pure _ _)
    · next hzero =>
      rw [repaired_of_not hzero]
      exact (leads_record _ _).bind (leads_pure _ _)

section Run
variable (hcut : P.cutOff = c.cutOff) (hc : ∀ v, (P.bounds.get v).Consistent)
include hcut hc

theorem leads_runPhases (h : s.Sound P) {phases : ℕ} {ending : Ending}
    (ht : State.runPhases P c.config (!c.perturbed) phases s = .ok (t, ending)) :
    Leads (Machine.runPhases false Machine.phaseOne phases) (s.contents c P) ending (t.contents c P) := by
  induction phases generalizing s with
  | zero => cases ht
  | succ phases ih =>
    obtain ⟨u, hu, ht⟩ := exists_of_bind_eq_ok ht
    obtain ⟨u', hu', hsettled, -⟩ := h.comeToRest_eq hA.toMirrored
    cases hu'.symm.trans hu
    unfold Machine.runPhases
    refine leads_comeToRest h hA.toMirrored hu (Leads.bind (leads_get_bind fun threads =>
      leads_lift (isDualFeasible_contents u c P)) ?_)
    dsimp only at ht ⊢
    split
    · next hfeasible =>
      rw [if_pos hfeasible] at ht
      refine leads_get_bind fun threads => ?_
      rw [numCols_machine, numRows_machine]
      have hlimit : P.cutOff = if false = true then none else c.cutOff := hcut
      exact leads_iterate ((State.isDualFeasible_iff hsettled).mp hfeasible) hA hc hinterval hlimit ht
    · next hfeasible =>
      rw [if_neg hfeasible] at ht
      obtain ⟨⟨v, found⟩, hv, ht⟩ := exists_of_bind_eq_ok ht
      refine (leads_phaseOne hA hinterval hsettled.toSound hv).bind ?_
      have hsound : v.Sound P := by
        have hrecord : (u.record .phaseOneStarted).Sound P := hsettled.toSound.of_eq rfl rfl rfl
        obtain ⟨v', found', hv', hready, -⟩ := hrecord.runSurrogate_eq hA c.config (!c.perturbed)
        cases hv'.symm.trans hv
        exact hready.toSound.congr rfl
      cases found with
      | stalled =>
        cases ht
        exact leads_pure _ _
      | verdict w =>
        dsimp only at ht
        by_cases hzero : w = .optimal ∧ P.objectiveValue v.values = 0
        · rw [if_pos hzero] at ht
          rw [repaired_of hzero]
          exact ih (hsound.of_eq rfl rfl rfl) ht
        · rw [if_neg hzero] at ht
          cases ht
          rw [repaired_of_not hzero]
          exact leads_pure _ _

theorem leads_run (h : s.Sound P) {ending : Ending}
    (ht : State.run P c.config (!c.perturbed) s = .ok (t, ending)) :
    Leads Machine.run (s.contents c P) ending (t.contents c P) := by
  refine leads_get_bind fun threads => ?_
  have hnone : (s.contents c P).problem.contradictory? = none := Problem.contradictory?_eq_none_iff.mpr hc
  rw [contradictory?_machine, hnone]
  refine Leads.bind (D := ({ s with stuck := none } : State n m).contents c P)
    (leads_modify (fun _ => rfl) rfl) ?_
  rw [numCols_machine, numRows_machine]
  exact leads_runPhases (s := { s with stuck := none }) hA hinterval hcut hc (h.of_eq rfl rfl rfl) ht

end Run

end Phases

section Perturbation

theorem perturbedObjective_machine (C : Contents n m) (threads : Threads) :
    (C.machine threads).perturbedObjective = .ok (C.problem.perturbed C.context.config.numbers).objective.toList := by
  have hsmallest : (((C.problem.objective.toList.filter fun c => c ≠ 0).map Rat.abs).foldl
      (fun least c => if c < least then c else least) 1) =
      C.problem.objective.foldl (fun least c => if c ≠ 0 ∧ c.abs < least then c.abs else least) 1 := by
    rw [← Vector.foldl_toList, List.foldl_map, List.foldl_filter]
    simp only [decide_eq_true_eq, ite_and]
  unfold Machine.perturbedObjective
  rw [numCols_machine]
  change C.problem.objective.toList.zipIdx.mapM _ = _
  rw [zipIdx_toList]
  refine mapM_map_finRange fun i => ?_
  dsimp only
  rw [config_machine]
  cases hk : C.context.config.numbers.ofCount? (10000 + n + i) with
  | none => rfl
  | some k =>
    rw [← hsmallest]
    exact bind_of_ok (if_neg (NumberRange.ofCount?_ne_zero (by omega) hk))

variable (hA : P.matrix.Simple) (hinterval : c.config.refactorInterval ≠ 0) (hcut : P.cutOff = c.cutOff)
  (hc : ∀ v, (P.bounds.get v).Consistent)
include hA hinterval hcut hc

omit hcut in
/-- The run with perturbed costs puts the costs and the cut-off back that it has overwritten. -/
theorem leads_solvePerturbed (h : s.Sound P) {ending : Ending}
    (ht : State.run (P.perturbed c.config.numbers) c.config false (s.record .costsPerturbed) = .ok (t, ending)) :
    Leads Machine.solvePerturbed (s.contents c P) () (t.contents { c with perturbed := true } P) := by
  let c' : Context := { c with perturbed := true, cutOff := none }
  have hrecord : (s.record .costsPerturbed).Sound (P.perturbed c.config.numbers) :=
    State.Sound.of_eq (h.congr (Q := P.perturbed c.config.numbers) rfl) rfl rfl rfl
  have hrun := leads_run (c := c') (P := P.perturbed c.config.numbers) hA hinterval rfl hc hrecord ht
  unfold Machine.solvePerturbed
  refine leads_get_bind fun threads => leads_lift_bind (perturbedObjective_machine _ threads) ?_
  have hcosts : Leads (modify fun s : Machine =>
      { s with objective := (P.perturbed c.config.numbers).objective.toList }) (s.contents c P) ()
      (s.contents c (P.perturbed c.config.numbers)) := leads_modify (fun _ => rfl) rfl
  refine hcosts.bind ((leads_record _ _).bind ?_)
  have hflags : Leads (modify fun s : Machine => { s with perturbed := true, cutOff := none })
      ((s.record .costsPerturbed).contents c (P.perturbed c.config.numbers)) ()
      ((s.record .costsPerturbed).contents c' (P.perturbed c.config.numbers)) := leads_modify (fun _ => rfl) rfl
  refine hflags.bind ((leads_attempt hrun).bind ?_)
  have hback : Leads (modify fun s : Machine => { s with objective := P.objective.toList, cutOff := c.cutOff })
      (t.contents c' (P.perturbed c.config.numbers)) () (t.contents { c with perturbed := true } P) :=
    leads_modify (fun _ => rfl) rfl
  exact hback.bind (leads_pure _ _)

theorem leads_solve (h : s.Sound P) (hfresh : c.perturbed = false) {v : Verdict}
    (ht : State.solve P c.config s = .ok (t, v)) :
    ∃ perturbed, Leads (Machine.solve 2) (s.contents c P) v (t.contents { c with perturbed := perturbed } P) := by
  obtain ⟨⟨u, ending⟩, hu, ht⟩ := exists_of_bind_eq_ok ht
  obtain ⟨u', ending', hu', hsound, -⟩ := h.run_eq hA c.config true hc
  cases hu'.symm.trans hu
  have hfirst : Leads Machine.run (s.contents c P) ending (u.contents c P) := by
    refine leads_run hA hinterval hcut hc h ?_
    rw [hfresh]
    exact hu
  cases ending with
  | verdict v =>
    cases ht
    exact ⟨c.perturbed, hfirst.bind (leads_pure _ _)⟩
  | stalled =>
    obtain ⟨⟨w, ending⟩, hw, ht⟩ := exists_of_bind_eq_ok ht
    obtain ⟨⟨x, ending'⟩, hx, ht⟩ := exists_of_bind_eq_ok ht
    have hrecord : (u.record .costsPerturbed).Sound (P.perturbed c.config.numbers) :=
      State.Sound.of_eq (hsound.congr (Q := P.perturbed c.config.numbers) rfl) rfl rfl rfl
    obtain ⟨w', ending'', hw', hwsound, -⟩ :=
      State.Sound.run_eq (P := P.perturbed c.config.numbers) hA c.config false hc hrecord
    cases hw'.symm.trans hw
    have hperturbed := leads_solvePerturbed hA hinterval hc hsound hw
    have hlast : Leads Machine.run (w.contents { c with perturbed := true } P) ending'
        (x.contents { c with perturbed := true } P) :=
      leads_run (c := { c with perturbed := true }) hA hinterval hcut hc (hwsound.congr rfl) hx
    cases ending' with
    | stalled => cases ht
    | verdict v =>
      cases ht
      exact ⟨true, hfirst.bind (hperturbed.bind (hlast.bind (leads_pure _ _)))⟩

end Perturbation

end Contents

end ExactSimplex
