import ExactSimplex.Proofs.Machine.Steps

/-! # The changes that a solve makes

A solve changes a machine in a few ways only: values, reduced costs and weights are computed anew, two
variables change places, the factors are renewed, and at the start the basis may be forgotten or imported.
What every such change preserves is kept by the whole solve, whatever it comes to; only phase one and the run
with perturbed costs have to be looked at on their own, because they overwrite the problem.
-/
namespace ExactSimplex.Machine
open ExactSimplex.Action
variable {s t : Machine} {I : Machine → Prop}

/-- A change that leaves the basis and its factors alone. -/
inductive Inner : Machine → Machine → Prop
  | values {s t : Machine} (h : s.OnlyValues t) : Inner s t
  | threads {s t : Machine} (h : s.OnlyThreads t) : Inner s t
  | notes (s : Machine) (proof : Option (List ℚ)) (guess : Option (List Double)) (stuck : Option ℕ)
      (log : Array Event) :
      Inner s { s with proof := proof, guess := guess, stuck := stuck, log := log }
  | reduced {s t : Machine} {product : List ℚ} (hlength : product.length = s.numCols)
      (h : reduced product s = .ok t) : Inner s t
  | steppedDual {s t : Machine} {k : ℕ} {alphaRow : List ℚ} (h : steppedDual k alphaRow s = .ok t) : Inner s t
  | reweighted {s t : Machine} {r : ℕ} {alphaColumn tau : List ℚ}
      (h : reweighted r alphaColumn tau s = .ok t) : Inner s t
  | weighed {s : Machine} {F : BasisFactors} {weights : List ℚ} (hF : s.factors = some F)
      (h : recomputeWeights F = .ok weights) : Inner s { s with weights := some weights }

/-- A change that a search makes. -/
inductive Moves : Machine → Machine → Prop
  | inner {s t : Machine} (h : Inner s t) : Moves s t
  | refactored {s t : Machine} (h : s.refactored = .ok t) : Moves s t
  | exchanged {s t : Machine} {l : Departure} {k q : ℕ} (hl : s.basic[l.row]? = some l.var)
      (hk : s.nonbasic[k]? = some q) (h : exchanged l k q s = .ok t) : Moves s t
  | replaced {s : Machine} {F G : BasisFactors} {r : ℕ} {spike : List (ℕ × ℚ)} {outcome : Except Error Unit}
      (hF : s.factors = some F) (h : F.changeBasis r spike = .ok (outcome, G)) :
      Moves s { s with factors := some G }

/-- A change that a solve makes, apart from changes of the problem and of what the provider has seen. -/
inductive Changes : Machine → Machine → Prop
  | moves {s t : Machine} (h : Moves s t) : Changes s t
  | cleared {s t : Machine} (h : s.cleared = .ok t) : Changes s t
  | imported {s t : Machine} {statuses : List Status} (hlength : statuses.length = s.numCols + s.numRows)
      (hcount : statuses.count .basic = s.numRows) (h : imported statuses s = .ok t) : Changes s t
  | dropped (s : Machine) : Changes s { s with hasBasis := false }
  | slack (s : Machine) :
      Changes s { s with hasBasis := true, weights := some (List.replicate s.numRows 1) }

/-- A property goes along with changes. -/
def Preserves (R : Machine → Machine → Prop) (I : Machine → Prop) : Prop := ∀ s t, R s t → I s → I t

theorem Preserves.moves (hI : Preserves Changes I) : Preserves Moves I := fun s t h => hI s t (.moves h)

theorem Preserves.inner (hI : Preserves Moves I) : Preserves Inner I := fun s t h => hI s t (.inner h)

section Inner

theorem Inner.lists_eq (h : Inner s t) :
    t.basic = s.basic ∧ t.nonbasic = s.nonbasic ∧ t.factors = s.factors := by
  cases h with
  | values h =>
    obtain ⟨_, -, rfl⟩ := h
    exact ⟨rfl, rfl, rfl⟩
  | threads h =>
    obtain ⟨_, _, _, rfl⟩ := h
    exact ⟨rfl, rfl, rfl⟩
  | notes => exact ⟨rfl, rfl, rfl⟩
  | reduced _ h =>
    obtain ⟨_, -, rfl⟩ := reduced_eq h
    exact ⟨rfl, rfl, rfl⟩
  | steppedDual h =>
    obtain ⟨_, -, rfl⟩ := steppedDual_eq h
    exact ⟨rfl, rfl, rfl⟩
  | reweighted h =>
    obtain ⟨_, -, rfl⟩ := reweighted_eq h
    exact ⟨rfl, rfl, rfl⟩
  | weighed => exact ⟨rfl, rfl, rfl⟩

variable (hI : Preserves Inner I)
include hI

theorem Preserves.keeps_record (e : Event) : (record e).Keeps I :=
  keeps_modify fun s hs => hI _ _ (.notes s s.proof s.guess s.stuck _) hs

theorem Preserves.keeps_multiply (y : List ℚ) : (multiply y).Keeps I :=
  fun _ hs r t h => hI _ _ (.threads (ends_multiply y r t h).1) hs

theorem Preserves.keeps_startTau (F : BasisFactors) (rho : List ℚ) : (startTau F rho).Keeps I :=
  fun _ hs r t h => hI _ _ (.threads (ends_startTau F rho r t h)) hs

theorem Preserves.keeps_waitForTau : waitForTau.Keeps I :=
  fun _ hs r t h => hI _ _ (.threads (ends_waitForTau r t h)) hs

theorem Preserves.keeps_values {f : Machine → Except Failure Machine}
    (h : ∀ s t, f s = .ok t → s.OnlyValues t) : (step f).Keeps I :=
  keeps_step fun s t hs ht => hI s t (.values (h s t ht)) hs

theorem Preserves.keeps_giveUp (weighted : Bool) (l : Departure) : (giveUp weighted l).Keeps I := by
  have hrest : (do
      record (.noneEnters l.var)
      modify fun s => { s with stuck := some l.var }
      return .stop (.verdict .infeasible) : Action Machine PassResult).Keeps I :=
    (hI.keeps_record _).bind fun _ => Keeps.bind
      (keeps_modify fun s hs => hI _ _ (.notes s s.proof s.guess _ s.log) hs) fun _ => keeps_pure _
  unfold giveUp
  dsimp only
  split
  · exact (hI.keeps_waitForTau.bind fun _ => keeps_pure _).bind fun _ => hrest
  · exact hrest

end Inner

theorem run_factorization_of_some {F : BasisFactors} (h : s.factors = some F) :
    factorization.run s = .ok (.ok F, s) := by
  unfold factorization
  rw [run_get_bind]
  simp only [h, Option.isNone_some, Bool.false_eq_true, if_false]
  unfold heldFactors
  rw [run_get_bind, h]
  rfl

section Moves
variable (hI : Preserves Moves I)
include hI

theorem Preserves.keeps_refactor : refactor.Keeps I :=
  keeps_step fun s t hs ht => hI s t (.refactored ht) hs

/-- Together with a property the factors stay as well. -/
theorem Preserves.factored : Preserves Moves fun s => I s ∧ s.factors.isSome = true := by
  rintro s t h ⟨hs, hF⟩
  refine ⟨hI s t h hs, ?_⟩
  cases h with
  | inner h =>
    rw [h.lists_eq.2.2]
    exact hF
  | refactored h =>
    obtain ⟨_, _, _, _, _, _, -, -, -, -, -, rfl⟩ := refactored_eq h
    rfl
  | exchanged _ _ h =>
    obtain ⟨_, _, -, -, -, -, -, -, rfl⟩ := exchanged_eq h
    exact hF
  | replaced => rfl

omit hI in
theorem ends_heldFactors (hs : I s) :
    heldFactors.Ends s fun r t => I t ∧ ∀ F, r = .ok F → t.factors = some F := by
  refine ends_get_bind ?_
  split
  · next F hF =>
    rintro _ _ ⟨⟩
    exact ⟨hs, fun G hG => by cases hG; exact hF⟩
  · refine ends_get_bind (ends_lift (fun _ h => by cases h) fun _ _ => ?_)
    exact ⟨hs, fun _ h => by cases h⟩

theorem Preserves.ends_factorization (hs : I s) :
    factorization.Ends s fun r t => I t ∧ ∀ F, r = .ok F → t.factors = some F := by
  unfold factorization
  refine ends_get_bind ?_
  split
  · exact (hI.keeps_refactor s hs).bind (fun _ t ht => ends_heldFactors ht)
      fun _ t ht => ⟨ht, fun _ h => by cases h⟩
  · exact ends_heldFactors hs

theorem Preserves.keeps_factorization : factorization.Keeps I :=
  fun _ hs r t h => (hI.ends_factorization hs r t h).1

/-- Afterwards the basis is factorized, unless the computation was refused. -/
theorem Preserves.ends_computePrimal (hs : I s) :
    computePrimal.Ends s fun r t => I t ∧ ∀ u, r = .ok u → t.factors.isSome = true := by
  refine (hI.ends_factorization hs).bind (fun F t ht => ends_step (fun u hu => ?_) fun _ _ => ?_)
    fun _ t ht => ⟨ht.1, fun _ h => by cases h⟩
  · obtain ⟨rhs, -, hu⟩ := exists_of_bind_eq_ok hu
    obtain ⟨w, -, hu⟩ := exists_of_bind_eq_ok hu
    have hvalues := onlyValues_setBasic hu
    refine ⟨hI.inner t u (.values hvalues) ht.1, fun _ _ => ?_⟩
    obtain ⟨x, -, rfl⟩ := hvalues
    rw [ht.2 F rfl]
    rfl
  · exact ⟨ht.1, fun _ h => by cases h⟩

theorem Preserves.keeps_computePrimal : computePrimal.Keeps I :=
  fun _ hs r t h => (hI.ends_computePrimal hs r t h).1

theorem Preserves.keeps_computeDual : computeDual.Keeps I := by
  refine hI.keeps_factorization.bind fun F => keeps_get_bind fun s _ => ?_
  refine (keeps_lift _).bind fun costs => (keeps_lift _).bind fun y s hs => ?_
  refine (ends_multiply y).bind (fun product t ht => ?_) fun _ t ht => hI.inner s t (.threads ht.1) hs
  have hIt := hI.inner s t (.threads ht.1) hs
  have hlength : product.length = t.numCols := by
    obtain ⟨_, _, _, rfl⟩ := ht.1
    exact ht.2 product rfl
  exact ends_step (fun u hu => hI.inner t u (.reduced hlength hu) hIt) fun _ _ => hIt

theorem Preserves.keeps_changeBasis (r : ℕ) (spike : List (ℕ × ℚ)) : (changeBasis r spike).Keeps I := by
  intro s hs
  refine ends_get_bind ?_
  split
  · exact keeps_refuse _ s hs
  · next F hF =>
    refine ends_lift_bind (fun result hresult => ends_set_bind ?_) fun _ _ => hs
    have hset : I { s with factors := some result.2 } := hI _ _ (.replaced hF hresult) hs
    split
    · exact keeps_pure _ _ hset
    · exact keeps_refuse _ _ hset

theorem Preserves.keeps_renewFactors (r : ℕ) (spike : List (ℕ × ℚ)) : (renewFactors r spike).Keeps I := by
  refine keeps_get_bind fun s _ => ?_
  split
  · exact keeps_fail _
  · split
    · exact hI.keeps_refactor
    · refine (hI.keeps_changeBasis r spike).attempt_bind fun outcome => ?_
      split
      · exact keeps_pure _
      · exact (hI.inner.keeps_record _).bind fun _ => hI.keeps_refactor

theorem Preserves.keeps_renewWeights (iterations : ℕ) : (renewWeights iterations).Keeps I := by
  refine keeps_get_bind fun s _ => ?_
  split
  · refine (hI.inner.keeps_record _).bind fun _ s hs => ?_
    refine (hI.ends_factorization hs).bind (fun F t ht => ?_) fun _ t ht => ht.1
    refine ends_lift_bind (fun weights hweights => ?_) fun _ _ => ht.1
    rintro _ _ ⟨⟩
    exact hI.inner _ _ (.weighed (ht.2 F rfl) hweights) ht.1
  · exact keeps_pure _

theorem Preserves.ends_exchangeVariables (F : BasisFactors) (weighted : Bool) {l : Departure} (e : Arrival)
    (alphaRow : List ℚ) (hs : I s) (hl : s.basic[l.row]? = some l.var) :
    (exchangeVariables F weighted l e alphaRow).Ends s fun _ => I := by
  refine ends_get_bind (ends_lift_bind (fun q hq => ?_) fun _ _ => hs)
  -- up to the exchange the lists are those of `s`
  have hJ : Preserves Inner fun t => I t ∧ t.basic = s.basic ∧ t.nonbasic = s.nonbasic :=
    fun t u h ht => ⟨hI.inner t u h ht.1, h.lists_eq.1.trans ht.2.1, h.lists_eq.2.1.trans ht.2.2⟩
  have hexchange : ∀ t, I t ∧ t.basic = s.basic ∧ t.nonbasic = s.nonbasic → ∀ spike,
      Ends (do step (exchanged l e.position q); renewFactors l.row spike) t fun _ => I := by
    intro t ht spike
    refine Ends.bind (J := fun _ => I) (ends_step (fun u hu => ?_) fun _ _ => ht.1)
      (fun _ u hu => hI.keeps_renewFactors _ _ u hu) fun _ _ hu => hu
    refine hI t u (.exchanged ?_ ?_ hu) ht.1
    · rw [ht.2.1]
      exact hl
    · rw [ht.2.2]
      exact read_eq_ok_iff.mp hq
  refine (hJ.keeps_record _ s ⟨hs, rfl, rfl⟩).bind (fun _ t ht => ?_) fun _ _ h => h.1
  refine ends_lift_bind (fun column _ => ends_lift_bind (fun result _ => ?_) fun _ _ => ht.1) fun _ _ => ht.1
  have hdual : (step (steppedDual e.position alphaRow)).Keeps
      fun t => I t ∧ t.basic = s.basic ∧ t.nonbasic = s.nonbasic :=
    keeps_step fun t u ht hu => hJ t u (.steppedDual hu) ht
  refine (hdual t ht).bind (fun _ u hu => ?_) fun _ _ h => h.1
  refine (hJ.keeps_values (fun _ _ => onlyValues_flipped) u hu).bind (fun _ v hv => ?_) fun _ _ h => h.1
  refine (hJ.keeps_values (fun _ _ => onlyValues_steppedPrimal) v hv).bind (fun _ w hw => ?_)
    fun _ _ h => h.1
  dsimp only
  split
  · refine (hJ.keeps_waitForTau w hw).bind (fun tau z hz => ?_) fun _ _ h => h.1
    have hweights : (step (reweighted l.row result.1 tau)).Keeps
        fun t => I t ∧ t.basic = s.basic ∧ t.nonbasic = s.nonbasic :=
      keeps_step fun t u ht hu => hJ t u (.reweighted hu) ht
    exact (hweights z hz).bind (fun _ z' hz' => hexchange z' hz' _) fun _ _ h => h.1
  · exact hexchange w hw _

theorem Preserves.ends_pivotInRow (F : BasisFactors) (rho : List ℚ) (weighted : Bool) (p : Progress)
    {l : Departure} (hs : I s) (hl : s.basic[l.row]? = some l.var) :
    (pivotInRow F rho weighted p l).Ends s fun _ => I := by
  have hJ : Preserves Inner fun t => I t ∧ t.basic = s.basic :=
    fun t u h ht => ⟨hI.inner t u h ht.1, h.lists_eq.1.trans ht.2⟩
  refine (hJ.keeps_multiply rho s ⟨hs, rfl⟩).bind (fun alphaRow t ht => ?_) fun _ _ h => h.1
  refine ends_get_bind (ends_lift_bind (fun entering _ => ?_) fun _ _ => ht.1)
  split
  · exact hI.inner.keeps_giveUp _ _ t ht.1
  · refine (hI.ends_exchangeVariables F weighted _ alphaRow ht.1 (ht.2 ▸ hl)).bind
      (fun _ u hu => ?_) fun _ _ h => h
    exact ((hI.keeps_renewWeights _).bind fun _ => keeps_pure _) u hu

/-- A pivot relies on factors at hand: making them would move the leaving variable. -/
theorem Preserves.ends_pivot (p : Progress) {l : Departure} (hs : I s) (hF : s.factors.isSome = true)
    (hl : s.basic[l.row]? = some l.var) :
    (pivot p l).Ends s fun _ t => I t ∧ t.factors.isSome = true := by
  have hI := hI.factored
  obtain ⟨F, hF'⟩ := Option.isSome_iff_exists.mp hF
  refine ends_bind_of_value (run_factorization_of_some hF') (ends_get_bind ?_)
  refine ends_lift_bind (fun unit _ => ends_lift_bind (fun rho _ => ?_) fun _ _ => ⟨hs, hF⟩) fun _ _ => ⟨hs, hF⟩
  dsimp only
  split
  · have hJ : Preserves Inner fun t => (I t ∧ t.factors.isSome = true) ∧ t.basic = s.basic :=
      fun t u h ht => ⟨hI.inner t u h ht.1, h.lists_eq.1.trans ht.2⟩
    refine (hJ.keeps_startTau F rho s ⟨⟨hs, hF⟩, rfl⟩).bind (fun _ t ht => ?_) fun _ _ h => h.1
    exact hI.ends_pivotInRow F rho _ p ht.1 (ht.2 ▸ hl)
  · exact hI.ends_pivotInRow F rho _ p ⟨hs, hF⟩ hl

theorem Preserves.keeps_pass (phaseOne : Bool) (p : Progress) :
    (pass phaseOne p).Keeps fun s => I s ∧ s.factors.isSome = true := by
  have hJ := hI.factored.inner
  intro s hs
  refine ends_get_bind ?_
  dsimp only
  split
  · exact ((hJ.keeps_record _).bind fun _ => keeps_pure _) s hs
  · have hnoted : Preserves Inner fun t => (I t ∧ t.factors.isSome = true) ∧ t.basic = s.basic :=
      fun t u h ht => ⟨hJ t u h ht.1, h.lists_eq.1.trans ht.2⟩
    refine (keeps_forM hnoted.keeps_record _ s ⟨hs, rfl⟩).bind (fun _ t ht => ?_) fun _ _ h => h.1
    split
    · exact keeps_pure _ t ht.1
    · refine ends_lift_bind (fun leaving hleaving => ?_) fun _ _ => ht.1
      split
      · exact keeps_pure _ t ht.1
      · refine (hnoted.keeps_record _ t ht).bind (fun _ u hu => ?_) fun _ _ h => h.1
        exact hI.ends_pivot _ hu.1.1 hu.1.2 (hu.2 ▸ basic_of_selectLeaving hleaving)

theorem Preserves.keeps_iterate (phaseOne : Bool) (allowance : ℕ) (p : Progress) :
    (iterate phaseOne allowance p).Keeps fun s => I s ∧ s.factors.isSome = true := by
  induction allowance generalizing p with
  | zero => exact keeps_fail _
  | succ allowance ih =>
    refine (hI.keeps_pass phaseOne p).bind fun result => ?_
    split
    · exact keeps_pure _
    · exact ih _

/-- After coming to rest the basis is factorized. -/
theorem Preserves.ends_flipToDualFeasibility (rounds : ℕ) (hs : I s) :
    (flipToDualFeasibility rounds).Ends s fun r t => I t ∧ ∀ u, r = .ok u → t.factors.isSome = true := by
  induction rounds generalizing s with
  | zero => exact fun _ _ h => by cases h
  | succ rounds ih =>
    refine (hI.ends_computePrimal hs).bind (fun u t ht => ?_) fun _ t ht => ⟨ht.1, fun _ h => by cases h⟩
    have hJ := hI.factored
    refine (hJ.keeps_computeDual t ⟨ht.1, ht.2 u rfl⟩).bind (fun _ v hv => ?_)
      fun _ t ht => ⟨ht.1, fun _ h => by cases h⟩
    refine ends_get_bind (ends_lift_bind (fun result hresult => ends_set_bind ?_)
      fun _ _ => ⟨hv.1, fun _ h => by cases h⟩)
    have hset := hJ.inner v { v with x := result.1 } (.values ⟨_, length_of_flippedBoxed hresult, rfl⟩) hv
    split
    · rintro _ _ ⟨⟩
      exact ⟨hset.1, fun _ _ => hset.2⟩
    · refine (hI.inner.keeps_record _ _ hset.1).bind (fun _ w hw => ih hw) fun _ t ht => ?_
      exact ⟨ht, fun _ h => by cases h⟩

omit hI in
theorem ends_restsDualFeasible (phaseOne : Bool) (s : Machine) :
    (restsDualFeasible phaseOne).Ends s fun _ t => t = s := by
  unfold restsDualFeasible
  split
  · rintro _ _ ⟨⟩
    rfl
  · exact ends_get_bind (ends_lift (fun _ _ => rfl) fun _ _ => rfl)

theorem Preserves.keeps_runPhases (phaseOne : Bool) {repair : Action Machine Repair}
    (h : repair.Keeps I) (phases : ℕ) : (runPhases phaseOne repair phases).Keeps I := by
  induction phases with
  | zero => exact keeps_fail _
  | succ phases ih =>
    refine (hI.inner.keeps_values fun _ _ => onlyValues_movedToBounds).bind fun _ s hs => ?_
    refine (hI.ends_flipToDualFeasibility 2 hs).bind (fun u t ht => ?_) fun _ _ ht => ht.1
    refine (ends_restsDualFeasible phaseOne t).bind (fun feasible v hv => ?_) fun _ v hv => hv ▸ ht.1
    subst hv
    split
    · exact ends_get_bind ((hI.keeps_iterate _ _ _ v ⟨ht.1, ht.2 u rfl⟩).mono fun _ _ h => h.1)
    · refine (h v ht.1).bind (fun outcome w hw => ?_) fun _ _ h => h
      split
      · exact ih w hw
      · exact keeps_pure _ w hw
      · exact keeps_pure _ w hw

theorem Preserves.keeps_runWith (phaseOne : Bool) {repair : Action Machine Repair}
    (h : repair.Keeps I) : (runWith phaseOne repair).Keeps I := by
  refine keeps_get_bind fun s _ => ?_
  split
  · refine (hI.inner.keeps_record _).bind fun _ => Keeps.bind (keeps_modify fun t ht => ?_) fun _ => keeps_pure _
    exact hI.inner _ _ (.notes t _ t.guess t.stuck t.log) ht
  · refine Keeps.bind (keeps_modify fun t ht => ?_) fun _ => hI.keeps_runPhases phaseOne h _
    exact hI.inner _ _ (.notes t t.proof t.guess none t.log) ht

end Moves

theorem keeps_solve (hrun : run.Keeps I) (hperturbed : solvePerturbed.Keeps I) (runs : ℕ) :
    (solve runs).Keeps I := by
  induction runs with
  | zero => exact keeps_fail _
  | succ runs ih =>
    refine hrun.bind fun ending => ?_
    split
    · exact keeps_pure _
    · exact hperturbed.bind fun _ => ih

section Changes
variable (hI : Preserves Changes I)
include hI

theorem Preserves.keeps_clearBasis : clearBasis.Keeps I :=
  keeps_step fun s t hs ht => hI s t (.cleared ht) hs

theorem Preserves.keeps_setBase (structural slack : List Status) : (setBase structural slack).Keeps I := by
  intro s hs
  refine ends_get_bind (ends_lift_bind (fun _ hstructural => ?_) fun _ _ => hs)
  refine ends_lift_bind (fun _ hslack => ends_lift_bind (fun _ hcount => ?_) fun _ _ => hs) fun _ _ => hs
  -- clearing keeps the size, so the import fits as before
  have hclear : clearBasis.Ends s fun _ t => I t ∧ t.numCols = s.numCols ∧ t.numRows = s.numRows := by
    refine ends_step (fun t ht => ⟨hI s t (.cleared ht) hs, ?_⟩) fun _ _ => ⟨hs, rfl, rfl⟩
    obtain ⟨_, _, -, -, rfl⟩ := cleared_eq ht
    exact ⟨rfl, rfl⟩
  refine hclear.bind (fun _ t ht => ?_) fun _ _ ht => ht.1
  refine Ends.bind (J := fun _ => I) (ends_step (fun u hu => ?_) fun _ _ => ht.1) (fun _ u hu => ?_) fun _ _ h => h
  · refine hI t u (.imported ?_ ?_ hu) ht.1
    · rw [List.length_append, ht.2.1, ht.2.2, requireLength_eq_ok_iff.mp hstructural,
        requireLength_eq_ok_iff.mp hslack]
    · rw [ht.2.2]
      exact require_eq_ok_iff.mp hcount
  · exact keeps_modify (fun v hv => hI.moves.inner _ _ (.notes v none v.guess none v.log) hv) u hu

theorem Preserves.keeps_setGuess (ray : List Double) : (setGuess ray).Keeps I :=
  keeps_get_bind fun _ _ => (keeps_lift _).bind fun _ => keeps_modify fun s hs =>
    hI.moves.inner _ _ (.notes s s.proof (some ray) s.stuck s.log) hs

theorem Preserves.keeps_follow (suggestion : Suggestion) : (follow suggestion).Keeps I := by
  refine (hI.keeps_setBase _ _).attempt_bind fun outcome => (hI.moves.inner.keeps_record _).bind fun _ => ?_
  cases suggestion.ray with
  | none => exact keeps_pure _
  | some ray =>
    refine (hI.keeps_setGuess ray).attempt_bind fun outcome => ?_
    split
    · exact keeps_pure _
    · exact hI.moves.inner.keeps_record _

theorem Preserves.keeps_factorizeImported : factorizeImported.Keeps I := by
  refine keeps_get_bind fun s _ => ?_
  split
  · refine hI.moves.keeps_refactor.attempt_bind fun outcome => ?_
    split
    · exact keeps_pure _
    · exact (hI.moves.inner.keeps_record _).bind fun _ => keeps_modify fun s hs => hI _ _ (.dropped s) hs
  · exact keeps_pure _

theorem Preserves.keeps_logicalBasis : logicalBasis.Keeps I := by
  refine hI.keeps_clearBasis.bind fun _ => Keeps.bind (keeps_modify fun s hs => ?_) fun _ => ?_
  · exact hI _ _ (.slack s) hs
  · exact hI.moves.keeps_refactor

theorem Preserves.keeps_checkGuess : checkGuess.Keeps I := by
  refine keeps_get_bind fun s _ => ?_
  split
  · exact keeps_pure _
  · refine (keeps_lift _).bind fun outcome => ?_
    split
    · exact (hI.moves.inner.keeps_record _).bind fun _ => keeps_pure _
    · refine hI.moves.keeps_factorization.bind fun F => (keeps_lift _).bind fun y => ?_
      refine keeps_get_bind fun t _ => (keeps_lift _).bind fun proves => ?_
      split
      · refine Keeps.bind (keeps_modify fun s hs => ?_) fun _ => keeps_pure _
        exact hI.moves.inner _ _ (.notes s (some y) s.guess s.stuck s.log) hs
      · exact (hI.moves.inner.keeps_record _).bind fun _ => keeps_pure _

theorem Preserves.keeps_infeasibilityProof : infeasibilityProof.Keeps I := by
  refine keeps_get_bind fun s _ => ?_
  split
  · exact keeps_pure _
  · exact keeps_pure _
  · refine (keeps_lift _).bind fun position => ?_
    split
    · exact keeps_pure _
    · refine (keeps_lift _).bind fun b => (keeps_lift _).bind fun x => (keeps_lift _).bind fun ray => ?_
      refine hI.moves.keeps_factorization.bind fun F => (keeps_lift _).bind fun y => ?_
      refine Keeps.bind (keeps_modify fun s hs => ?_) fun _ => keeps_pure _
      exact hI.moves.inner _ _ (.notes s (some y) s.guess s.stuck s.log) hs

end Changes

end ExactSimplex.Machine
