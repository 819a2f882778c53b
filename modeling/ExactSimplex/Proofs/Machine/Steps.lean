import ExactSimplex.Machine.Solve
import ExactSimplex.Proofs.Checked
import ExactSimplex.Proofs.Matrix

/-! # What the steps of a machine change

Each step of a machine changes a few of its lists. What it can make of a machine is said here once, and the
rest of the machine is as it was.
-/
namespace ExactSimplex.Machine
open ExactSimplex.Action
variable {s t : Machine}

section Actions
variable {α : Type} {f : Machine → Except Failure Machine} {K : Except Error Unit → Machine → Prop}
  {I : Machine → Prop}

theorem run_step (ht : f s = .ok t) : (step f).run s = .ok (.ok (), t) := by
  rw [step, run_get_bind, run_lift_bind ht]
  rfl

theorem of_run_step {u : Unit} (h : (step f).run s = .ok (.ok u, t)) : f s = .ok t := by
  obtain ⟨_, hf, h⟩ := exists_of_run_lift_bind h
  cases h
  exact hf

theorem ends_step (hvalue : ∀ t, f s = .ok t → K (.ok ()) t)
    (hrefused : ∀ cause, f s = .error (.refused cause) → K (.error cause) s) : (step f).Ends s K := by
  refine ends_get_bind (ends_lift_bind (fun t ht => ?_) hrefused)
  intro r u h
  cases h
  exact hvalue t ht

theorem keeps_step (h : ∀ s t, I s → f s = .ok t → I t) : (step f).Keeps I :=
  fun s hs => ends_step (fun t ht => h s t hs ht) fun _ _ => hs

theorem keeps_refuse (cause : Error) : (refuse cause : Action Machine α).Keeps I := keeps_lift _

theorem keeps_fail (failure : Failure) : (fail failure : Action Machine α).Keeps I := keeps_lift _

end Actions

theorem cleared_eq (h : s.cleared = .ok t) :
    ∃ basicPosition nonbasicPosition,
      notePositions (List.replicate (s.numCols + s.numRows) none) (List.range' s.numCols s.numRows) =
        .ok basicPosition ∧
      notePositions (List.replicate (s.numCols + s.numRows) none) (List.range s.numCols) =
        .ok nonbasicPosition ∧
      t = { s with
        hasBasis := false
        factors := none
        updates := 0
        weights := none
        stuck := none
        basic := List.range' s.numCols s.numRows
        nonbasic := List.range s.numCols
        basicPosition := basicPosition
        nonbasicPosition := nonbasicPosition
        x := List.replicate (s.numCols + s.numRows) 0
        d := List.replicate s.numCols 0 } := by
  obtain ⟨basicPosition, hbasic, h⟩ := exists_of_bind_eq_ok h
  obtain ⟨nonbasicPosition, hnonbasic, h⟩ := exists_of_bind_eq_ok h
  cases h
  exact ⟨basicPosition, nonbasicPosition, hbasic, hnonbasic, rfl⟩

theorem refactored_eq (h : s.refactored = .ok t) :
    ∃ columns F order basic basicPosition weights,
      s.basic.mapM s.column = .ok columns ∧
      BasisFactors.decompose columns s.config.searchLimit = .ok (F, order) ∧
      order.mapM (read s.basic) = .ok basic ∧
      notePositions s.basicPosition basic = .ok basicPosition ∧
      s.weights.mapM (fun weights => order.mapM (read weights)) = .ok weights ∧
      t = { s with
        basic := basic
        basicPosition := basicPosition
        weights := weights
        log := s.log.push (.factorized s.updates F.factors.upperCount)
        factors := some F
        updates := 0 } := by
  obtain ⟨columns, hcolumns, h⟩ := exists_of_bind_eq_ok h
  obtain ⟨⟨F, order⟩, hdecompose, h⟩ := exists_of_bind_eq_ok h
  obtain ⟨basic, hbasic, h⟩ := exists_of_bind_eq_ok h
  obtain ⟨basicPosition, hpositions, h⟩ := exists_of_bind_eq_ok h
  obtain ⟨weights, hweights, h⟩ := exists_of_bind_eq_ok h
  cases h
  exact ⟨columns, F, order, basic, basicPosition, weights, hcolumns, hdecompose, hbasic, hpositions,
    hweights, rfl⟩

/-- Nothing but values of variables differs, and no value is added or lost. -/
def OnlyValues (s t : Machine) : Prop := ∃ x, x.length = s.x.length ∧ t = { s with x := x }

theorem onlyValues_setBasic {w : List ℚ} (h : s.setBasic w = .ok t) : s.OnlyValues t := by
  obtain ⟨x, hx, h⟩ := exists_of_bind_eq_ok h
  cases h
  refine ⟨x, of_foldlM (I := fun x => x.length = s.x.length) hx rfl fun x e _ y hlength hy => ?_, rfl⟩
  obtain ⟨j, -, hy⟩ := exists_of_bind_eq_ok hy
  exact (length_of_write hy).trans hlength

theorem onlyValues_shiftBasic {factor : ℚ} {w : List ℚ} (h : s.shiftBasic factor w = .ok t) :
    s.OnlyValues t := by
  obtain ⟨x, hx, h⟩ := exists_of_bind_eq_ok h
  cases h
  refine ⟨x, of_foldlM (I := fun x => x.length = s.x.length) hx rfl fun x e _ y hlength hy => ?_, rfl⟩
  split at hy
  · cases hy
    exact hlength
  · obtain ⟨j, -, hy⟩ := exists_of_bind_eq_ok hy
    exact (length_of_change hy).trans hlength

theorem onlyValues_movedToBounds (h : s.movedToBounds = .ok t) : s.OnlyValues t := by
  obtain ⟨x, hx, h⟩ := exists_of_bind_eq_ok h
  cases h
  refine ⟨x, of_foldlM (I := fun x => x.length = s.x.length) hx rfl fun x j _ y hlength hy => ?_, rfl⟩
  obtain ⟨b, -, hy⟩ := exists_of_bind_eq_ok hy
  obtain ⟨v, -, hy⟩ := exists_of_bind_eq_ok hy
  exact (length_of_write hy).trans hlength

theorem OnlyValues.trans {u : Machine} (h : s.OnlyValues t) (h' : t.OnlyValues u) : s.OnlyValues u := by
  obtain ⟨x, hx, rfl⟩ := h
  obtain ⟨y, hy, rfl⟩ := h'
  exact ⟨y, hy.trans hx, rfl⟩

theorem onlyValues_change {j : ℕ} {f : ℚ → ℚ} {x : List ℚ} (h : change s.x j f = .ok x) :
    s.OnlyValues { s with x := x } := ⟨x, length_of_change h, rfl⟩

theorem onlyValues_flip {shift : List ℚ} {e : ℕ × ℚ} {r : Machine × List ℚ}
    (h : s.flip shift e = .ok r) : s.OnlyValues r.1 := by
  obtain ⟨x, hx, h⟩ := exists_of_bind_eq_ok h
  obtain ⟨shift, -, h⟩ := exists_of_bind_eq_ok h
  cases h
  exact onlyValues_change hx

theorem onlyValues_flipped {F : BasisFactors} {flips : List (ℕ × ℚ)} (h : flipped F flips s = .ok t) :
    s.OnlyValues t := by
  unfold flipped at h
  split at h
  · cases h
    exact ⟨s.x, rfl, rfl⟩
  · obtain ⟨moved, hmoved, h⟩ := exists_of_bind_eq_ok h
    obtain ⟨w, -, h⟩ := exists_of_bind_eq_ok h
    have hs : s.OnlyValues moved.1 :=
      of_foldlM (I := fun e : Machine × List ℚ => s.OnlyValues e.1) hmoved ⟨s.x, rfl, rfl⟩
        fun e f _ r he hr => he.trans (onlyValues_flip hr)
    exact hs.trans (onlyValues_shiftBasic h)

theorem onlyValues_steppedPrimal {l : Departure} {q : ℕ} {alphaColumn : List ℚ}
    (h : steppedPrimal l q alphaColumn s = .ok t) : s.OnlyValues t := by
  obtain ⟨target, -, h⟩ := exists_of_bind_eq_ok h
  obtain ⟨x, -, h⟩ := exists_of_bind_eq_ok h
  obtain ⟨alpha, -, h⟩ := exists_of_bind_eq_ok h
  obtain ⟨theta, -, h⟩ := exists_of_bind_eq_ok h
  obtain ⟨u, hu, h⟩ := exists_of_bind_eq_ok h
  obtain ⟨y, hy, h⟩ := exists_of_bind_eq_ok h
  cases h
  exact (onlyValues_shiftBasic hu).trans (onlyValues_change hy)

/-- A departure is that of the basic variable at its row. -/
theorem basic_of_selectLeaving {steepest : Bool} {l : Departure}
    (h : s.selectLeaving steepest = .ok (some l)) : s.basic[l.row]? = some l.var := by
  obtain ⟨best, hbest, h⟩ := exists_of_bind_eq_ok h
  have hall : ∀ c ∈ best, s.basic[c.2.row]? = some c.2.var := by
    refine of_foldlM (I := fun best : Option (ℚ × Departure) => ∀ c ∈ best, s.basic[c.2.row]? = some c.2.var)
      hbest (by simp) fun best e he next hI hnext => ?_
    obtain ⟨found, hfound, hnext⟩ := exists_of_bind_eq_ok hnext
    cases found with
    | none =>
      cases hnext
      exact hI
    | some c =>
      obtain ⟨scored, -, hnext⟩ := exists_of_bind_eq_ok hnext
      have hc : s.basic[c.2.row]? = some c.2.var := by
        obtain ⟨b, -, hfound⟩ := exists_of_bind_eq_ok hfound
        obtain ⟨x, -, hfound⟩ := exists_of_bind_eq_ok hfound
        obtain ⟨v, -, rfl⟩ := Option.map_eq_some_iff.mp (Except.ok.inj hfound)
        exact List.mem_zipIdx_iff_getElem?.mp he
      dsimp only at hnext
      split at hnext
      · cases hnext
        rintro _ ⟨⟩
        exact hc
      · cases hnext
        exact hI
  obtain ⟨c, hc, rfl⟩ := Option.map_eq_some_iff.mp (Except.ok.inj h)
  exact hall c hc

/-- Boxed variables are moved without a value being added or lost. -/
theorem length_of_flippedBoxed {result : List ℚ × ℕ} (h : s.flippedBoxed = .ok result) :
    result.1.length = s.x.length := by
  refine of_foldlM (I := fun e : List ℚ × ℕ => e.1.length = s.x.length) h rfl fun e v _ e' he hv => ?_
  obtain ⟨b, -, hv⟩ := exists_of_bind_eq_ok hv
  obtain ⟨y, -, hv⟩ := exists_of_bind_eq_ok hv
  obtain ⟨d, -, hv⟩ := exists_of_bind_eq_ok hv
  split at hv
  · cases hv
    exact he
  · obtain ⟨z, hz, hv⟩ := exists_of_bind_eq_ok hv
    cases hv
    exact (length_of_write hz).trans he

theorem reduced_eq {product : List ℚ} (h : reduced product s = .ok t) :
    ∃ d, (s.nonbasic.zip product).mapM (fun e => do return (← s.cost e.1) - e.2) = .ok d ∧
      t = { s with d := d } := by
  obtain ⟨d, hd, h⟩ := exists_of_bind_eq_ok h
  cases h
  exact ⟨d, hd, rfl⟩

theorem steppedDual_eq {k : ℕ} {alphaRow : List ℚ} (h : steppedDual k alphaRow s = .ok t) :
    ∃ d, d.length = s.d.length ∧ t = { s with d := d } := by
  obtain ⟨v, -, h⟩ := exists_of_bind_eq_ok h
  obtain ⟨alpha, -, h⟩ := exists_of_bind_eq_ok h
  obtain ⟨theta, -, h⟩ := exists_of_bind_eq_ok h
  obtain ⟨d, hd, h⟩ := exists_of_bind_eq_ok h
  obtain ⟨d', hd', h⟩ := exists_of_bind_eq_ok h
  cases h
  exact ⟨d', (length_of_write hd').trans (length_of_changeAlong hd), rfl⟩

theorem reweighted_eq {r : ℕ} {alphaColumn tau : List ℚ} (h : reweighted r alphaColumn tau s = .ok t) :
    ∃ weights, (∀ w, weights = some w → ∃ v, s.weights = some v ∧ w.length = v.length) ∧
      t = { s with weights := weights } := by
  unfold reweighted at h
  split at h
  · next hnone =>
    cases h
    exact ⟨s.weights, fun w hw => ⟨w, hw, rfl⟩, rfl⟩
  · next v hv =>
    obtain ⟨weights, hweights, h⟩ := exists_of_bind_eq_ok h
    cases h
    refine ⟨weights, fun w hw => ⟨v, hv, ?_⟩, rfl⟩
    rw [hw, updatedWeights] at hweights
    split at hweights
    · cases hweights
    · obtain ⟨pivot, -, h⟩ := exists_of_bind_eq_ok hweights
      obtain ⟨beta, -, h⟩ := exists_of_bind_eq_ok h
      obtain ⟨first, -, h⟩ := exists_of_bind_eq_ok h
      obtain ⟨v', hv', h⟩ := exists_of_bind_eq_ok h
      obtain ⟨w', hw', h⟩ := exists_of_bind_eq_ok h
      cases h
      exact (length_of_changeAlong hw').trans (length_of_write hv')

theorem exchanged_eq {l : Departure} {k q : ℕ} (h : exchanged l k q s = .ok t) :
    ∃ basicPosition nonbasicPosition,
      l.row < s.basic.length ∧ q < s.basicPosition.length ∧ k < s.nonbasic.length ∧
      l.var < s.nonbasicPosition.length ∧
      basicPosition = (s.basicPosition.set q (some l.row)).set l.var none ∧
      nonbasicPosition = (s.nonbasicPosition.set l.var (some k)).set q none ∧
      t = { s with
        basic := s.basic.set l.row q
        basicPosition := basicPosition
        nonbasic := s.nonbasic.set k l.var
        nonbasicPosition := nonbasicPosition
        updates := s.updates + 1 } := by
  obtain ⟨basic, hbasic, h⟩ := exists_of_bind_eq_ok h
  obtain ⟨p, hp, h⟩ := exists_of_bind_eq_ok h
  obtain ⟨p', hp', h⟩ := exists_of_bind_eq_ok h
  obtain ⟨nonbasic, hnonbasic, h⟩ := exists_of_bind_eq_ok h
  obtain ⟨u, hu, h⟩ := exists_of_bind_eq_ok h
  obtain ⟨u', hu', h⟩ := exists_of_bind_eq_ok h
  cases h
  obtain ⟨hr, rfl⟩ := write_eq_ok_iff.mp hbasic
  obtain ⟨hq, rfl⟩ := write_eq_ok_iff.mp hp
  obtain ⟨-, rfl⟩ := write_eq_ok_iff.mp hp'
  obtain ⟨hk, rfl⟩ := write_eq_ok_iff.mp hnonbasic
  obtain ⟨hv, rfl⟩ := write_eq_ok_iff.mp hu
  obtain ⟨-, rfl⟩ := write_eq_ok_iff.mp hu'
  exact ⟨_, _, hr, hq, hk, hv, rfl, rfl, rfl⟩

theorem imported_eq {statuses : List Status} (h : imported statuses s = .ok t) :
    ∃ x basic nonbasic basicPosition nonbasicPosition,
      statuses.zipIdx.foldlM (fun e v => s.placed e v.1 v.2) (s.x, [], []) = .ok (x, basic, nonbasic) ∧
      notePositions (s.basicPosition.map fun _ => none) basic = .ok basicPosition ∧
      notePositions (s.nonbasicPosition.map fun _ => none) nonbasic = .ok nonbasicPosition ∧
      t = { s with
        x := x
        basic := basic
        basicPosition := basicPosition
        nonbasic := nonbasic
        nonbasicPosition := nonbasicPosition
        hasBasis := true } := by
  obtain ⟨⟨x, basic, nonbasic⟩, hplaced, h⟩ := exists_of_bind_eq_ok h
  obtain ⟨basicPosition, hbasic, h⟩ := exists_of_bind_eq_ok h
  obtain ⟨nonbasicPosition, hnonbasic, h⟩ := exists_of_bind_eq_ok h
  cases h
  exact ⟨x, basic, nonbasic, basicPosition, nonbasicPosition, hplaced, hbasic, hnonbasic, rfl⟩

section Threads

/-- Nothing but the helpers and what is still to happen outside differs. -/
def OnlyThreads (s t : Machine) : Prop :=
  ∃ multiplier steepestEdge schedule,
    t = { s with multiplier := multiplier, steepestEdge := steepestEdge, schedule := schedule }

theorem OnlyThreads.refl (s : Machine) : s.OnlyThreads s :=
  ⟨s.multiplier, s.steepestEdge, s.schedule, rfl⟩

theorem ends_nextTurn : nextTurn.Ends s fun _ t => ∃ schedule, t = { s with schedule := schedule } := by
  refine ends_get_bind ?_
  intro r t h
  cases hs : s.schedule with
  | nil =>
    rw [hs] at h
    cases h
    exact ⟨s.schedule, rfl⟩
  | cons turn rest =>
    rw [hs] at h
    cases h
    exact ⟨rest, rfl⟩

theorem length_addNonbasic {J : Multiplication} {total result : List ℚ} {j : ℕ} {value : ℚ}
    (h : J.addNonbasic total j value = .ok result) : result.length = total.length := by
  obtain ⟨position, -, h⟩ := exists_of_bind_eq_ok h
  split at h
  · exact length_of_change h
  · cases h
    rfl

theorem length_addRow {J : Multiplication} {total result : List ℚ} {i : ℕ}
    (h : J.addRow total i = .ok result) : result.length = total.length := by
  obtain ⟨factor, -, h⟩ := exists_of_bind_eq_ok h
  split at h
  · cases h
    rfl
  · obtain ⟨entries, -, h⟩ := exists_of_bind_eq_ok h
    obtain ⟨added, hadded, h⟩ := exists_of_bind_eq_ok h
    refine (length_addNonbasic h).trans ?_
    exact of_foldlM (I := fun a : List ℚ => a.length = total.length) hadded rfl
      fun a e _ b ha hb => (length_addNonbasic hb).trans ha

theorem length_accumulate {J : Multiplication} {start : ℕ} {p q : Portion}
    (h : J.accumulate start p = .ok q) : q.total.length = p.total.length := by
  unfold Multiplication.accumulate at h
  dsimp only at h
  split at h
  · cases h
    rfl
  · obtain ⟨total, htotal, h⟩ := exists_of_bind_eq_ok h
    cases h
    exact of_foldlM (I := fun a : List ℚ => a.length = p.total.length) htotal rfl
      fun a i _ b ha hb => (length_addRow hb).trans ha

/-- A share of a product has as many entries as there are variables besides the rows. -/
theorem length_divide {J : Multiplication} {claims : List Accumulator} {portions : Portions}
    (h : J.divide claims = .ok portions) :
    portions.caller.total.length = J.positions.length - J.matrix.rowCount := by
  obtain ⟨size, hsize, h⟩ := exists_of_bind_eq_ok h
  obtain ⟨-, rfl⟩ := subtract_eq_ok_iff.mp hsize
  refine of_foldlM (I := fun d : Portions => d.caller.total.length = _) h List.length_replicate ?_
  intro d a _ d' hd hd'
  cases a with
  | caller =>
    rw [Multiplication.claim] at hd'
    split at hd'
    · cases hd'
      exact hd
    · obtain ⟨caller, hcaller, hd'⟩ := exists_of_bind_eq_ok hd'
      cases hd'
      exact (length_accumulate hcaller).trans hd
  | helper =>
    rw [Multiplication.claim] at hd'
    split at hd'
    · cases hd'
      exact hd
    · obtain ⟨helper, -, hd'⟩ := exists_of_bind_eq_ok hd'
      cases hd'
      exact hd

theorem ends_multiply (y : List ℚ) :
    (multiply y).Ends s fun r t => s.OnlyThreads t ∧ ∀ product, r = .ok product → product.length = s.numCols := by
  have hrefused : ∀ {cause t}, s.OnlyThreads t → s.OnlyThreads t ∧
      ∀ product, (.error cause : Except Error (List ℚ)) = .ok product → product.length = s.numCols :=
    fun ht => ⟨ht, fun _ h => by cases h⟩
  refine ends_get_bind (ends_lift_bind (fun _ _ => ?_) fun _ _ => hrefused (.refl s))
  refine ends_lift_bind (fun _ hlength => ?_) fun _ _ => hrefused (.refl s)
  refine ends_lift_bind (fun _ _ => ?_) fun _ _ => hrefused (.refl s)
  refine ends_nextTurn.bind (fun turn t ht => ?_) fun _ t ht => ?_
  · obtain ⟨schedule, rfl⟩ := ht
    have hturn : s.OnlyThreads { s with schedule := schedule } := ⟨_, _, _, rfl⟩
    refine ends_lift_bind (fun portions hportions => ?_) fun _ _ => hrefused hturn
    refine ends_lift_bind (fun _ _ => ?_) fun _ _ => hrefused hturn
    refine ends_lift_bind (fun _ _ => ?_) fun _ _ => hrefused hturn
    refine ends_modify_bind (ends_lift (fun product hproduct => ?_) fun _ _ => hrefused ⟨_, _, _, rfl⟩)
    refine ⟨⟨_, _, _, rfl⟩, ?_⟩
    rintro _ ⟨⟩
    rw [length_of_changeAlong hproduct, length_divide hportions]
    dsimp only
    rw [ensure_eq_ok_iff.mp hlength, numRows, Nat.add_sub_cancel_left]
  · obtain ⟨schedule, rfl⟩ := ht
    exact hrefused ⟨_, _, _, rfl⟩

theorem ends_startTau (F : BasisFactors) (rho : List ℚ) :
    (startTau F rho).Ends s fun _ t => s.OnlyThreads t := by
  refine ends_nextTurn.bind (fun turn t ht => ?_) fun _ t ht => ?_
  · obtain ⟨schedule, rfl⟩ := ht
    refine ends_step (fun t ht => ?_) fun _ _ => ⟨_, _, _, rfl⟩
    obtain ⟨helper, -, ht⟩ := exists_of_bind_eq_ok ht
    cases ht
    exact ⟨_, _, _, rfl⟩
  · obtain ⟨schedule, rfl⟩ := ht
    exact ⟨_, _, _, rfl⟩

theorem ends_waitForTau : waitForTau.Ends s fun _ t => s.OnlyThreads t := by
  refine ends_get_bind ?_
  split
  · intro r t h
    cases h
    exact .refl s
  · refine ends_lift_bind (fun result _ => ?_) fun _ _ => .refl s
    intro r t h
    cases h
    exact ⟨_, _, _, rfl⟩

end Threads

end ExactSimplex.Machine
