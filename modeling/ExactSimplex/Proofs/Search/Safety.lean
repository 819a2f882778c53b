import ExactSimplex.Proofs.Factor.Safety
import ExactSimplex.Proofs.Search.Run

/-! # Searches without a failing step

In a sound state all divisors are different from zero: the diagonals of the factors and the weights. In
a ready state the pivot row and the pivot column agree on the pivot element, which is not zero, and the
factors of the exchanged basis can be had from an update as well as from scratch. No update is ever
refused, and the log of a solve shows it.
-/
namespace ExactSimplex
open Matrix
variable {n m : ℕ}

def Event.isRefusal : Event → Bool
  | .updateRefused _ => true
  | _ => false

/-- The refused updates in a log. -/
abbrev refusals (log : Array Event) : List Event := logged Event.isRefusal log

namespace State
variable {P : Problem n m} {s t u : State n m}

/-- What the computations with a state rely on: the nonbasic places are as many as the reduced costs, every
row is processed once, and weights and diagonals can be divided by. -/
structure Checks (s : State n m) : Prop where
  nonbasic : (Var.all n m).countP (fun v => !s.basis.isBasic v) = n
  order : s.factors.order.length = m
  weights : ∀ w, s.weights = some w → ∀ i, 0 < w.get i
  rows : ∀ i, (s.factors.rows.get i).diagonal ≠ 0
  columns : ∀ i, (s.factors.columns.get i).diagonal ≠ 0

theorem Sound.checks (h : s.Sound P) : s.Checks where
  nonbasic := h.basis.countP_nonbasic
  order := h.factors.length_order
  weights _ hw i := h.weight_pos hw i
  rows := h.factors.diagonal_ne_zero
  columns i := by
    rw [h.factors.columns_diagonal]
    exact h.factors.diagonal_ne_zero i

/-- What the exchange of a leaving and an entering variable relies on: pivot row and pivot column agree
on an element that is not zero, every step of the exchange can be made, and the new basis can be
factorized from scratch as well as by an update, which adds a proper eta. -/
def CanExchange (P : Problem n m) (cfg : Config) (s : State n m) (l : Leaving n m)
    (e : Entering n m) (rho : Vec m) : Prop :=
  ∃ alphaColumn t,
    s.factors.solve (SparseVec.addTo (P.column (s.basis.nonbasic.get e.position)) 1 (Vec.zero m)) =
      some alphaColumn ∧
    (P.nonbasicProduct s.basis.place rho).get e.position = alphaColumn.get l.row ∧
    alphaColumn.get l.row ≠ 0 ∧
    s.exchange P l e rho (P.nonbasicProduct s.basis.place rho) alphaColumn = some t ∧
    (∃ u, t.refactor P cfg = .ok u) ∧
    ∃ F multipliers, t.factors.replaceColumn l.row
        (SparseVec.addTo (P.column (s.basis.nonbasic.get e.position)) 1 (Vec.zero m)) = .ok F ∧
      F.updateEtas = Eta.append t.factors.updateEtas ⟨l.row, multipliers⟩ ∧
      Eta.Proper ⟨l.row, multipliers⟩

/-- What a pass relies on, by either rule: the violations can be compared, the pivot row can be
computed, no ratio has a zero below the line, and whatever enters can be exchanged. -/
def PivotsSafely (P : Problem n m) (cfg : Config) (s : State n m) : Prop :=
  ∀ bland, ∃ leaving, s.chooseLeaving P bland = some leaving ∧ ∀ l, leaving = some l →
    ∃ rho, s.factors.solveTransposed (Vec.unit l.row) = some rho ∧
      (∀ c ∈ s.candidates P l.side (P.nonbasicProduct s.basis.place rho),
        towards l.side ((P.nonbasicProduct s.basis.place rho).get c.2) ≠ 0) ∧
      ∀ e, s.chooseEntering P bland l (P.nonbasicProduct s.basis.place rho) = some e →
        CanExchange P cfg s l e rho

theorem Ready.canExchange (h : s.Ready P) (hA : P.matrix.Simple) (cfg : Config) {l : Leaving n m}
    (hl : s.Leaves P l) {e : Entering n m} (hne : P.tableau s.basis l.row e.position ≠ 0)
    {rho : Vec m} (hget : rho.get = P.inverseRow s.basis l.row)
    (hrow : ∀ k, (P.nonbasicProduct s.basis.place rho).get k = P.tableau s.basis l.row k) :
    CanExchange P cfg s l e rho := by
  obtain ⟨alphaColumn, hcol, hB⟩ := h.pivotColumn_eq hA.toMirrored e.position
  obtain ⟨t, ht, hex⟩ := h.toSound.exchange_eq hA.toMirrored h.balanced hl.var_eq e hget hrow hB hne
  have hpivot : alphaColumn.get l.row = P.tableau s.basis l.row e.position :=
    Problem.combination_eq_of_mulVec h.isUnit (funext hB) l.row
  have hentry := get_addTo_column hA.toMirrored (s.basis.nonbasic.get e.position)
  have hunit : IsUnit (P.basisMatrix (s.basis.exchange l.row e.position)) :=
    Problem.isUnit_exchange h.isUnit hne
  obtain ⟨u, hu, _⟩ := refactor_eq (s := t) hA cfg
    (by rw [hex.basis_eq]; exact h.basis.exchange l.row e.position)
    (by rw [hex.basis_eq]; exact hunit) hex.weights
  rw [basisMatrix_exchange P s.basis l.row e.position hentry] at hunit
  obtain ⟨F, multipliers, hF, _, hetas, hproper⟩ := h.factors.replaceColumn_eq hunit
  refine ⟨alphaColumn, t, hcol, ?_, ?_, ht, ⟨u, hu⟩, F, multipliers, ?_, ?_, hproper⟩
  · rw [hrow, hpivot]
  · rw [hpivot]
    exact hne
  · rw [hex.factors_eq]
    exact hF
  · rw [hex.factors_eq]
    exact hetas

theorem Ready.pivotsSafely (h : s.Ready P) (hA : P.matrix.Simple)
    (hc : ∀ v, (P.bounds.get v).Consistent) (cfg : Config) : s.PivotsSafely P cfg := by
  intro bland
  rcases h.chooseLeaving_cases bland with ⟨hnone, _⟩ | ⟨l, hsome, hl, _⟩
  · exact ⟨none, hnone, fun l hl => by cases hl⟩
  · refine ⟨some l, hsome, fun l' hl' => ?_⟩
    cases hl'
    obtain ⟨rho, hrho, hget, hrow⟩ := h.pivotRow_eq l.row
    refine ⟨rho, hrho, fun c hcand => (mem_candidates.mp hcand).1.1, fun e he => ?_⟩
    rcases h.chooseEntering_cases hc bland l (P.nonbasicProduct s.basis.place rho) with
      ⟨hn, _⟩ | ⟨e', he', henters⟩
    · cases hn.symm.trans he
    · cases he'.symm.trans he
      exact h.canExchange hA cfg hl (henters.tableau_ne_zero hrow) hget hrow

/-- Every pass of a loop that is entered finds what it relies on. -/
theorem Entry.checks {Q : Problem n m} {cfg : Config} {mayStall : Bool} {length k : ℕ}
    {p : ℕ → Progress} {s : ℕ → State n m} (h : Entry P Q (s 0)) (hA : P.matrix.Simple)
    (hc : ∀ v, (P.bounds.get v).Consistent) (ht : Trace Q cfg mayStall length p s) (hk : k ≤ length) :
    (s k).Checks ∧ (s k).PivotsSafely Q cfg := by
  have hstart := h.ready hA
  cases h with
  | main =>
    have hready := ht.ready hstart hA hc hk
    exact ⟨hready.toSound.checks, hready.pivotsSafely hA hc cfg⟩
  | phaseOne =>
    have hready := ht.ready hstart hA (consistent_surrogate P) hk
    exact ⟨hready.toSound.checks, hready.pivotsSafely hA (consistent_surrogate P) cfg⟩

section Log

theorem refusals_recordAll {es : List Event} (he : ∀ e ∈ es, e.isRefusal = false) :
    refusals (s.recordAll es).log = refusals s.log := by
  induction es generalizing s with
  | nil => rfl
  | cons e es ih =>
    exact (ih fun a ha => he a (List.mem_cons_of_mem e ha)).trans
      (logged_push s.log (he e List.mem_cons_self))

theorem eq_some_of_divided {α : Type} {o : Option α} {a : α} (h : s.divided o = .ok a) :
    o = some a := by
  cases o with
  | none => cases h
  | some b =>
    cases h
    rfl

theorem log_of_recompute (h : s.recompute P = some t) : t.log = s.log := by
  obtain ⟨u, hu, ht⟩ := Option.bind_eq_some_iff.mp h
  obtain ⟨_, _, rfl⟩ := Option.map_eq_some_iff.mp hu
  obtain ⟨_, _, rfl⟩ := Option.map_eq_some_iff.mp ht
  rfl

theorem log_of_exchange {l : Leaving n m} {e : Entering n m} {rho alphaColumn : Vec m}
    {alphaRow : Vec n} (h : s.exchange P l e rho alphaRow alphaColumn = some t) :
    t.log = s.log := by
  obtain ⟨_, _, h⟩ := Option.bind_eq_some_iff.mp h
  obtain ⟨_, _, h⟩ := Option.bind_eq_some_iff.mp h
  obtain ⟨_, _, h⟩ := Option.bind_eq_some_iff.mp h
  obtain ⟨_, _, h⟩ := Option.bind_eq_some_iff.mp h
  cases h
  rfl

theorem refusals_of_refactor {cfg : Config} (h : s.refactor P cfg = .ok t) :
    refusals t.log = refusals s.log := by
  unfold refactor at h
  split at h
  · next next hnext =>
    cases h
    exact logged_of_ofPoint (fun _ _ => rfl) hnext
  · cases h

theorem refusals_of_renewFactors {cfg : Config} {r : Fin m} {column : Vec m} {F : Factorization m}
    (hF : s.factors.replaceColumn r column = .ok F) (h : s.renewFactors P cfg r column = .ok t) :
    refusals t.log = refusals s.log := by
  unfold renewFactors at h
  split at h
  · exact refusals_of_refactor h
  · rw [hF] at h
    cases h
    rfl

theorem refusals_of_renewWeights {cfg : Config} {iterations : ℕ}
    (h : s.renewWeights cfg iterations = .ok t) : refusals t.log = refusals s.log := by
  unfold renewWeights at h
  split at h
  · obtain ⟨_, _, h⟩ := exists_of_bind_eq_ok h
    cases h
    exact logged_push s.log rfl
  · cases h
    rfl

theorem refusals_of_settle {rounds : ℕ} (h : settle P rounds s = .ok t) :
    refusals t.log = refusals s.log := by
  induction rounds generalizing s with
  | zero => cases h
  | succ rounds ih =>
    rw [settle] at h
    obtain ⟨u, hu, h⟩ := exists_of_bind_eq_ok h
    have hlog := log_of_recompute (eq_some_of_divided hu)
    split at h
    · cases h
      rw [hlog]
    · rw [ih h, ← hlog]
      exact logged_push u.log rfl

theorem refusals_of_comeToRest (h : comeToRest P s = .ok t) : refusals t.log = refusals s.log :=
  refusals_of_settle (s := s.moveToBounds P) h

end Log

section Passes
variable (h : s.Ready P) (hA : P.matrix.Simple) (hc : ∀ v, (P.bounds.get v).Consistent)
  {cfg : Config} {mayStall : Bool}
include h hA hc

theorem Ready.refusals_of_pivot {p : Progress} {l : Leaving n m} (hl : s.Leaves P l)
    {r : PassResult} (hp : s.pivot P cfg p l = .ok (t, r)) : refusals t.log = refusals s.log := by
  obtain ⟨rho, hrho, hget, hrow⟩ := h.pivotRow_eq l.row
  obtain ⟨_, hdivided, hp⟩ := exists_of_bind_eq_ok hp
  cases (eq_some_of_divided hdivided).symm.trans hrho
  dsimp only at hp
  rcases h.chooseEntering_cases hc p.bland l (P.nonbasicProduct s.basis.place rho) with
    ⟨hn, _⟩ | ⟨e, he, henters⟩
  · rw [hn] at hp
    cases hp
    exact logged_push s.log rfl
  · rw [he] at hp
    have h' := h.of_noted ((Noted.refl s).record (e := .enters (s.basis.nonbasic.get e.position).index
      e.flips.length) rfl)
    obtain ⟨alphaColumn, u, hcol, _, _, hex, _, F, _, hF, _⟩ := h'.canExchange hA cfg (l := l)
      ⟨hl.var_eq, hl.bound_eq, hl.violated⟩ (henters.tableau_ne_zero hrow) hget hrow
    obtain ⟨_, hdivided, hp⟩ := exists_of_bind_eq_ok hp
    cases (eq_some_of_divided hdivided).symm.trans hcol
    obtain ⟨_, hdivided, hp⟩ := exists_of_bind_eq_ok hp
    cases (eq_some_of_divided hdivided).symm.trans hex
    obtain ⟨w, hw, hp⟩ := exists_of_bind_eq_ok hp
    obtain ⟨t, ht, hp⟩ := exists_of_bind_eq_ok hp
    cases hp
    calc refusals t.log = refusals w.log := refusals_of_renewWeights ht
      _ = refusals u.log := refusals_of_renewFactors hF hw
      _ = refusals (s.record (.enters (s.basis.nonbasic.get e.position).index e.flips.length)).log := by
        rw [log_of_exchange hex]
      _ = refusals s.log := logged_push s.log rfl

theorem Ready.refusals_of_pass {p : Progress} {r : PassResult}
    (hp : s.pass P cfg mayStall p = .ok (t, r)) : refusals t.log = refusals s.log := by
  unfold pass at hp
  dsimp only at hp
  split at hp
  · cases hp
    exact logged_push s.log rfl
  · generalize hobs : p.observe cfg.cycleThreshold (P.objectiveValue s.values) = observed at hp
    obtain ⟨p', events⟩ := observed
    have hmem : ∀ e ∈ events, e ∈ (p.observe cfg.cycleThreshold (P.objectiveValue s.values)).2 := by
      rw [hobs]
      exact fun e he => he
    have hlog : refusals (s.recordAll events).log = refusals s.log := by
      refine refusals_recordAll fun e he => ?_
      rcases mem_observe (hmem e he) with ⟨k, rfl⟩ | rfl <;> rfl
    have hn : Noted s (s.recordAll events) := by
      refine (Noted.refl s).recordAll fun e he => ?_
      rcases mem_observe (hmem e he) with ⟨k, rfl⟩ | rfl <;> rfl
    dsimp only at hp
    split at hp
    · cases hp
      exact hlog
    · obtain ⟨choice, hchoice, hp⟩ := exists_of_bind_eq_ok hp
      cases choice with
      | none =>
        cases hp
        exact hlog
      | some l =>
        have hn' := hn.record (e := .leaves p'.iterations l.var.index l.row) rfl
        have hl : (s.recordAll events).Leaves P l := by
          rcases (h.of_noted hn).chooseLeaving_cases p'.bland with ⟨hnone, _⟩ | ⟨l', hsome, hl', _⟩
          · cases hnone.symm.trans (eq_some_of_divided hchoice)
          · cases hsome.symm.trans (eq_some_of_divided hchoice)
            exact hl'
        rw [(h.of_noted hn').refusals_of_pivot (l := l) hA hc ⟨hl.var_eq, hl.bound_eq, hl.violated⟩ hp,
          ← hlog]
        exact logged_push _ rfl

theorem Ready.refusals_of_iterate {allowance : ℕ} {p : Progress} {ending : Ending}
    (hi : s.iterate P cfg mayStall allowance p = .ok (t, ending)) :
    refusals t.log = refusals s.log := by
  induction allowance generalizing s p with
  | zero => cases hi
  | succ allowance ih =>
    rw [iterate] at hi
    obtain ⟨⟨u, result⟩, hpass, hi⟩ := exists_of_bind_eq_ok hi
    have hlog := h.refusals_of_pass hA hc hpass
    cases result with
    | stop ending =>
      cases hi
      exact hlog
    | next p' => exact (ih (h.of_next hA hc hpass).1.ready hi).trans hlog

end Passes

section Runs
variable (h : s.Sound P) (hA : P.matrix.Simple) {cfg : Config} {mayStall : Bool} {ending : Ending}
include h hA

theorem Sound.refusals_of_runSurrogate (hr : runSurrogate P cfg mayStall s = .ok (t, ending)) :
    refusals t.log = refusals s.log := by
  obtain ⟨u, hu, hr⟩ := exists_of_bind_eq_ok hr
  have h' : ({ s with stuck := none } : State n m).Sound P := h.of_eq rfl rfl rfl
  have hentry : Entry P P.surrogate u := .phaseOne h' hu
  rw [(hentry.ready hA).refusals_of_iterate hA (consistent_surrogate P) hr, refusals_of_comeToRest hu]

variable (hc : ∀ v, (P.bounds.get v).Consistent)
include hc

theorem Sound.refusals_of_runPhases {phases : ℕ}
    (hr : runPhases P cfg mayStall phases s = .ok (t, ending)) : refusals t.log = refusals s.log := by
  induction phases generalizing s with
  | zero => cases hr
  | succ phases ih =>
    rw [runPhases] at hr
    obtain ⟨u, hu, hr⟩ := exists_of_bind_eq_ok hr
    have hrest := refusals_of_comeToRest hu
    split at hr
    · next hd =>
      have hentry : Entry P P u := .main h hu hd
      rw [(hentry.ready hA).refusals_of_iterate hA hc hr, hrest]
    · obtain ⟨u', hu', hset, _⟩ := h.comeToRest_eq hA.toMirrored
      cases hu'.symm.trans hu
      have hstart : (u.record .phaseOneStarted).Sound P := hset.toSound.of_eq rfl rfl rfl
      obtain ⟨⟨w, result⟩, hw, hr⟩ := exists_of_bind_eq_ok hr
      have hlog : refusals w.log = refusals s.log := by
        rw [hstart.refusals_of_runSurrogate hA hw, ← hrest]
        exact logged_push u.log rfl
      obtain ⟨w', result', hw', hready, _⟩ := hstart.runSurrogate_eq hA cfg mayStall
      cases hw'.symm.trans hw
      cases result with
      | stalled =>
        cases hr
        exact hlog
      | verdict v =>
        dsimp only at hr
        split at hr
        · have hnext : (w.record .phaseOneFeasible).Sound P :=
            (hready.toSound.congr (Q := P) rfl).of_eq rfl rfl rfl
          rw [ih hnext hr, ← hlog]
          exact logged_push w.log rfl
        · cases hr
          rw [← hlog]
          exact logged_push w.log rfl

theorem Sound.refusals_of_run (hr : run P cfg mayStall s = .ok (t, ending)) :
    refusals t.log = refusals s.log :=
  (h.of_eq (t := { s with stuck := none }) rfl rfl rfl).refusals_of_runPhases hA hc hr

/-- No update is refused in a solve. -/
theorem Sound.refusals_of_solve {v : Verdict} (hs : solve P cfg s = .ok (t, v)) :
    refusals t.log = refusals s.log := by
  obtain ⟨⟨u, ending⟩, hu, hs⟩ := exists_of_bind_eq_ok hs
  have hlog := h.refusals_of_run hA hc hu
  cases ending with
  | verdict w =>
    cases hs
    exact hlog
  | stalled =>
    obtain ⟨u', _, hu', husound, _⟩ := h.run_eq hA cfg true hc
    cases hu'.symm.trans hu
    have hper : (u.record .costsPerturbed).Sound (P.perturbed cfg.numbers) :=
      (husound.congr (Q := P.perturbed cfg.numbers) rfl).of_eq rfl rfl rfl
    obtain ⟨⟨w, _⟩, hw, hs⟩ := exists_of_bind_eq_ok hs
    obtain ⟨w', _, hw', hwsound, _⟩ := hper.run_eq (P := P.perturbed cfg.numbers) hA cfg false hc
    cases hw'.symm.trans hw
    obtain ⟨⟨x, ending⟩, hx, hs⟩ := exists_of_bind_eq_ok hs
    have hback : w.Sound P := hwsound.congr rfl
    have hall : refusals x.log = refusals s.log := by
      rw [hback.refusals_of_run hA hc hx, hper.refusals_of_run (P := P.perturbed cfg.numbers) hA hc hw,
        ← hlog]
      exact logged_push u.log rfl
    cases ending with
    | verdict v =>
      cases hs
      exact hall
    | stalled => cases hs

end Runs

end State

end ExactSimplex
