import Mathlib.Combinatorics.Pigeonhole
import Mathlib.Data.Fintype.Pi
import Mathlib.Order.Interval.Finset.Nat
import ExactSimplex.Proofs.Search.Bland

/-! # Runs are finite

Where every variable stands determines the values of all variables, so there are no more objective
values than assignments of statuses. As the objective value never decreases, a long run keeps it for
a long time; then Bland's rule is engaged, and all assignments from there on are different. The
allowance of a run is therefore never used up.
-/
namespace ExactSimplex
variable {n m : ℕ}

instance : Fintype Status where
  elems := {.atLower, .basic, .atUpper, .free}
  complete s := by cases s <;> decide

theorem card_assignments (n m : ℕ) : Fintype.card (Var n m → Status) = Config.assignments n m := by
  rw [Fintype.card_fun, Var.card_eq]
  rfl

/-- Among more than `d` numbers two are at least `d` apart. -/
theorem exists_add_le_of_lt_card {d : ℕ} {F : Finset ℕ} (hF : d < F.card) :
    ∃ i ∈ F, ∃ j ∈ F, i + d ≤ j := by
  have hne : F.Nonempty := Finset.card_pos.mp (by omega)
  refine ⟨F.min' hne, F.min'_mem hne, F.max' hne, F.max'_mem hne, ?_⟩
  have hsub : F ⊆ Finset.Icc (F.min' hne) (F.max' hne) :=
    fun k hk => Finset.mem_Icc.mpr ⟨F.min'_le k hk, F.le_max' k hk⟩
  have hcard := Finset.card_le_card hsub
  rw [Nat.card_Icc] at hcard
  omega

namespace Progress

theorem observe_previous (p : Progress) (threshold : ℕ) (objective : ℚ) :
    (p.observe threshold objective).1.previous = some objective := by
  unfold observe
  dsimp only
  split
  · split <;> rfl
  · split
    · split <;> rfl
    · rfl

theorem observe_repeated {p : Progress} {objective : ℚ} (h : p.previous = some objective)
    (threshold : ℕ) : (p.observe threshold objective).1.repeated = p.repeated + 1 := by
  unfold observe
  dsimp only
  rw [if_pos h]
  split <;> rfl

theorem observe_bland {p : Progress} {objective : ℚ} (h : p.previous = some objective)
    {threshold : ℕ} (hlt : threshold < p.repeated + 1) :
    (p.observe threshold objective).1.bland = true := by
  unfold observe
  dsimp only
  rw [if_pos h]
  cases hb : p.bland with
  | false => rw [if_pos (by simpa using hlt)]
  | true => rw [if_neg (by simp)]

end Progress

namespace State
variable {P : Problem n m}

/-- Where every variable stands. -/
def assignment (P : Problem n m) (s : State n m) (v : Var n m) : Status :=
  if s.basis.isBasic v then .basic
  else if (P.bounds.get v).lower.isAt (s.values.get v) then .atLower
  else if (P.bounds.get v).upper.isAt (s.values.get v) then .atUpper
  else .free

theorem assignment_eq_basic_iff {s : State n m} {v : Var n m} :
    s.assignment P v = .basic ↔ s.basis.isBasic v = true := by
  unfold assignment
  constructor
  · intro h
    by_contra hb
    rw [if_neg hb] at h
    split at h
    · cases h
    · split at h <;> cases h
  · exact fun h => if_pos h

section Assignment
variable {s t : State n m} (hs : s.Ready P) (ht : t.Ready P)
  (h : s.assignment P = t.assignment P)
include h

theorem isBasic_eq_of_assignment (v : Var n m) : s.basis.isBasic v = t.basis.isBasic v := by
  have hiff : s.basis.isBasic v = true ↔ t.basis.isBasic v = true := by
    rw [← assignment_eq_basic_iff, ← assignment_eq_basic_iff, h]
  exact Bool.eq_iff_iff.mpr hiff

include hs ht

theorem Ready.value_eq_of_assignment {v : Var n m} (hv : s.basis.isBasic v = false) :
    s.values.get v = t.values.get v := by
  have hv' : t.basis.isBasic v = false := (isBasic_eq_of_assignment h v).symm.trans hv
  have hrs := hs.rests v hv
  have hrt := ht.rests v hv'
  have he := congrFun h v
  simp only [assignment, hv, hv', Bool.false_eq_true, if_false, Bounds.isAt_iff] at he
  by_cases hl : (P.bounds.get v).lower = some (s.values.get v)
  · by_cases hl' : (P.bounds.get v).lower = some (t.values.get v)
    · exact Option.some.inj (hl.symm.trans hl')
    · rw [if_pos hl, if_neg hl'] at he
      split at he <;> cases he
  · by_cases hl' : (P.bounds.get v).lower = some (t.values.get v)
    · rw [if_neg hl, if_pos hl'] at he
      split at he <;> cases he
    · rw [if_neg hl, if_neg hl'] at he
      rcases hrs.resolve_left hl with hu | ⟨_, hu, hx⟩
      · rcases hrt.resolve_left hl' with hu' | ⟨_, hu', _⟩
        · exact Option.some.inj (hu.symm.trans hu')
        · rw [hu] at hu'
          cases hu'
      · rcases hrt.resolve_left hl' with hu' | ⟨_, _, hx'⟩
        · rw [hu] at hu'
          cases hu'
        · rw [hx, hx']

theorem Ready.objectiveValue_eq_of_assignment :
    P.objectiveValue s.values = P.objectiveValue t.values := by
  have hx := Problem.Balanced.eq_of_nonbasic hs.basis hs.isUnit hs.balanced ht.balanced
    fun k => hs.value_eq_of_assignment ht h (hs.basis.isBasic_nonbasic k)
  rw [P.objectiveValue_eq_sum, P.objectiveValue_eq_sum, hx]

end Assignment

/-- Passes that each hand over to the next one. -/
def Trace (P : Problem n m) (cfg : Config) (mayStall : Bool) (length : ℕ) (p : ℕ → Progress)
    (s : ℕ → State n m) : Prop :=
  ∀ k < length, (s k).pass P cfg mayStall (p k) = .ok (s (k + 1), .next (p (k + 1)))

theorem Ready.of_next {s t : State n m} (h : s.Ready P) (hA : P.matrix.Simple)
    (hc : ∀ v, (P.bounds.get v).Consistent) {cfg : Config} {mayStall : Bool} {p p' : Progress}
    (hn : s.pass P cfg mayStall p = .ok (t, .next p')) :
    Steps P p'.bland s t ∧ ∃ iterations,
      p' = { (p.observe cfg.cycleThreshold (P.objectiveValue s.values)).1 with
        iterations := iterations } := by
  rcases h.pass_cases hA hc cfg mayStall p with ⟨u, ending, hu, _⟩ | ⟨u, hu, hs⟩
  · rw [hn] at hu
    cases hu
  · rw [hn] at hu
    cases hu
    exact ⟨hs, _, rfl⟩

namespace Trace
variable {cfg : Config} {mayStall : Bool} {length : ℕ} {p : ℕ → Progress} {s : ℕ → State n m}
  (h : Trace P cfg mayStall length p s) (h0 : (s 0).Ready P) (hA : P.matrix.Simple)
  (hc : ∀ v, (P.bounds.get v).Consistent)
include h h0 hA hc

theorem ready {k : ℕ} (hk : k ≤ length) : (s k).Ready P := by
  induction k with
  | zero => exact h0
  | succ k ih => exact ((ih (Nat.le_of_succ_le hk)).of_next hA hc (h k hk)).1.ready

theorem steps {k : ℕ} (hk : k < length) : Steps P (p (k + 1)).bland (s k) (s (k + 1)) :=
  ((h.ready h0 hA hc hk.le).of_next hA hc (h k hk)).1

theorem progress_eq {k : ℕ} (hk : k < length) : ∃ iterations,
    p (k + 1) = { ((p k).observe cfg.cycleThreshold (P.objectiveValue (s k).values)).1 with
      iterations := iterations } :=
  ((h.ready h0 hA hc hk.le).of_next hA hc (h k hk)).2

theorem objectiveValue_mono {i j : ℕ} (hij : i ≤ j) (hj : j ≤ length) :
    P.objectiveValue (s i).values ≤ P.objectiveValue (s j).values := by
  induction j, hij using Nat.le_induction with
  | base => exact le_rfl
  | succ j hij ih =>
    obtain ⟨μ, hp⟩ := (h.steps h0 hA hc hj).pivots
    exact (ih (Nat.le_of_succ_le hj)).trans (hp.objectiveValue_le (h.ready h0 hA hc (Nat.le_of_succ_le hj)))

/-- While the objective value stays the same, repetitions are counted, and Bland's rule is on once
there are more than the threshold. -/
theorem bland_of_constant {i j : ℕ} (hj : j ≤ length)
    (hconst : ∀ k, i ≤ k → k ≤ j → P.objectiveValue (s k).values = P.objectiveValue (s i).values)
    {r : ℕ} (hr : i + r < j) : r ≤ (p (i + r + 1)).repeated ∧
      (cfg.cycleThreshold < r → (p (i + r + 1)).bland = true) := by
  induction r with
  | zero => exact ⟨Nat.zero_le _, fun hlt => absurd hlt (Nat.not_lt_zero _)⟩
  | succ r ih =>
    obtain ⟨hrep, _⟩ := ih (by omega)
    obtain ⟨_, hprev⟩ := h.progress_eq h0 hA hc (k := i + r) (by omega)
    obtain ⟨_, hnext⟩ := h.progress_eq h0 hA hc (k := i + (r + 1)) (by omega)
    have hsame : (p (i + r + 1)).previous = some (P.objectiveValue (s (i + (r + 1))).values) := by
      rw [hprev, hconst (i + (r + 1)) (by omega) (by omega), ← hconst (i + r) (by omega) (by omega)]
      exact Progress.observe_previous _ _ _
    rw [hnext]
    refine ⟨?_, fun hlt => ?_⟩
    · dsimp only
      rw [← add_assoc] at hsame ⊢
      rw [Progress.observe_repeated hsame]
      omega
    · dsimp only
      rw [← add_assoc] at hsame ⊢
      exact Progress.observe_bland hsame (by omega)

/-- On a stretch with a constant objective value all assignments with Bland's rule are different. -/
theorem assignment_ne {i j : ℕ} (hj : j ≤ length)
    (hconst : ∀ k, i ≤ k → k ≤ j → P.objectiveValue (s k).values = P.objectiveValue (s i).values)
    {a b : ℕ} (ha : i + cfg.cycleThreshold < a) (hab : a < b) (hb : b ≤ j) :
    (s a).assignment P ≠ (s b).assignment P := by
  intro heq
  have hpivot : ∀ k, a + k < b →
      ∃ μ, Pivots P true (s (a + k)).toPoint (s (a + k + 1)).toPoint μ := by
    intro k hk
    have hsteps := h.steps h0 hA hc (k := a + k) (by omega)
    have hbland := (h.bland_of_constant h0 hA hc hj hconst (r := a + k - i) (by omega)).2 (by omega)
    rw [Nat.add_sub_cancel' (by omega)] at hbland
    rw [hbland] at hsteps
    exact hsteps.pivots
  obtain ⟨first, _⟩ := hpivot 0 (by omega)
  have hall : ∀ k, ∃ μ, a + k < b →
      Pivots P true (s (a + k)).toPoint (s (a + k + 1)).toPoint μ := by
    intro k
    by_cases hk : a + k < b
    · obtain ⟨μ, hp⟩ := hpivot k hk
      exact ⟨μ, fun _ => hp⟩
    · exact ⟨first, fun hlt => absurd hlt hk⟩
  choose μ hμ using hall
  have hrun : BlandRun P (b - a) (fun k => s (a + k)) μ := by
    refine ⟨hc, fun k hk => h.ready h0 hA hc (by omega), fun k hk => hμ k (by omega), fun k hk => ?_⟩
    rw [hconst (a + (k + 1)) (by omega) (by omega), hconst (a + k) (by omega) (by omega)]
  have hra := h.ready h0 hA hc (k := a) (by omega)
  have hrb := h.ready h0 hA hc (k := b) (by omega)
  refine hrun.not_returns (by omega) (fun v => ?_) fun v hv => ?_
  · rw [Nat.add_sub_cancel' hab.le]
    exact (isBasic_eq_of_assignment heq v).symm
  · rw [Nat.add_sub_cancel' hab.le]
    exact (hra.value_eq_of_assignment hrb heq hv).symm

/-- No run of passes is as long as the allowance. -/
theorem length_lt : length < cfg.passAllowance n m := by
  by_contra hle
  rw [not_lt, Config.passAllowance] at hle
  -- some assignment occurs at two passes that are far apart
  obtain ⟨a, -, hfiber⟩ := Finset.exists_lt_card_fiber_of_mul_lt_card_of_maps_to
    (s := Finset.range (Config.assignments n m * (Config.assignments n m + cfg.cycleThreshold +
      cfg.perturbationThreshold + 3) + 1)) (t := Finset.univ) (f := fun k => (s k).assignment P)
    (n := Config.assignments n m + cfg.cycleThreshold + cfg.perturbationThreshold + 3)
    (fun k _ => Finset.mem_univ _)
    (by rw [Finset.card_univ, card_assignments, Finset.card_range]; omega)
  obtain ⟨i, hi, j, hj, hij⟩ := exists_add_le_of_lt_card hfiber
  simp only [Finset.mem_filter, Finset.mem_range] at hi hj
  have hjl : j ≤ length := by omega
  have hsame := (h.ready h0 hA hc (k := i) (by omega)).objectiveValue_eq_of_assignment
    (h.ready h0 hA hc hjl) (hi.2.trans hj.2.symm)
  have hconst : ∀ k, i ≤ k → k ≤ j →
      P.objectiveValue (s k).values = P.objectiveValue (s i).values := by
    intro k hik hkj
    refine le_antisymm ?_ (h.objectiveValue_mono h0 hA hc hik (hkj.trans hjl))
    rw [hsame]
    exact h.objectiveValue_mono h0 hA hc hkj hjl
  -- with Bland's rule on, there are not enough assignments for the passes between them
  obtain ⟨x, y, hne, heq⟩ := Fintype.exists_ne_map_eq_of_card_lt
    (fun k : Fin (Config.assignments n m + 1) =>
      (s (i + cfg.cycleThreshold + 1 + k)).assignment P)
    (by rw [card_assignments, Fintype.card_fin]; omega)
  have hx := x.isLt
  have hy := y.isLt
  rcases lt_or_gt_of_ne (fun he => hne (Fin.ext he) : x.val ≠ y.val) with hlt | hlt
  · exact h.assignment_ne h0 hA hc hjl hconst (by omega) (by omega) (by omega) heq
  · exact h.assignment_ne h0 hA hc hjl hconst (by omega) (by omega) (by omega) heq.symm

end Trace

section Iterate
variable {s : State n m} (h : s.Ready P) (hA : P.matrix.Simple)
  (hc : ∀ v, (P.bounds.get v).Consistent) (cfg : Config) (mayStall : Bool)
include h hA hc

/-- With an allowance of passes, a run ends or makes all of them. -/
theorem Ready.iterate_cases (allowance : ℕ) (p : Progress) :
    (∃ t ending, s.iterate P cfg mayStall allowance p = .ok (t, ending) ∧ t.Ready P ∧
      milestones t.log = milestones s.log ∧ Outcome P mayStall s.stuck t ending) ∨
    ∃ ps ss, ps 0 = p ∧ ss 0 = s ∧ Trace P cfg mayStall allowance ps ss := by
  induction allowance generalizing p s with
  | zero => exact Or.inr ⟨fun _ => p, fun _ => s, rfl, rfl, fun k hk => absurd hk (Nat.not_lt_zero k)⟩
  | succ allowance ih =>
    rw [iterate]
    rcases h.pass_cases hA hc cfg mayStall p with ⟨t, ending, hpass, hstop⟩ | ⟨t, hpass, hsteps⟩
    · rw [hpass]
      exact Or.inl ⟨t, ending, rfl, hstop.ready, hstop.milestones_eq, hstop.outcome⟩
    · rcases ih hsteps.ready _ with ⟨u, ending, hu, hready, hm, ho⟩ | ⟨ps, ss, hp0, hs0, htrace⟩
      · rw [hpass]
        rw [hsteps.stuck_eq] at ho
        exact Or.inl ⟨u, ending, hu, hready, hm.trans hsteps.milestones_eq, ho⟩
      · refine Or.inr ⟨fun k => k.casesOn p ps, fun k => k.casesOn s ss, rfl, rfl, fun k hk => ?_⟩
        cases k with
        | zero =>
          change s.pass P cfg mayStall p = .ok (ss 0, .next (ps 0))
          rw [hp0, hs0, hpass]
        | succ k => exact htrace k (Nat.lt_of_succ_lt_succ hk)

theorem Ready.iterate_eq (p : Progress) :
    ∃ t ending, s.iterate P cfg mayStall (cfg.passAllowance n m) p = .ok (t, ending) ∧ t.Ready P ∧
      milestones t.log = milestones s.log ∧ Outcome P mayStall s.stuck t ending := by
  rcases h.iterate_cases hA hc cfg mayStall (cfg.passAllowance n m) p with hend | ⟨ps, ss, _, hs0, ht⟩
  · exact hend
  · have hlt := ht.length_lt (by rw [hs0]; exact h) hA hc
    exact absurd hlt (lt_irrefl _)

end Iterate

end State

end ExactSimplex
