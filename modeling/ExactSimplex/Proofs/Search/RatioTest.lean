import Mathlib.Algebra.BigOperators.Group.List.Basic
import Mathlib.Algebra.Order.Field.Basic
import ExactSimplex.Search.RatioTest
import ExactSimplex.Proofs.Search.Pricing

/-! # The ratio test

A candidate can move so that the violation shrinks, and its reduced cost reaches zero at a step that
is not negative. The candidates that are passed have smaller steps than the entering one and change
sides, the others have larger steps and stay; either way the new reduced costs agree with the new
resting places. The passed candidates together do not move the leaving variable past its target.
-/
namespace ExactSimplex
variable {n m : ℕ}

namespace State

theorem towards_eq (side : Side) (alpha : ℚ) : towards side alpha = side.sign * alpha := by
  cases side <;> simp [towards, Side.sign]

section Interval
variable {b : Bounds} {x d a t : ℚ}

theorem isEligible_iff : isEligible b x a = true ↔
    (b.lower = none ∧ b.upper = none) ∨ (b.lower = some x ∧ b.upper ≠ some x ∧ 0 < a) ∨
      (b.upper = some x ∧ b.lower ≠ some x ∧ a < 0) := by
  simp only [isEligible, Bool.or_eq_true, Bool.and_eq_true, Bool.not_eq_true', Bounds.isFree_iff,
    Bounds.isAt_iff, decide_eq_true_eq, and_assoc, or_assoc]
  simp only [← Bool.not_eq_true, Bounds.isAt_iff]

/-- What cannot move towards a smaller violation is at the end that increases it most. -/
theorem supports_of_blocked (hr : b.Rests x) (ha : a = 0 ∨ isEligible b x a = false) :
    b.Supports x (-a) := by
  rcases ha with rfl | ha
  · simp
  · rw [← Bool.not_eq_true, isEligible_iff] at ha
    push Not at ha
    obtain ⟨hfree, hlower, hupper⟩ := ha
    rcases hr with hl | hu | ⟨hl, hu, _⟩
    · refine Bounds.supports_of_lower hl ((em (b.upper = some x)).symm.imp_left fun hu => ?_)
      exact neg_nonneg.mpr (hlower hl hu)
    · refine Bounds.supports_of_upper hu ((em (b.lower = some x)).symm.imp_left fun hl => ?_)
      exact neg_nonpos.mpr (hupper hu hl)
    · exact absurd hu (hfree hl)

theorem eq_zero_of_free (hs : b.Supports x d) (hf : b.lower = none ∧ b.upper = none) : d = 0 := by
  refine le_antisymm (not_lt.mp fun h => ?_) (not_lt.mp fun h => ?_)
  · rw [hs.1 h] at hf
    cases hf.1
  · rw [hs.2 h] at hf
    cases hf.2

theorem div_nonneg_of_eligible (hs : b.Supports x d) (he : isEligible b x a = true) : 0 ≤ d / a := by
  rcases isEligible_iff.mp he with hf | ⟨hl, hu, ha⟩ | ⟨hu, hl, ha⟩
  · rw [eq_zero_of_free hs hf, zero_div]
  · exact div_nonneg (not_lt.mp fun h => hu (hs.2 h)) ha.le
  · exact div_nonneg_of_nonpos (not_lt.mp fun h => hl (hs.1 h)) ha.le

theorem supports_step_of_blocked (hr : b.Rests x) (hs : b.Supports x d) (ht : 0 ≤ t)
    (ha : a = 0 ∨ isEligible b x a = false) : b.Supports x (d - t * a) := by
  have hb := supports_of_blocked hr ha
  constructor
  · intro h
    rcases lt_or_ge 0 d with hd | hd
    · exact hs.1 hd
    · refine hb.1 (not_le.mp fun hn => ?_)
      have := mul_nonneg ht (neg_nonpos.mp hn)
      linarith
  · intro h
    rcases lt_or_ge d 0 with hd | hd
    · exact hs.2 hd
    · refine hb.2 (not_le.mp fun hn => ?_)
      have := mul_nonneg ht hn
      linarith

theorem supports_step_of_le (hs : b.Supports x d) (he : isEligible b x a = true)
    (ht : 0 ≤ t) (hle : t ≤ d / a) : b.Supports x (d - t * a) := by
  rcases isEligible_iff.mp he with hf | ⟨hl, hu, hpos⟩ | ⟨hu, hl, hneg⟩
  · rw [eq_zero_of_free hs hf, zero_div] at hle
    rw [le_antisymm hle ht, zero_mul, sub_zero]
    exact hs
  · have h := (le_div_iff₀ hpos).mp hle
    exact Bounds.supports_of_lower hl (Or.inl (by linarith))
  · have h := (le_div_iff_of_neg hneg).mp hle
    exact Bounds.supports_of_upper hu (Or.inl (by linarith))

/-- What moves from one resting place to another, and makes the violation smaller by that, was able to
move. -/
theorem isEligible_of_moved {change : ℚ} (hc : b.Consistent) (hx : b.Rests x)
    (hmoved : b.Rests (x + change)) (hpos : 0 < a * change) : isEligible b x a = true := by
  have hchange : change ≠ 0 := right_ne_zero_of_mul hpos.ne'
  have hne : x + change ≠ x := fun h => hchange (add_eq_left.mp h)
  refine isEligible_iff.mpr ?_
  rcases hx with hl | hu | ⟨hl, hu, _⟩
  · rcases hmoved with hl' | hu' | ⟨hl', _⟩
    · exact absurd (Option.some.inj (hl'.symm.trans hl)) hne
    · have hle := hc _ _ hl hu'
      have hup : 0 < change := lt_of_le_of_ne (by linarith) hchange.symm
      refine Or.inr (Or.inl ⟨hl, fun hu => ?_, pos_of_mul_pos_left hpos hup.le⟩)
      exact hne (Option.some.inj (hu'.symm.trans hu))
    · cases hl.symm.trans hl'
  · rcases hmoved with hl' | hu' | ⟨_, hu', _⟩
    · have hle := hc _ _ hl' hu
      have hdown : change < 0 := lt_of_le_of_ne (by linarith) hchange
      refine Or.inr (Or.inr ⟨hu, fun hl => ?_, neg_of_mul_pos_left hpos hdown.le⟩)
      exact hne (Option.some.inj (hl'.symm.trans hl))
    · exact absurd (Option.some.inj (hu'.symm.trans hu)) hne
    · cases hu.symm.trans hu'
  · exact Or.inl ⟨hl, hu⟩

/-- The change that moves a boxed variable from one end to the other. -/
def flipChange (b : Bounds) (x : ℚ) : ℚ :=
  match b.box? with
  | none => 0
  | some (lower, upper) => if x = lower then upper - lower else lower - upper

/-- A boxed variable that can move is at one end of its box, and changing sides brings it to the other. -/
theorem flipChange_cases {lower upper : ℚ} (hb : b.box? = some (lower, upper))
    (he : isEligible b x a = true) : lower ≠ upper ∧
      (x = lower ∧ 0 < a ∧ flipChange b x = upper - lower ∨
        x = upper ∧ a < 0 ∧ flipChange b x = lower - upper) := by
  obtain ⟨hlow, hupp⟩ := Bounds.box?_eq_some_iff.mp hb
  rw [flipChange, hb]
  dsimp only
  rcases isEligible_iff.mp he with ⟨hl, _⟩ | ⟨hl, hu, hpos⟩ | ⟨hu, hl, hneg⟩
  · rw [hlow] at hl
    cases hl
  · have hx : x = lower := Option.some.inj (hl.symm.trans hlow)
    exact ⟨fun h => hu (by rw [hx, h]; exact hupp), Or.inl ⟨hx, hpos, if_pos hx⟩⟩
  · have hx : x = upper := Option.some.inj (hu.symm.trans hupp)
    have hne : lower ≠ upper := fun h => hl (by rw [hx, ← h]; exact hlow)
    exact ⟨hne, Or.inr ⟨hx, hneg, if_neg (hx ▸ hne.symm)⟩⟩

/-- A candidate that is passed agrees with the other end of its box. -/
theorem flip_of_ge {lower upper : ℚ} (hb : b.box? = some (lower, upper)) (hc : b.Consistent)
    (hs : b.Supports x d) (he : isEligible b x a = true) (hle : d / a ≤ t) :
    b.Rests (x + flipChange b x) ∧ b.Supports (x + flipChange b x) (d - t * a) ∧
      0 ≤ d * flipChange b x ∧ a * flipChange b x = (upper - lower) * a.abs := by
  obtain ⟨hlow, hupp⟩ := Bounds.box?_eq_some_iff.mp hb
  have hwidth := hc lower upper hlow hupp
  obtain ⟨hne, ⟨hx, hpos, hchange⟩ | ⟨hx, hneg, hchange⟩⟩ := flipChange_cases hb he
  · have hd : 0 ≤ d := not_lt.mp fun h => hne (by
      have hu := hs.2 h
      rw [hx, hupp] at hu
      exact (Option.some.inj hu).symm)
    have hto : x + flipChange b x = upper := by rw [hchange, hx]; ring
    rw [hto, hchange]
    refine ⟨Or.inr (Or.inl hupp), Bounds.supports_of_upper hupp (Or.inl ?_),
      mul_nonneg hd (sub_nonneg.mpr hwidth), ?_⟩
    · have h := (div_le_iff₀ hpos).mp hle
      linarith
    · rw [Rat.abs_of_nonneg hpos.le, mul_comm]
  · have hd : d ≤ 0 := not_lt.mp fun h => hne (by
      have hl := hs.1 h
      rw [hx, hlow] at hl
      exact Option.some.inj hl)
    have hto : x + flipChange b x = lower := by rw [hchange, hx]; ring
    rw [hto, hchange]
    refine ⟨Or.inl hlow, Bounds.supports_of_lower hlow (Or.inl ?_),
      mul_nonneg_of_nonpos_of_nonpos hd (sub_nonpos.mpr hwidth), ?_⟩
    · have h := (div_le_iff_of_neg hneg).mp hle
      linarith
    · rw [Rat.abs_of_nonpos hneg.le]
      ring

end Interval

variable {P : Problem n m} {s : State n m}

/-- A nonbasic position is a candidate if its entry of the pivot row, as seen from the violated
side, is not zero and its variable can move along it. -/
def Candidate (P : Problem n m) (s : State n m) (side : Side) (alphaRow : Vec n) (k : Fin n) : Prop :=
  towards side (alphaRow.get k) ≠ 0 ∧
    isEligible (P.bounds.get (s.basis.nonbasic.get k)) (s.values.get (s.basis.nonbasic.get k))
      (towards side (alphaRow.get k)) = true

/-- The step at which the reduced cost of a position reaches zero. -/
def ratio (s : State n m) (side : Side) (alphaRow : Vec n) (k : Fin n) : ℚ :=
  s.reduced.get k / towards side (alphaRow.get k)

section Candidates
variable {side : Side} {alphaRow : Vec n}

theorem mem_candidates {c : ℚ × Fin n} : c ∈ s.candidates P side alphaRow ↔
    Candidate P s side alphaRow c.2 ∧ c.1 = s.ratio side alphaRow c.2 := by
  obtain ⟨t, k⟩ := c
  simp only [candidates, List.mem_filterMap, List.mem_finRange, true_and, Candidate, ratio]
  constructor
  · rintro ⟨j, hj⟩
    split at hj
    · next hc =>
      cases hj
      simpa using hc
    · cases hj
  · rintro ⟨hc, rfl⟩
    exact ⟨k, if_pos (by simpa using hc)⟩

theorem Candidate.mem {k : Fin n} (hk : Candidate P s side alphaRow k) :
    (s.ratio side alphaRow k, k) ∈ s.candidates P side alphaRow :=
  mem_candidates.mpr ⟨hk, rfl⟩

theorem mem_positions {k : Fin n} :
    k ∈ (s.candidates P side alphaRow).map Prod.snd ↔ Candidate P s side alphaRow k := by
  refine ⟨fun hk => ?_, fun hk => List.mem_map_of_mem hk.mem⟩
  obtain ⟨c, hc, rfl⟩ := List.mem_map.mp hk
  exact (mem_candidates.mp hc).1

theorem nodup_candidates : ((s.candidates P side alphaRow).map Prod.snd).Nodup := by
  have h : (s.candidates P side alphaRow).map Prod.snd = (List.finRange n).filter fun k =>
      towards side (alphaRow.get k) ≠ 0 && isEligible (P.bounds.get (s.basis.nonbasic.get k))
        (s.values.get (s.basis.nonbasic.get k)) (towards side (alphaRow.get k)) := by
    rw [candidates, List.map_filterMap, ← List.filterMap_eq_filter]
    congr 1
    funext k
    simp only [Option.guard]
    split <;> rfl
  rw [h]
  exact (List.nodup_finRange n).filter _

end Candidates

/-- How far a boxed variable moves the leaving one when it changes sides. -/
def flipCost (P : Problem n m) (s : State n m) (alphaRow : Vec n) (k : Fin n) : ℚ :=
  match (P.bounds.get (s.basis.nonbasic.get k)).box? with
  | some (lower, upper) => (upper - lower) * (alphaRow.get k).abs
  | none => 0

def totalChange (flips : List (Var n m × ℚ)) (v : Var n m) : ℚ :=
  (flips.map fun f => if f.1 = v then f.2 else 0).sum

/-- The candidates that are passed and those that are not: the entering position is the first one
that is not passed, or the last one if all are. -/
structure Passes (P : Problem n m) (s : State n m) (alphaRow : Vec n) (ratio : Fin n → ℚ)
    (remaining : ℚ) (e : Entering n m) (passed later : List (Fin n)) : Prop where
  position_mem : e.position ∈ passed ++ later
  boxed : ∀ k ∈ passed, ∃ box, (P.bounds.get (s.basis.nonbasic.get k)).box? = some box
  le : ∀ k ∈ passed, ratio k ≤ ratio e.position
  ge : ∀ k ∈ later, ratio e.position ≤ ratio k
  change_eq : ∀ v, totalChange e.flips v = (passed.map fun k =>
    if s.basis.nonbasic.get k = v then flipChange (P.bounds.get v) (s.values.get v) else 0).sum
  cost_le : (passed.map (s.flipCost P alphaRow)).sum ≤ remaining

def flipOf (P : Problem n m) (s : State n m) (k : Fin n) : List (Var n m × ℚ) :=
  let v := s.basis.nonbasic.get k
  let change := flipChange (P.bounds.get v) (s.values.get v)
  if change = 0 then [] else [(v, change)]

theorem totalChange_flipOf_append (P : Problem n m) (s : State n m) (k : Fin n)
    (flips : List (Var n m × ℚ)) (v : Var n m) :
    totalChange (s.flipOf P k ++ flips) v =
      (if s.basis.nonbasic.get k = v then flipChange (P.bounds.get v) (s.values.get v) else 0) +
        totalChange flips v := by
  unfold flipOf
  by_cases hv : s.basis.nonbasic.get k = v
  · simp only [hv, if_true]
    split
    · next hz => rw [hz, zero_add, List.nil_append]
    · simp [totalChange]
  · rw [if_neg hv, zero_add]
    dsimp only
    split <;> simp [totalChange, hv]

theorem totalChange_flatMap_flipOf (P : Problem n m) (s : State n m) (ks : List (Fin n))
    (v : Var n m) : totalChange (ks.flatMap (s.flipOf P)) v = (ks.map fun k =>
      if s.basis.nonbasic.get k = v then flipChange (P.bounds.get v) (s.values.get v) else 0).sum := by
  induction ks with
  | nil => rfl
  | cons k ks ih =>
    rw [List.flatMap_cons, totalChange_flipOf_append, ih, List.map_cons, List.sum_cons]

/-- What a walk along the candidates flips, and why it ends: at a candidate that has no other end or that
would move the leaving variable too far, or because all of them have been passed. -/
structure Walks (P : Problem n m) (s : State n m) (alphaRow : Vec n) (remaining : ℚ)
    (e : Entering n m) (passed later : List (Fin n)) : Prop where
  boxed : ∀ k ∈ passed, ∃ box, (P.bounds.get (s.basis.nonbasic.get k)).box? = some box
  flips_eq : e.flips = passed.flatMap (s.flipOf P)
  cost_le : (passed.map (s.flipCost P alphaRow)).sum ≤ remaining
  ends : (∃ rest, later = e.position :: rest ∧
      ((P.bounds.get (s.basis.nonbasic.get e.position)).box? = none ∨
        remaining < (passed.map (s.flipCost P alphaRow)).sum + s.flipCost P alphaRow e.position)) ∨
    later = [] ∧ passed.getLast? = some e.position

section Walk
variable {alphaRow : Vec n} {ratio : Fin n → ℚ} {remaining : ℚ} {k : Fin n} {e : Entering n m}
  {passed later : List (Fin n)}

theorem Walks.stop {rest : List (Fin n)} (hr : 0 ≤ remaining)
    (hk : (P.bounds.get (s.basis.nonbasic.get k)).box? = none ∨ remaining < s.flipCost P alphaRow k) :
    Walks P s alphaRow remaining ⟨k, []⟩ [] (k :: rest) where
  boxed _ h := absurd h List.not_mem_nil
  flips_eq := rfl
  cost_le := hr
  ends := Or.inl ⟨rest, rfl, hk.imp_right fun h => by simpa using h⟩

theorem Walks.last (hb : ∃ box, (P.bounds.get (s.basis.nonbasic.get k)).box? = some box)
    (hr : s.flipCost P alphaRow k ≤ remaining) :
    Walks P s alphaRow remaining ⟨k, s.flipOf P k⟩ [k] [] where
  boxed j hj := by
    rw [List.mem_singleton.mp hj]
    exact hb
  flips_eq := by simp
  cost_le := by simpa using hr
  ends := Or.inr ⟨rfl, rfl⟩

theorem Walks.pass (hb : ∃ box, (P.bounds.get (s.basis.nonbasic.get k)).box? = some box)
    (h : Walks P s alphaRow (remaining - s.flipCost P alphaRow k) e passed later) :
    Walks P s alphaRow remaining { e with flips := s.flipOf P k ++ e.flips } (k :: passed) later where
  boxed j hj := by
    rcases List.mem_cons.mp hj with rfl | hj
    · exact hb
    · exact h.boxed j hj
  flips_eq := by rw [h.flips_eq, List.flatMap_cons]
  cost_le := by
    have hle := h.cost_le
    rw [List.map_cons, List.sum_cons]
    linarith
  ends := by
    rw [List.map_cons, List.sum_cons]
    refine h.ends.imp (fun ⟨rest, hrest, hwhy⟩ => ⟨rest, hrest, hwhy.imp_right fun hlt => ?_⟩)
      fun ⟨hnil, hlast⟩ => ⟨hnil, ?_⟩
    · dsimp only
      linarith
    · rw [List.getLast?_cons, hlast, Option.getD_some]

/-- In the order of their ratios the candidates that are passed come before the entering one. -/
theorem Walks.passes (h : Walks P s alphaRow remaining e passed later)
    (hsorted : (passed ++ later).Pairwise fun j k => ratio j ≤ ratio k) :
    Passes P s alphaRow ratio remaining e passed later := by
  obtain ⟨hpassed, hlater, hcross⟩ := List.pairwise_append.mp hsorted
  have hchange : ∀ v, totalChange e.flips v = (passed.map fun k => if s.basis.nonbasic.get k = v then
      flipChange (P.bounds.get v) (s.values.get v) else 0).sum := fun v => by
    rw [h.flips_eq, totalChange_flatMap_flipOf]
  rcases h.ends with ⟨rest, rfl, _⟩ | ⟨rfl, hlast⟩
  · refine ⟨List.mem_append_right _ List.mem_cons_self, h.boxed,
      fun k hk => hcross k hk _ List.mem_cons_self, fun k hk => ?_, hchange, h.cost_le⟩
    rcases List.mem_cons.mp hk with rfl | hk
    · exact le_refl _
    · exact (List.pairwise_cons.mp hlater).1 k hk
  · obtain ⟨front, rfl⟩ := List.getLast?_eq_some_iff.mp hlast
    refine ⟨by simp, h.boxed, fun k hk => ?_, fun k hk => absurd hk List.not_mem_nil, hchange, h.cost_le⟩
    rcases List.mem_append.mp hk with hk | hk
    · exact (List.pairwise_append.mp hpassed).2.2 k hk _ (List.mem_singleton.mpr rfl)
    · rw [List.mem_singleton.mp hk]

end Walk

theorem passCandidates_walks (P : Problem n m) (s : State n m) (alphaRow : Vec n) (ks : List (Fin n))
    {remaining : ℚ} (hr : 0 ≤ remaining) :
    (ks = [] ∧ s.passCandidates P alphaRow remaining ks = none) ∨
      ∃ e passed later, s.passCandidates P alphaRow remaining ks = some e ∧ ks = passed ++ later ∧
        Walks P s alphaRow remaining e passed later := by
  induction ks generalizing remaining with
  | nil => exact Or.inl ⟨rfl, rfl⟩
  | cons k rest ih =>
    refine Or.inr ?_
    rw [passCandidates]
    cases hb : (P.bounds.get (s.basis.nonbasic.get k)).box? with
    | none => exact ⟨⟨k, []⟩, [], k :: rest, rfl, rfl, Walks.stop hr (Or.inl hb)⟩
    | some box =>
      obtain ⟨lower, upper⟩ := box
      have hcost : (upper - lower) * (alphaRow.get k).abs = s.flipCost P alphaRow k := by
        rw [flipCost, hb]
      have hflip : (if (if s.values.get (s.basis.nonbasic.get k) = lower then upper - lower
            else lower - upper) = 0 then []
          else [(s.basis.nonbasic.get k, if s.values.get (s.basis.nonbasic.get k) = lower
            then upper - lower else lower - upper)]) = s.flipOf P k := by
        rw [flipOf, flipChange, hb]
      simp only [hcost, hflip]
      by_cases hafter : remaining - s.flipCost P alphaRow k < 0
      · exact ⟨⟨k, []⟩, [], k :: rest, if_pos hafter, rfl, Walks.stop hr (Or.inr (by linarith))⟩
      · rw [if_neg hafter]
        rcases ih (not_lt.mp hafter) with ⟨rfl, hn⟩ | ⟨e, passed, later, he, rfl, hw⟩
        · rw [hn]
          exact ⟨_, [k], [], rfl, rfl, Walks.last ⟨_, hb⟩ (by linarith)⟩
        · rw [he]
          exact ⟨_, k :: passed, later, rfl, rfl, hw.pass ⟨_, hb⟩⟩

def before (s : State n m) (a b : ℚ × Fin n) : Bool :=
  decide (a.1 < b.1) || (decide (a.1 = b.1) &&
    decide ((s.basis.nonbasic.get a.2).index < (s.basis.nonbasic.get b.2).index))

theorem before_iff {a b : ℚ × Fin n} : s.before a b = true ↔ a.1 < b.1 ∨ a.1 = b.1 ∧
    (s.basis.nonbasic.get a.2).index < (s.basis.nonbasic.get b.2).index := by
  simp [before]

theorem before_trans (a b c : ℚ × Fin n) (hab : s.before a b = true) (hbc : s.before b c = true) :
    s.before a c = true := by
  rw [before_iff] at *
  rcases hab with hab | ⟨hab, hi⟩
  · rcases hbc with hbc | ⟨hbc, _⟩
    · exact Or.inl (hab.trans hbc)
    · exact Or.inl (hbc ▸ hab)
  · rcases hbc with hbc | ⟨hbc, hj⟩
    · exact Or.inl (hab ▸ hbc)
    · exact Or.inr ⟨hab.trans hbc, hi.trans hj⟩

/-- What the entering variable and the flips of a ratio test do: after a step by the ratio of the
entering position the reduced costs agree with the new places of all nonbasic variables, and the
leaving variable is not moved by more than the distance. -/
structure Enters (P : Problem n m) (s : State n m) (side : Side) (alphaRow : Vec n) (distance : ℚ)
    (bland : Bool) (e : Entering n m) : Prop where
  candidate : Candidate P s side alphaRow e.position
  change_basic : ∀ i, totalChange e.flips (s.basis.basic.get i) = 0
  rests : ∀ k, (P.bounds.get (s.basis.nonbasic.get k)).Rests
    (s.values.get (s.basis.nonbasic.get k) + totalChange e.flips (s.basis.nonbasic.get k))
  supports : ∀ k, (P.bounds.get (s.basis.nonbasic.get k)).Supports
    (s.values.get (s.basis.nonbasic.get k) + totalChange e.flips (s.basis.nonbasic.get k))
    (s.reduced.get k - s.ratio side alphaRow e.position * towards side (alphaRow.get k))
  gain : ∀ k, 0 ≤ s.reduced.get k * totalChange e.flips (s.basis.nonbasic.get k)
  bounded : ∑ k, towards side (alphaRow.get k) *
    totalChange e.flips (s.basis.nonbasic.get k) ≤ distance
  flips_nil : bland = true → e.flips = []
  lowest : bland = true → ∀ k, Candidate P s side alphaRow k →
    s.ratio side alphaRow k = s.ratio side alphaRow e.position →
    (s.basis.nonbasic.get e.position).index ≤ (s.basis.nonbasic.get k).index

/-- A candidate that can change sides. -/
def CanFlip (P : Problem n m) (s : State n m) (side : Side) (alphaRow : Vec n) (k : Fin n) : Prop :=
  Candidate P s side alphaRow k ∧ ∃ box, (P.bounds.get (s.basis.nonbasic.get k)).box? = some box

/-- Where the nonbasic variables are when those at the given positions have changed sides. -/
def movedTo (P : Problem n m) (s : State n m) (ks : List (Fin n)) (k : Fin n) : ℚ :=
  s.values.get (s.basis.nonbasic.get k) + if k ∈ ks then
    flipChange (P.bounds.get (s.basis.nonbasic.get k)) (s.values.get (s.basis.nonbasic.get k)) else 0

theorem Passes.add_totalChange {alphaRow : Vec n} {ratio : Fin n → ℚ} {remaining : ℚ}
    {e : Entering n m} {passed later : List (Fin n)}
    (hp : Passes P s alphaRow ratio remaining e passed later) (hb : s.basis.Valid)
    (hnodup : passed.Nodup) (k : Fin n) : s.values.get (s.basis.nonbasic.get k) +
      totalChange e.flips (s.basis.nonbasic.get k) = s.movedTo P passed k := by
  rw [hp.change_eq, movedTo]
  simp only [hb.nonbasic_injective.eq_iff]
  rw [← List.sum_toFinset _ hnodup, Finset.sum_ite_eq' passed.toFinset k]
  simp only [List.mem_toFinset]

/-- A walk along all candidates in the order of their ratios. -/
structure Selects (P : Problem n m) (s : State n m) (side : Side) (alphaRow : Vec n) (distance : ℚ)
    (e : Entering n m) (passed later : List (Fin n)) : Prop
    extends Walks P s alphaRow distance e passed later where
  nodup : (passed ++ later).Nodup
  mem_iff : ∀ k, k ∈ passed ++ later ↔ Candidate P s side alphaRow k
  sorted : (passed ++ later).Pairwise fun j k => s.ratio side alphaRow j ≤ s.ratio side alphaRow k

theorem passCandidates_selects (P : Problem n m) (s : State n m) (side : Side) (alphaRow : Vec n)
    {distance : ℚ} (hd : 0 ≤ distance) :
    let sorted := stableSort (fun a b => decide (a.1 ≤ b.1)) (s.candidates P side alphaRow)
    (s.passCandidates P alphaRow distance (sorted.map fun c => c.2) = none ∧
      ∀ k, ¬Candidate P s side alphaRow k) ∨
    ∃ e passed later, s.passCandidates P alphaRow distance (sorted.map fun c => c.2) = some e ∧
      Selects P s side alphaRow distance e passed later := by
  intro sorted
  have hperm : sorted.Perm (s.candidates P side alphaRow) := stableSort_perm _ _
  have hmem : ∀ k, k ∈ sorted.map Prod.snd ↔ Candidate P s side alphaRow k := by
    intro k
    rw [(hperm.map Prod.snd).mem_iff]
    exact mem_positions
  have hsorted : (sorted.map Prod.snd).Pairwise fun j k =>
      s.ratio side alphaRow j ≤ s.ratio side alphaRow k := by
    have hpair : sorted.Pairwise fun a b => decide (a.1 ≤ b.1) = true :=
      stableSort_pairwise (fun a b hab => by
        simp only [decide_eq_false_iff_not, decide_eq_true_eq] at hab ⊢
        exact (not_le.mp hab).le) (fun a b c hab hbc => by
        simp only [decide_eq_true_eq] at hab hbc ⊢
        exact hab.trans hbc) _
    refine List.pairwise_map.mpr (hpair.imp_of_mem fun {a b} ha hb hab => ?_)
    rw [← (mem_candidates.mp (hperm.mem_iff.mp ha)).2, ← (mem_candidates.mp (hperm.mem_iff.mp hb)).2]
    exact of_decide_eq_true hab
  have hnodup : (sorted.map Prod.snd).Nodup := (hperm.map Prod.snd).nodup_iff.mpr nodup_candidates
  rcases passCandidates_walks P s alphaRow (sorted.map Prod.snd) hd with
    ⟨hnil, hn⟩ | ⟨e, passed, later, he, hk, hw⟩
  · refine Or.inl ⟨hn, fun k hk => ?_⟩
    have hm := (hmem k).mpr hk
    rw [hnil] at hm
    cases hm
  · rw [hk] at hmem hsorted hnodup
    exact Or.inr ⟨e, passed, later, he, hw, hnodup, hmem, hsorted⟩

theorem Enters.relaxed {side : Side} {alphaRow : Vec n} {distance : ℚ} {bland : Bool}
    {e : Entering n m} (h : Enters P s side alphaRow distance bland e) :
    Enters P s side alphaRow distance false e :=
  { h with
    flips_nil := fun hbland => by cases hbland
    lowest := fun hbland => by cases hbland }

namespace Ready
variable (h : s.Ready P) (hc : ∀ v, (P.bounds.get v).Consistent) {side : Side} {alphaRow : Vec n}
include h

theorem rests_nonbasic (k : Fin n) : (P.bounds.get (s.basis.nonbasic.get k)).Rests
    (s.values.get (s.basis.nonbasic.get k)) :=
  h.rests _ (h.basis.isBasic_nonbasic k)

theorem supports_nonbasic (k : Fin n) : (P.bounds.get (s.basis.nonbasic.get k)).Supports
    (s.values.get (s.basis.nonbasic.get k)) (s.reduced.get k) := by
  have hs := h.supports (s.basis.nonbasic.get k)
  rwa [h.basis.spread_nonbasic] at hs

theorem ratio_nonneg {k : Fin n} (hk : Candidate P s side alphaRow k) :
    0 ≤ s.ratio side alphaRow k :=
  div_nonneg_of_eligible (h.supports_nonbasic k) hk.2

include hc

theorem rests_movedTo {ks : List (Fin n)} (hks : ∀ k ∈ ks, CanFlip P s side alphaRow k) (k : Fin n) :
    (P.bounds.get (s.basis.nonbasic.get k)).Rests (s.movedTo P ks k) := by
  unfold movedTo
  split
  · next hk =>
    obtain ⟨hcand, ⟨lower, upper⟩, hb⟩ := hks k hk
    exact (flip_of_ge hb (hc _) (h.supports_nonbasic k) hcand.2 le_rfl).1
  · rw [add_zero]
    exact h.rests_nonbasic k

/-- When the candidates up to a step have changed sides, all variables agree with the reduced costs after
the step. -/
theorem supports_movedTo {ks : List (Fin n)} (hks : ∀ k ∈ ks, CanFlip P s side alphaRow k) {t : ℚ}
    (ht : 0 ≤ t) (hle : ∀ k ∈ ks, s.ratio side alphaRow k ≤ t)
    (hge : ∀ k, Candidate P s side alphaRow k → k ∉ ks → t ≤ s.ratio side alphaRow k) (k : Fin n) :
    (P.bounds.get (s.basis.nonbasic.get k)).Supports (s.movedTo P ks k)
      (s.reduced.get k - t * towards side (alphaRow.get k)) := by
  unfold movedTo
  split
  · next hk =>
    obtain ⟨hcand, ⟨lower, upper⟩, hb⟩ := hks k hk
    exact (flip_of_ge hb (hc _) (h.supports_nonbasic k) hcand.2 (hle k hk)).2.1
  · next hk =>
    rw [add_zero]
    by_cases hcand : Candidate P s side alphaRow k
    · exact supports_step_of_le (h.supports_nonbasic k) hcand.2 ht (hge k hcand hk)
    · refine supports_step_of_blocked (h.rests_nonbasic k) (h.supports_nonbasic k) ht ?_
      rw [Candidate, not_and_or, not_not, Bool.not_eq_true] at hcand
      exact hcand

theorem mul_movedTo {ks : List (Fin n)} (hks : ∀ k ∈ ks, CanFlip P s side alphaRow k) (k : Fin n) :
    0 ≤ s.reduced.get k * (s.movedTo P ks k - s.values.get (s.basis.nonbasic.get k)) ∧
      towards side (alphaRow.get k) * (s.movedTo P ks k - s.values.get (s.basis.nonbasic.get k)) =
        if k ∈ ks then s.flipCost P alphaRow k else 0 := by
  rw [movedTo, add_sub_cancel_left]
  split
  · next hk =>
    obtain ⟨hcand, ⟨lower, upper⟩, hb⟩ := hks k hk
    obtain ⟨_, _, hgain, hcost⟩ := flip_of_ge hb (hc _) (h.supports_nonbasic k) hcand.2 le_rfl
    refine ⟨hgain, ?_⟩
    rw [hcost, flipCost, hb, towards_eq]
    cases side <;> simp [Side.sign, Rat.abs_neg]
  · simp

/-- How far the leaving variable is moved when candidates change sides. -/
theorem sum_movedTo {ks : List (Fin n)} (hks : ∀ k ∈ ks, CanFlip P s side alphaRow k)
    (hnodup : ks.Nodup) : ∑ k, towards side (alphaRow.get k) *
      (s.movedTo P ks k - s.values.get (s.basis.nonbasic.get k)) =
        (ks.map (s.flipCost P alphaRow)).sum := by
  simp only [fun k => (h.mul_movedTo hc hks k).2]
  rw [← List.sum_toFinset _ hnodup, ← Finset.sum_filter]
  congr 1
  ext k
  simp

theorem enters_of_passes {distance : ℚ} {bland : Bool} {e : Entering n m}
    {passed later : List (Fin n)}
    (hp : Passes P s alphaRow (s.ratio side alphaRow) distance e passed later)
    (hnodup : (passed ++ later).Nodup)
    (hmem : ∀ k, k ∈ passed ++ later ↔ Candidate P s side alphaRow k)
    (hflips : bland = true → e.flips = [])
    (hlowest : bland = true → ∀ k, Candidate P s side alphaRow k →
      s.ratio side alphaRow k = s.ratio side alphaRow e.position →
      (s.basis.nonbasic.get e.position).index ≤ (s.basis.nonbasic.get k).index) :
    Enters P s side alphaRow distance bland e := by
  have hpos := (hmem _).mp hp.position_mem
  have hpassed := (List.nodup_append.mp hnodup).1
  have hks : ∀ k ∈ passed, CanFlip P s side alphaRow k :=
    fun k hk => ⟨(hmem k).mp (List.mem_append_left later hk), hp.boxed k hk⟩
  have hmoved := hp.add_totalChange h.basis hpassed
  have hchange : ∀ k, totalChange e.flips (s.basis.nonbasic.get k) =
      s.movedTo P passed k - s.values.get (s.basis.nonbasic.get k) := fun k => by
    rw [← hmoved, add_sub_cancel_left]
  refine ⟨hpos, fun i => ?_, fun k => ?_, fun k => ?_, fun k => ?_, ?_, hflips, hlowest⟩
  · rw [hp.change_eq]
    refine List.sum_eq_zero fun c hc' => ?_
    obtain ⟨k, _, rfl⟩ := List.mem_map.mp hc'
    exact if_neg (h.basis.basic_ne_nonbasic i k).symm
  · rw [hmoved]
    exact h.rests_movedTo hc hks k
  · rw [hmoved]
    refine h.supports_movedTo hc hks (h.ratio_nonneg hpos) hp.le (fun k hcand hk => ?_) k
    exact hp.ge k ((List.mem_append.mp ((hmem k).mpr hcand)).resolve_left hk)
  · rw [hchange]
    exact (h.mul_movedTo hc hks k).1
  · simp only [hchange]
    rw [h.sum_movedTo hc hks hpassed]
    exact hp.cost_le

theorem chooseBland_cases {distance : ℚ} (hd : 0 ≤ distance) (bland : Bool) :
    (s.chooseBland (s.candidates P side alphaRow) = none ∧ ∀ k, ¬Candidate P s side alphaRow k) ∨
    ∃ e, s.chooseBland (s.candidates P side alphaRow) = some e ∧
      Enters P s side alphaRow distance bland e := by
  cases hf : firstBest s.before (s.candidates P side alphaRow) with
  | none =>
    refine Or.inl ⟨Option.map_eq_none_iff.mpr hf, fun k hk => ?_⟩
    have hm := hk.mem
    rw [firstBest_eq_none_iff.mp hf] at hm
    cases hm
  | some best =>
    obtain ⟨hcand, hbest⟩ := mem_candidates.mp (mem_of_firstBest hf)
    have hunbeaten : ∀ k, Candidate P s side alphaRow k →
        ¬s.before (s.ratio side alphaRow k, k) best = true := by
      intro k hk
      rw [firstBest_unbeaten (fun a => by simp [before]) before_trans hf _ hk.mem]
      exact Bool.false_ne_true
    simp only [before_iff, hbest, not_or, not_and, not_lt] at hunbeaten
    have hp : Passes P s alphaRow (s.ratio side alphaRow) distance ⟨best.2, []⟩ []
        ((s.candidates P side alphaRow).map Prod.snd) :=
      ⟨mem_positions.mpr hcand, by simp, by simp,
        fun k hk => (hunbeaten k (mem_positions.mp hk)).1, fun _ => rfl, hd⟩
    exact Or.inr ⟨⟨best.2, []⟩, Option.map_eq_some_iff.mpr ⟨best, hf, rfl⟩,
      h.enters_of_passes hc hp nodup_candidates (fun _ => mem_positions) (fun _ => rfl)
        fun _ k hk => (hunbeaten k hk).2⟩

theorem enters_of_selects {distance : ℚ} {e : Entering n m} {passed later : List (Fin n)}
    (hs : Selects P s side alphaRow distance e passed later) :
    Enters P s side alphaRow distance false e :=
  h.enters_of_passes hc (hs.passes hs.sorted) hs.nodup hs.mem_iff (fun hb => by cases hb)
    fun hb => by cases hb

/-- Some variable enters, unless every nonbasic variable is blocked. -/
theorem chooseEntering_cases (bland : Bool) (l : Leaving n m) (alphaRow : Vec n) :
    (s.chooseEntering P bland l alphaRow = none ∧ ∀ k, ¬Candidate P s l.side alphaRow k) ∨
    ∃ e, s.chooseEntering P bland l alphaRow = some e ∧
      Enters P s l.side alphaRow (s.leavingTarget P l - s.values.get l.var).abs bland e := by
  have hd : 0 ≤ (s.leavingTarget P l - s.values.get l.var).abs := Rat.abs_nonneg
  cases bland with
  | true => exact h.chooseBland_cases hc hd true
  | false =>
    exact (passCandidates_selects P s l.side alphaRow hd).imp_right fun ⟨e, _, _, he, hs⟩ =>
      ⟨e, he, h.enters_of_selects hc hs⟩

end Ready

end State

end ExactSimplex
