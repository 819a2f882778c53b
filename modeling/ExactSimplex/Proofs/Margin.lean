import ExactSimplex.Proofs.Duality
import ExactSimplex.Proofs.Search.DualObjective

/-! # What the check of a certificate decides

Multipliers have a margin if they keep the values of the rows, at every point within the bounds, away from all
values within the sides. The check adds up the least values of the single terms. Over intervals that are not
empty these are attained together, or one term falls without limit whatever the others do, so that the check
accepts exactly the multipliers that have a margin.
-/
namespace ExactSimplex
variable {n m : ℕ}

namespace Bounds
variable {b : Bounds} {d t : ℚ}

theorem least?_mul (ht : 0 < t) : b.least? (t * d) = (b.least? d).map (t * ·) := by
  unfold least?
  rcases lt_trichotomy d 0 with hd | rfl | hd
  · have htd : t * d < 0 := mul_neg_of_pos_of_neg ht hd
    rw [if_neg htd.not_gt, if_pos htd, if_neg hd.not_gt, if_pos hd]
    cases b.upper <;> simp [mul_assoc]
  · simp
  · rw [if_pos (mul_pos ht hd), if_pos hd]
    cases b.lower <;> simp [mul_assoc]

theorem rests_restingValue (b : Bounds) (side : Side) : b.Rests (b.restingValue side) := by
  rcases b with ⟨_ | l, _ | u⟩ <;> cases side <;> simp [restingValue, get, Side.opposite, Rests]

/-- A cost that pushes towards a finite end, if at all, has a best value in the interval. -/
theorem Consistent.exists_supports (hb : b.Consistent) (hd : b.Attracts d) :
    ∃ x, b.Contains x ∧ b.Supports x d := by
  rcases lt_trichotomy d 0 with hneg | rfl | hpos
  · obtain ⟨u, hu⟩ := Option.ne_none_iff_exists'.mp (hd.2 hneg)
    exact ⟨u, Rests.contains (Or.inr (Or.inl hu)) hb, supports_of_upper hu (Or.inl hneg.le)⟩
  · exact ⟨_, (b.rests_restingValue .lower).contains hb, supports_zero⟩
  · obtain ⟨l, hl⟩ := Option.ne_none_iff_exists'.mp (hd.1 hpos)
    exact ⟨l, Rests.contains (Or.inl hl) hb, supports_of_lower hl (Or.inl hpos.le)⟩

/-- Against a cost that pushes towards a missing end, the interval goes on for ever. -/
theorem recedes_neg_of_not_attracts (h : ¬b.Attracts d) : d ≠ 0 ∧ b.Recedes (-d) := by
  rcases lt_trichotomy d 0 with hd | rfl | hd
  · refine ⟨hd.ne, fun _ => by linarith, fun hu => ?_⟩
    exact absurd ⟨fun hpos => absurd hpos hd.not_gt, fun _ => hu⟩ h
  · exact absurd (supports_zero (x := 0)).attracts h
  · refine ⟨hd.ne', fun hl => ?_, fun _ => by linarith⟩
    exact absurd ⟨fun _ => hl, fun hneg => absurd hneg hd.not_gt⟩ h

end Bounds

namespace Problem
variable {P : Problem n m}

/-- Values of the variables and of the rows as values of all variables. -/
def joined (x : Fin n → ℚ) (w : Fin m → ℚ) : Var n m → ℚ
  | .structural j => x j
  | .slack i => -w i

/-- The multipliers keep the row values of points within the bounds away from the sides. -/
def HasMargin (P : Problem n m) (y : Vec m) : Prop :=
  ∃ ε, 0 < ε ∧ ∀ (x : Fin n → ℚ) (w : Fin m → ℚ), (∀ j, (P.bounds.structural.get j).Contains (x j)) →
    (∀ i, (P.sides i).Contains (w i)) → ε ≤ ∑ i, y.get i * (w i - P.rowValue x i)

section Joined

theorem forall_contains_joined {x : Fin n → ℚ} {w : Fin m → ℚ} :
    (∀ v, (P.bounds.get v).Contains (joined x w v)) ↔
      (∀ j, (P.bounds.structural.get j).Contains (x j)) ∧ ∀ i, (P.sides i).Contains (w i) := by
  have hslack : ∀ i, (P.bounds.get (.slack i)).Contains (-w i) ↔ (P.sides i).Contains (w i) := by
    intro i
    have h := Bounds.contains_slack (b := P.sides i) (x := w i)
    rwa [sides, Bounds.slack_slack] at h
  constructor
  · intro h
    exact ⟨fun j => h (.structural j), fun i => (hslack i).mp (h (.slack i))⟩
  · rintro ⟨hx, hw⟩ v
    cases v with
    | structural j => exact hx j
    | slack i => exact (hslack i).mpr (hw i)

theorem combination_slack (P : Problem n m) (y : Fin m → ℚ) (i : Fin m) :
    P.combination y (.slack i) = y i := by
  simp [combination, entry]

/-- Row values in place of those of the point change the form by their weighted differences, and on the
point itself it vanishes. -/
theorem sum_form_joined (P : Problem n m) (y : Vec m) (x : Fin n → ℚ) (w : Fin m → ℚ) :
    ∑ v, (P.form y).get v * joined x w v = ∑ i, y.get i * (w i - P.rowValue x i) := by
  have hzero := (P.balanced_extended x).sum_combination y.get
  rw [Var.sum_eq] at hzero ⊢
  simp only [get_form, combination_slack, joined, extended, neg_mul, mul_neg, neg_neg, mul_sub,
    Finset.sum_neg_distrib, Finset.sum_sub_distrib] at hzero ⊢
  linarith

theorem hasMargin_iff {y : Vec m} : P.HasMargin y ↔ ∃ ε, 0 < ε ∧ ∀ z : Var n m → ℚ,
    (∀ v, (P.bounds.get v).Contains (z v)) → ε ≤ ∑ v, (P.form y).get v * z v := by
  constructor
  · rintro ⟨ε, hε, h⟩
    refine ⟨ε, hε, fun z hz => ?_⟩
    have hjoined : joined (fun j => z (.structural j)) (fun i => -z (.slack i)) = z := by
      funext v
      cases v with
      | structural j => rfl
      | slack i => exact neg_neg _
    rw [← hjoined] at hz ⊢
    obtain ⟨hx, hw⟩ := forall_contains_joined.mp hz
    rw [sum_form_joined]
    exact h _ _ hx hw
  · rintro ⟨ε, hε, h⟩
    refine ⟨ε, hε, fun x w hx hw => ?_⟩
    rw [← sum_form_joined]
    exact h _ (forall_contains_joined.mpr ⟨hx, hw⟩)

end Joined

section Least
variable {d : PerVar ℚ n m}

/-- If no term falls without limit, the least values of all terms are attained together. -/
theorem exists_least (hc : ∀ v, (P.bounds.get v).Consistent)
    (hd : ∀ v, (P.bounds.get v).Attracts (d.get v)) : ∃ z : Var n m → ℚ,
      (∀ v, (P.bounds.get v).Contains (z v)) ∧ P.least? d = some (∑ v, d.get v * z v) := by
  choose z hz hsupports using fun v => (hc v).exists_supports (hd v)
  exact ⟨z, hz, least?_of_supports hsupports⟩

/-- A term that falls without limit takes the whole form below zero. -/
theorem exists_nonpos (hc : ∀ v, (P.bounds.get v).Consistent) {v : Var n m}
    (hv : ¬(P.bounds.get v).Attracts (d.get v)) : ∃ z : Var n m → ℚ,
      (∀ w, (P.bounds.get w).Contains (z w)) ∧ ∑ w, d.get w * z w ≤ 0 := by
  obtain ⟨hne, hrecedes⟩ := Bounds.recedes_neg_of_not_attracts hv
  let base (w : Var n m) : ℚ := (P.bounds.get w).restingValue .lower
  have hbase : ∀ w, (P.bounds.get w).Contains (base w) := fun w =>
    (Bounds.rests_restingValue _ _).contains (hc w)
  let step : ℚ := max 0 (∑ w, d.get w * base w) / (d.get v * d.get v)
  have hstep : 0 ≤ step := div_nonneg (le_max_left _ _) (mul_self_nonneg _)
  refine ⟨fun w => base w + if w = v then step * -d.get v else 0, fun w => ?_, ?_⟩
  · dsimp only
    by_cases hw : w = v
    · subst hw
      rw [if_pos rfl]
      exact (hbase w).add_mul hrecedes hstep
    · rw [if_neg hw, add_zero]
      exact hbase w
  · have hfall : d.get v * (step * -d.get v) = -max 0 (∑ w, d.get w * base w) := by
      have hsquare : d.get v * d.get v ≠ 0 := mul_self_ne_zero.mpr hne
      calc d.get v * (step * -d.get v) = -(step * (d.get v * d.get v)) := by ring
        _ = -max 0 (∑ w, d.get w * base w) := by rw [div_mul_cancel₀ _ hsquare]
    have hle := le_max_right 0 (∑ w, d.get w * base w)
    simp only [mul_add, Finset.sum_add_distrib, mul_ite, mul_zero, Finset.sum_ite_eq',
      Finset.mem_univ, if_true, hfall]
    linarith

theorem least?_mul {e : PerVar ℚ n m} {t : ℚ} (ht : 0 < t) (he : ∀ v, e.get v = t * d.get v) :
    P.least? e = (P.least? d).map (t * ·) := by
  have hfold : ∀ (l : List (Var n m)) (a : ℚ), l.foldlM (fun total v =>
      ((P.bounds.get v).least? (e.get v)).map fun c => total + c) (t * a) =
      (l.foldlM (fun total v =>
        ((P.bounds.get v).least? (d.get v)).map fun c => total + c) a).map (t * ·) := by
    intro l
    induction l with
    | nil => exact fun a => rfl
    | cons v l ih =>
      intro a
      rw [List.foldlM_cons, List.foldlM_cons, he, Bounds.least?_mul ht]
      cases (P.bounds.get v).least? (d.get v) with
      | none => rfl
      | some c =>
        have hstep := ih (a + c)
        rwa [mul_add] at hstep
  have h := hfold (Var.all n m) 0
  rwa [mul_zero] at h

end Least

section Certificate
variable {y : Vec m}

theorem isCertificate_iff_hasMargin (hc : ∀ v, (P.bounds.get v).Consistent) :
    P.isCertificate y = true ↔ P.HasMargin y := by
  rw [isCertificate_iff, hasMargin_iff]
  constructor
  · rintro ⟨t, ht, hpos⟩
    exact ⟨t, hpos, fun z hz => least?_le ht fun v _ => hz v⟩
  · rintro ⟨ε, hε, h⟩
    by_cases hd : ∀ v, (P.bounds.get v).Attracts ((P.form y).get v)
    · obtain ⟨z, hz, hleast⟩ := exists_least hc hd
      exact ⟨_, hleast, hε.trans_le (h z hz)⟩
    · obtain ⟨v, hv⟩ := not_forall.mp hd
      obtain ⟨z, hz, hle⟩ := exists_nonpos hc hv
      exact absurd ((h z hz).trans hle) (not_le.mpr hε)

theorem isCertificate_mul {t : ℚ} (ht : 0 < t) :
    P.isCertificate (y.map (t * ·)) = P.isCertificate y := by
  have hform : ∀ v, (P.form (y.map (t * ·))).get v = t * (P.form y).get v := by
    intro v
    rw [get_form, get_form, mul_neg, ← P.combination_smul, combination, combination]
    simp only [get_map]
  rw [isCertificate, least?_mul ht hform, isCertificate]
  cases P.least? (P.form y) with
  | none => rfl
  | some c => simp [ht]

/-- Of opposite multipliers at most one has a margin, since both would have it at the same point. -/
theorem HasMargin.not_neg (hc : ∀ v, (P.bounds.get v).Consistent) (h : P.HasMargin y) :
    ¬P.HasMargin (y.map fun v => -v) := by
  intro hneg
  obtain ⟨ε, hε, hle⟩ := hasMargin_iff.mp h
  obtain ⟨δ, hδ, hle'⟩ := hasMargin_iff.mp hneg
  have hform : ∀ v, (P.form (y.map fun v => -v)).get v = -(P.form y).get v := by
    intro v
    simp only [get_form, combination, get_map, neg_mul, Finset.sum_neg_distrib]
  have hbase : ∀ v, (P.bounds.get v).Contains ((P.bounds.get v).restingValue .lower) := fun v =>
    (Bounds.rests_restingValue _ _).contains (hc v)
  have h₁ := hle _ hbase
  have h₂ := hle' _ hbase
  simp only [hform, neg_mul, Finset.sum_neg_distrib] at h₂
  linarith

end Certificate

section Accepts

theorem accepts_eq_false (P : Problem n m) {y : List ℚ} (h : y.length ≠ m) : P.accepts y = false := by
  unfold accepts
  split
  · next v hv =>
    rw [← toList_of_expectLength hv, Vector.length_toList] at h
    exact absurd rfl h
  · rfl

/-- Accepted multipliers prove that no point is feasible, and so does every positive multiple. If no bounds
are contradictory, those and only those are accepted that have the right length and a margin, hence no two
that are opposite to each other. -/
theorem accepts_exact (P : Problem n m) (y : List ℚ) :
    (P.accepts y = true → ¬∃ z, P.Admits z) ∧
    (∀ t, 0 < t → P.accepts (y.map (t * ·)) = P.accepts y) ∧
    (¬P.HasCrossed →
      (P.accepts y = true ↔ ∃ v : Vec m, v.toList = y ∧ P.HasMargin v) ∧
      ¬(P.accepts y = true ∧ P.accepts (y.map fun v => -v) = true)) := by
  by_cases hlength : y.length = m
  · obtain ⟨v, rfl⟩ : ∃ v : Vec m, v.toList = y := ⟨tableOf y hlength, rfl⟩
    have hmap : ∀ f, P.accepts (v.toList.map f) = P.isCertificate (v.map f) := by
      intro f
      rw [← Vector.toList_map, accepts_toList]
    rw [accepts_toList]
    refine ⟨fun h => ?_, fun t ht => ?_, fun hcrossed => ?_⟩
    · rintro ⟨z, hz⟩
      exact not_contains_of_isCertificate h (P.balanced_extended z) hz.contains
    · rw [hmap, isCertificate_mul ht]
    · have hc := contradictory?_eq_none_iff.mp (not_hasCrossed_iff.mp hcrossed)
      rw [hmap, isCertificate_iff_hasMargin hc, isCertificate_iff_hasMargin hc]
      refine ⟨⟨fun h => ⟨v, rfl, h⟩, ?_⟩, fun h => h.1.not_neg hc h.2⟩
      rintro ⟨w, hw, h⟩
      exact Vector.toList_inj.mp hw ▸ h
  · have hmap : ∀ f : ℚ → ℚ, P.accepts (y.map f) = false := by
      intro f
      apply accepts_eq_false
      rwa [List.length_map]
    have hnone : ¬∃ v : Vec m, v.toList = y ∧ P.HasMargin v := by
      rintro ⟨v, rfl, _⟩
      exact hlength v.length_toList
    simp [P.accepts_eq_false hlength, hmap, hnone]

/-- Twice the first row is the second one, which lists a column two times. It is at most two on one side and at
least three on the other. -/
theorem accepts_exact_of_repeated_column :
    ∃ P : Problem 2 2, P.matrix = .ofRows #v[[(0, 1), (1, 1)], [(0, 1), (1, 2), (0, 1)]] ∧
      P.sides 0 = ⟨none, some 1⟩ ∧ P.sides 1 = ⟨some 3, none⟩ ∧
      P.accepts [-2, 1] = true ∧ (¬∃ z, P.Admits z) ∧ P.accepts [-6, 3] = true ∧
      P.accepts [2, -1] = false ∧ P.HasMargin #v[-2, 1] := by
  let P : Problem 2 2 := {
    matrix := .ofRows #v[[(0, 1), (1, 1)], [(0, 1), (1, 2), (0, 1)]]
    objective := #v[0, 0]
    bounds := ⟨#v[⟨none, none⟩, ⟨none, none⟩], #v[⟨some (-1), none⟩, ⟨none, some (-3)⟩]⟩
    cutOff := none }
  have haccepts : P.accepts [-2, 1] = true := by decide +kernel
  have hcrossed : ¬P.HasCrossed := not_hasCrossed_iff.mpr (by decide +kernel)
  obtain ⟨hinfeasible, hscaled, hexact⟩ := P.accepts_exact [-2, 1]
  obtain ⟨hiff, hopposite⟩ := hexact hcrossed
  obtain ⟨v, hv, hmargin⟩ := hiff.mp haccepts
  have hveq : v = #v[-2, 1] := Vector.toList_inj.mp hv
  have hthree := hscaled 3 (by norm_num)
  rw [haccepts] at hthree
  refine ⟨P, rfl, by decide +kernel, by decide +kernel, haccepts, hinfeasible haccepts, ?_, ?_,
    hveq ▸ hmargin⟩
  · convert hthree using 2
    norm_num
  · rw [← Bool.not_eq_true]
    intro hneg
    refine hopposite ⟨haccepts, ?_⟩
    convert hneg using 2
    norm_num

end Accepts

end Problem

end ExactSimplex
