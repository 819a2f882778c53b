import Mathlib.Tactic.Linarith
import Mathlib.Algebra.Order.Field.Rat
import ExactSimplex.Bounds

/-! # Values within bounds

What it means for a value to lie within an interval, to rest at one of its ends, and to be the best
choice of the interval for a given cost.
-/
namespace ExactSimplex.Bounds
variable {b : Bounds} {x z d : ℚ}

/-- The value respects both ends. -/
def Contains (b : Bounds) (x : ℚ) : Prop :=
  (∀ l, b.lower = some l → l ≤ x) ∧ ∀ u, b.upper = some u → x ≤ u

/-- A finite lower end is not above a finite upper end. -/
def Consistent (b : Bounds) : Prop := ∀ l u, b.lower = some l → b.upper = some u → l ≤ u

/-- The value is at a finite end, or zero when there is none. -/
def Rests (b : Bounds) (x : ℚ) : Prop :=
  b.lower = some x ∨ b.upper = some x ∨ b.lower = none ∧ b.upper = none ∧ x = 0

/-- A positive cost keeps the value at the lower end, a negative one at the upper end. -/
def Supports (b : Bounds) (x d : ℚ) : Prop :=
  (0 < d → b.lower = some x) ∧ (d < 0 → b.upper = some x)

theorem isContradictory_eq_false_iff : b.isContradictory = false ↔ b.Consistent := by
  rcases b with ⟨_ | l, _ | u⟩ <;> simp [isContradictory, box?, Consistent]

theorem isAt_iff {e : Bound} : e.isAt x = true ↔ e = some x := by
  simp [Bound.isAt]

theorem isFree_iff : b.isFree = true ↔ b.lower = none ∧ b.upper = none := by
  simp [isFree]

theorem box?_eq_some_iff {l u : ℚ} : b.box? = some (l, u) ↔ b.lower = some l ∧ b.upper = some u := by
  rcases b with ⟨_ | l', _ | u'⟩ <;> simp [box?]

theorem box?_eq_none_iff : b.box? = none ↔ b.lower = none ∨ b.upper = none := by
  rcases b with ⟨_ | l, _ | u⟩ <;> simp [box?]

theorem Rests.contains (h : b.Rests x) (hb : b.Consistent) : b.Contains x := by
  rcases h with h | h | ⟨hl, hu, _⟩
  · refine ⟨fun l hl => ?_, fun u hu => hb x u h hu⟩
    rw [h] at hl
    exact (Option.some.inj hl).ge
  · refine ⟨fun l hl => hb l x hl h, fun u hu => ?_⟩
    rw [h] at hu
    exact (Option.some.inj hu).le
  · constructor
    · intro l h
      rw [hl] at h
      cases h
    · intro u h
      rw [hu] at h
      cases h

@[simp] theorem supports_zero : b.Supports x 0 :=
  ⟨fun h => absurd h (lt_irrefl 0), fun h => absurd h (lt_irrefl 0)⟩

theorem Supports.mul_le (h : b.Supports x d) (hz : b.Contains z) : d * x ≤ d * z := by
  rcases lt_trichotomy d 0 with hd | rfl | hd
  · exact mul_le_mul_of_nonpos_left (hz.2 x (h.2 hd)) hd.le
  · simp
  · exact mul_le_mul_of_nonneg_left (hz.1 x (h.1 hd)) hd.le

theorem supports_of_lower (h : b.lower = some x) (hd : 0 ≤ d ∨ b.upper = some x) :
    b.Supports x d :=
  ⟨fun _ => h, fun hn => hd.resolve_left (not_le.mpr hn)⟩

theorem supports_of_upper (h : b.upper = some x) (hd : d ≤ 0 ∨ b.lower = some x) :
    b.Supports x d :=
  ⟨fun hn => hd.resolve_left (not_le.mpr hn), fun _ => h⟩

theorem contains_slack {b : Bounds} : b.slack.Contains (-x) ↔ b.Contains x := by
  rcases b with ⟨_ | l, _ | u⟩ <;> simp [slack, Bound.negated, Contains, and_comm]

theorem slack_lower_eq {b : Bounds} : b.slack.lower = some (-x) ↔ b.upper = some x := by
  rcases b with ⟨l, _ | u⟩ <;> simp [slack, Bound.negated]

theorem slack_upper_eq {b : Bounds} : b.slack.upper = some (-x) ↔ b.lower = some x := by
  rcases b with ⟨_ | l, u⟩ <;> simp [slack, Bound.negated]

theorem contains_zero_surrogate (b : Bounds) : b.surrogate.Contains 0 := by
  rcases b with ⟨_ | l, _ | u⟩ <;> simp [surrogate, Contains]

theorem consistent_surrogate (b : Bounds) : b.surrogate.Consistent := by
  intro l u hl hu
  exact ((contains_zero_surrogate b).1 l hl).trans ((contains_zero_surrogate b).2 u hu)

end ExactSimplex.Bounds
