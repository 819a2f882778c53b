import ExactSimplex.Problem
import ExactSimplex.Proofs.Basis
import ExactSimplex.Proofs.Bounds
import ExactSimplex.Proofs.Factor.Elimination
import ExactSimplex.Proofs.Matrix

/-! # The linear algebra of a problem

The system `A x + s = 0` as sums over all variables. A vector of row multipliers turns it into one
equation, which every balanced point satisfies; taken off the costs, it gives reduced costs that
value balanced points like the costs do. If the reduced costs agree with where a balanced point
rests, no point within the bounds is better.
-/
namespace ExactSimplex
open Matrix
variable {n m : ℕ}

theorem lastValue?_getD {s : SparseVec m} (hs : (SparseVec.keys s).Nodup) (i : Fin m) :
    (Active.lastValue? s i).getD 0 = SparseVec.coeff s i := by
  rw [← SparseVec.get_writeTo_zero hs, Active.get_writeTo, Vec.get_zero]

namespace Problem
variable {P : Problem n m}

/-- The coefficient of a variable in a row of `[A I]`. -/
def entry (P : Problem n m) (i : Fin m) : Var n m → ℚ
  | .structural j => P.matrix.entry i j
  | .slack k => if k = i then 1 else 0

/-- The coefficient of a variable in a combination of the rows. -/
def combination (P : Problem n m) (y : Fin m → ℚ) (v : Var n m) : ℚ := ∑ i, y i * P.entry i v

/-- The matrix whose columns are those of the listed variables. -/
def basisMatrix (P : Problem n m) (b : Basis n m) : Matrix (Fin m) (Fin m) ℚ :=
  Matrix.of fun i r => P.entry i (b.basic.get r)

/-- The point satisfies `A x + s = 0`. -/
def Balanced (P : Problem n m) (x : Var n m → ℚ) : Prop := ∀ i, ∑ v, P.entry i v * x v = 0

/-- What remains of a cost after a combination of the rows has been taken off. -/
def reducedCost (P : Problem n m) (y : Fin m → ℚ) (v : Var n m) : ℚ :=
  P.cost v - P.combination y v

section Columns

theorem coeff_column (h : P.matrix.Mirrored) (v : Var n m) (i : Fin m) :
    SparseVec.coeff (P.column v) i = P.entry i v := by
  cases v with
  | structural j => exact h.coeff_column j i
  | slack k => simp [column, entry]

theorem column_ne_zero (h : P.matrix.Mirrored) (v : Var n m) : ∀ e ∈ P.column v, e.2 ≠ 0 := by
  cases v with
  | structural j => exact h.column_ne_zero j
  | slack k => simp [column]

theorem keys_column_nodup (h : P.matrix.Simple) (v : Var n m) :
    (SparseVec.keys (P.column v)).Nodup := by
  cases v with
  | structural j => exact h.keys_column_nodup j
  | slack k => simp [column]

theorem columnMatrix_basic (h : P.matrix.Simple) (b : Basis n m) :
    columnMatrix (b.basic.map P.column) = P.basisMatrix b := by
  ext i r
  rw [columnMatrix, of_apply, get_map, lastValue?_getD (keys_column_nodup h _),
    coeff_column h.toMirrored]
  rfl

end Columns

theorem vecMul_basisMatrix (P : Problem n m) (b : Basis n m) (y : Fin m → ℚ) (r : Fin m) :
    ((P.basisMatrix b)ᵀ *ᵥ y) r = P.combination y (b.basic.get r) := by
  rw [mulVec, dotProduct, combination]
  exact Finset.sum_congr rfl fun i _ => mul_comm _ _

theorem mulVec_basisMatrix (P : Problem n m) (b : Basis n m) (w : Fin m → ℚ) (i : Fin m) :
    (P.basisMatrix b *ᵥ w) i = ∑ r, P.entry i (b.basic.get r) * w r := rfl

theorem objectiveValue_eq_sum (P : Problem n m) (x : PerVar ℚ n m) :
    P.objectiveValue x = ∑ v, P.cost v * x.get v := by
  rw [objectiveValue, foldl_finRange_add, zero_add, Var.sum_eq]
  simp [cost, PerVar.get]

namespace Balanced
variable {x z : Var n m → ℚ}

theorem sub (hx : P.Balanced x) (hz : P.Balanced z) : P.Balanced fun v => x v - z v := by
  intro i
  simp only [mul_sub, Finset.sum_sub_distrib, hx i, hz i, sub_zero]

theorem sum_combination (hx : P.Balanced x) (y : Fin m → ℚ) : ∑ v, P.combination y v * x v = 0 := by
  calc ∑ v, P.combination y v * x v = ∑ v, ∑ i, y i * (P.entry i v * x v) :=
        Finset.sum_congr rfl fun v _ => by
          rw [combination, Finset.sum_mul]
          exact Finset.sum_congr rfl fun i _ => mul_assoc _ _ _
    _ = ∑ i, ∑ v, y i * (P.entry i v * x v) := Finset.sum_comm
    _ = 0 := Finset.sum_eq_zero fun i _ => by rw [← Finset.mul_sum, hx i, mul_zero]

/-- Reduced costs value a balanced point like the costs. -/
theorem sum_cost_eq (hx : P.Balanced x) (y : Fin m → ℚ) :
    ∑ v, P.cost v * x v = ∑ v, P.reducedCost y v * x v := by
  simp only [reducedCost, sub_mul, Finset.sum_sub_distrib, hx.sum_combination y, sub_zero]

/-- A point whose resting places agree with the reduced costs is at least as good as every point
within the bounds. -/
theorem sum_cost_le (hx : P.Balanced x) (hz : P.Balanced z) {y : Fin m → ℚ}
    (hs : ∀ v, (P.bounds.get v).Supports (x v) (P.reducedCost y v))
    (hc : ∀ v, (P.bounds.get v).Contains (z v)) :
    ∑ v, P.cost v * x v ≤ ∑ v, P.cost v * z v := by
  rw [hx.sum_cost_eq y, hz.sum_cost_eq y]
  exact Finset.sum_le_sum fun v _ => (hs v).mul_le (hc v)

end Balanced

def rowValue (P : Problem n m) (z : Fin n → ℚ) (i : Fin m) : ℚ := ∑ j, P.matrix.entry i j * z j

/-- The point lies within the bounds of the variables and its row values within the sides. -/
def Admits (P : Problem n m) (z : Fin n → ℚ) : Prop :=
  (∀ j, (P.bounds.structural.get j).Contains (z j)) ∧ ∀ i, (P.sides i).Contains (P.rowValue z i)

def extended (P : Problem n m) (z : Fin n → ℚ) : Var n m → ℚ
  | .structural j => z j
  | .slack i => -P.rowValue z i

theorem balanced_iff_slack (P : Problem n m) (x : Var n m → ℚ) :
    P.Balanced x ↔ ∀ i, x (.slack i) = -P.rowValue (fun j => x (.structural j)) i := by
  have hi : ∀ i, ∑ v, P.entry i v * x v =
      P.rowValue (fun j => x (.structural j)) i + x (.slack i) := by
    intro i
    rw [Var.sum_eq, rowValue]
    simp [entry]
  simp only [Balanced, hi]
  refine forall_congr' fun i => ⟨fun h => ?_, fun h => ?_⟩ <;> linarith

theorem balanced_extended (P : Problem n m) (z : Fin n → ℚ) : P.Balanced (P.extended z) :=
  (P.balanced_iff_slack _).mpr fun _ => rfl

theorem Admits.contains {z : Fin n → ℚ} (h : P.Admits z) (v : Var n m) :
    (P.bounds.get v).Contains (P.extended z v) := by
  cases v with
  | structural j => exact h.1 j
  | slack i =>
    have hi := Bounds.contains_slack.mpr (h.2 i)
    rw [sides, Bounds.slack_slack] at hi
    exact hi

theorem Balanced.admits {x : Var n m → ℚ} (hx : P.Balanced x)
    (hc : ∀ v, (P.bounds.get v).Contains (x v)) : P.Admits fun j => x (.structural j) := by
  refine ⟨fun j => hc (.structural j), fun i => Bounds.contains_slack.mp ?_⟩
  rw [sides, Bounds.slack_slack, ← (P.balanced_iff_slack x).mp hx i]
  exact hc (.slack i)

theorem contradictory?_eq_none_iff :
    P.contradictory? = none ↔ ∀ v, (P.bounds.get v).Consistent := by
  simp [contradictory?, ← Bounds.isContradictory_eq_false_iff, Var.mem_all]

end Problem

end ExactSimplex
