import ExactSimplex.Machine.Pass
import ExactSimplex.Machine.Solve
import ExactSimplex.Proofs.Machine.Contents

/-! # What a machine reads from its contents

Each computation that only reads, on a machine that stores data of known size, is the computation on these data.
-/
namespace ExactSimplex
variable {n m : ℕ}

theorem addUp_eq_sum (l : List ℚ) : addUp l = l.sum := List.sum_eq_foldl.symm

/-- Terms that are zero need not be summed. -/
theorem sum_map_filter {α : Type} {f : α → ℚ} {p : α → Bool} (h : ∀ a, p a = false → f a = 0) (l : List α) :
    ((l.filter p).map f).sum = (l.map f).sum := by
  induction l with
  | nil => rfl
  | cons a l ih =>
    rw [List.filter_cons]
    split
    · rw [List.map_cons, List.sum_cons, ih, List.map_cons, List.sum_cons]
    · next ha => rw [ih, List.map_cons, List.sum_cons, h a (by simpa using ha), zero_add]

/-- A loop over the numbers of some variables. -/
theorem mapM_indices {α : Type} {k : ℕ} {f : ℕ → Except Failure α} {g : Var n m → α} (v : Vector (Var n m) k)
    (h : ∀ w, f w.index = .ok (g w)) : (indices v).mapM f = .ok (v.map g).toList := by
  rw [indices, List.mapM_map, Vector.toList_map]
  exact mapM_of_forall fun w _ => h w

namespace Contents
open Machine
variable (C : Contents n m) (threads : Threads)

@[simp] theorem numCols_machine : (C.machine threads).numCols = n := rfl

@[simp] theorem numRows_machine : (C.machine threads).numRows = m :=
  C.problem.matrix.rowCount_compressed

theorem config_machine : (C.machine threads).config = C.context.config := rfl

theorem proof_machine : (C.machine threads).proof = C.context.proof := rfl

theorem guess_machine : (C.machine threads).guess = C.context.guess := rfl

theorem stuck_machine : (C.machine threads).stuck = C.stuck.map Var.index := rfl

theorem column_machine (hA : C.problem.matrix.Mirrored) (v : Var n m) :
    (C.machine threads).column v.index = .ok (SparseVec.entries (C.problem.column v)) := by
  cases v with
  | structural j =>
    unfold Machine.column
    rw [if_pos (by exact j.isLt)]
    exact hA.column_compressed j
  | slack i =>
    unfold Machine.column
    rw [if_neg (by simp [Var.index])]
    simp [Var.index, Problem.column, SparseVec.entries]

/-- Adding the entries of a sparse vector to the entries of a list. -/
theorem foldlM_addTo (c : SparseVec m) (factor : ℚ) (w : Vec m) :
    (SparseVec.entries c).foldlM (fun target e => change target e.1 (· + e.2 * factor)) w.toList =
      .ok (SparseVec.addTo c factor w).toList := by
  rw [SparseVec.entries, List.foldlM_map]
  exact foldlM_of_step (g := Vector.toList) (fun w e _ => change_toList w e.1 _) w

theorem addColumn_machine (hA : C.problem.matrix.Mirrored) (v : Var n m) (factor : ℚ) (w : Vec m) :
    (C.machine threads).addColumn v.index factor w.toList =
      .ok (SparseVec.addTo (C.problem.column v) factor w).toList := by
  cases v with
  | structural j =>
    unfold Machine.addColumn
    rw [if_pos (by exact j.isLt)]
    have hcolumn : (C.machine threads).matrix.column j =
        .ok (SparseVec.entries (C.problem.matrix.columns.get j)) := hA.column_compressed j
    change ((C.machine threads).matrix.column j).bind _ = _
    rw [hcolumn]
    exact foldlM_addTo _ factor w
  | slack i =>
    unfold Machine.addColumn
    rw [if_neg (by simp [Var.index]), numCols_machine, Var.index, Nat.add_sub_cancel_left, change_toList]
    simp [Problem.column, SparseVec.addTo, Vec.addAt]

theorem cost_machine (v : Var n m) : (C.machine threads).cost v.index = .ok (C.problem.cost v) := by
  cases v with
  | structural j =>
    unfold Machine.cost
    rw [if_pos (by exact j.isLt)]
    exact read_toList C.problem.objective j
  | slack i =>
    unfold Machine.cost
    rw [if_neg (by simp [Var.index])]
    rfl

theorem basicCosts_machine : (C.machine threads).basicCosts =
    .ok (C.point.basis.basic.map C.problem.cost).toList := by
  unfold Machine.basicCosts
  exact mapM_indices _ fun v => C.cost_machine threads v

theorem objectiveValue_machine :
    (C.machine threads).objectiveValue = C.problem.objectiveValue C.point.values := by
  unfold Machine.objectiveValue Problem.objectiveValue
  rw [addUp_eq_sum]
  change (((C.problem.objective.toList.zip C.point.values.list).filter _).map _).sum = _
  have hzip : C.problem.objective.toList.zip C.point.values.list =
      (List.finRange n).map fun j => (C.problem.objective.get j, C.point.values.structural.get j) := by
    have htail : C.problem.objective.toList = C.problem.objective.toList ++ [] := (List.append_nil _).symm
    rw [PerVar.list, htail, List.zip_append (by simp), List.zip_nil_left, List.append_nil,
      toList_eq_map_get, toList_eq_map_get, List.zip_map']
  rw [sum_map_filter fun e he => ?_, hzip, List.map_map, foldl_add_eq_sum, zero_add]
  · rfl
  · simp only [ne_eq, decide_not, Bool.not_eq_eq_eq_not, Bool.not_false, decide_eq_true_eq] at he
    rw [he, mul_zero]

end Contents

end ExactSimplex
