import ExactSimplex.Machine.Solve
import ExactSimplex.Proofs.Machine.Points
import ExactSimplex.Proofs.Solver.Optimize

/-! # What a machine shows

The point, the statuses, the problem and the test of a certificate are the same for a machine as for the solver
whose data it contains.
-/
namespace ExactSimplex
variable {n m : ℕ}
open ExactSimplex.Action Machine

namespace Start

/-- There is a basis. -/
def isPresent : Start n m → Bool
  | cold => false
  | _ => true

def factors? : Start n m → Option (Factorization m)
  | warm state => some state.factors
  | _ => none

def pivots : Start n m → ℕ
  | warm state => state.pivots
  | _ => 0

def weights? : Start n m → Option (Vec m)
  | warm state => state.weights
  | _ => none

def stuck? : Start n m → Option (Var n m)
  | warm state => state.stuck
  | _ => none

end Start

section Expectations

theorem expectLength_cases {α : Type} (what : Quantity) (expected : ℕ) (xs : List α) :
    (∃ v : Vector α expected, xs = v.toList ∧ expectLength what expected xs = .ok v ∧
      requireLength what expected xs = .ok ()) ∨
    ∃ cause, expectLength what expected xs = .error cause ∧
      requireLength what expected xs = .error (.refused cause) ∧ xs.length ≠ expected := by
  unfold expectLength requireLength require tableOf?
  by_cases h : xs.length = expected
  · refine .inl ⟨tableOf xs h, rfl, ?_, if_pos h⟩
    rw [dif_pos h]
  · refine .inr ⟨_, ?_, if_neg h, h⟩
    rw [dif_neg h]

theorem expectIndex_cases (what : Entity) (count index : ℕ) :
    (∃ i : Fin count, index = i ∧ expectIndex what count index = .ok i ∧
      requireIndex what count index = .ok ()) ∨
    ∃ cause, expectIndex what count index = .error cause ∧
      requireIndex what count index = .error (.refused cause) := by
  unfold expectIndex requireIndex require
  by_cases h : index < count
  · exact .inl ⟨⟨index, h⟩, rfl, dif_pos h, if_pos h⟩
  · exact .inr ⟨_, dif_neg h, if_neg h⟩

end Expectations

section Numbers

theorem zipIdx_map_index {α : Type} (f : Var n m → α) {l : List (Var n m)} {k : ℕ}
    (hl : l.map Var.index = List.range' k l.length) : (l.map f).zipIdx k = l.map fun v => (f v, v.index) := by
  induction l generalizing k with
  | nil => rfl
  | cons v l ih =>
    rw [List.map_cons, List.length_cons, List.range'_succ, List.cons.injEq] at hl
    rw [List.map_cons, List.zipIdx_cons, ih hl.2, List.map_cons, hl.1]

theorem PerVar.zipIdx_list {α : Type} (t : PerVar α n m) :
    t.list.zipIdx = (Var.all n m).map fun v => (t.get v, v.index) := by
  rw [list_eq_map]
  exact zipIdx_map_index t.get (by rw [Var.map_index_all, Var.length_all, List.range_eq_range'])

end Numbers

theorem mapM_range {α : Type} {k : ℕ} {f : ℕ → Except Failure α} {g : Fin k → α} (h : ∀ i : Fin k, f i = .ok (g i)) :
    (List.range k).mapM f = .ok ((List.finRange k).map g) := by
  rw [← List.map_coe_finRange_eq_range, List.mapM_map]
  exact mapM_of_forall fun i _ => h i

theorem SparseMatrix.denseRow_compressed (A : SparseMatrix m n) (i : Fin m) :
    A.compressed.denseRow i = .ok (A.denseRow i).toList := by
  refine (bind_of_ok (A.row_compressed i)).trans ?_
  change (SparseVec.entries _).foldlM _ (List.replicate n 0) = _
  rw [toList_replicate, SparseVec.entries, List.foldlM_map]
  exact foldlM_of_step (g := Vector.toList) (fun w e _ => write_toList w e.1 e.2) _

namespace Contents
variable (C : Contents n m) (threads : Threads)

section Problem

theorem read_bounds (v : Var n m) :
    read (C.machine threads).bounds v.index = .ok (C.problem.bounds.get v) := PerVar.read_list _ v

theorem view_machine : (C.machine threads).view = .ok C.problem.view := by
  have hrows := mapM_range C.problem.matrix.denseRow_compressed
  have hsides : (List.range m).mapM (fun i => do
      return (← read (C.machine threads).bounds ((C.machine threads).numCols + i)).slack) =
      .ok ((List.finRange m).map C.problem.sides) :=
    mapM_range fun i => bind_of_ok (C.read_bounds threads (.slack i))
  have hbounds := mapM_range fun j => C.read_bounds threads (.structural j)
  unfold Machine.view
  rw [numRows_machine]
  refine (bind_of_ok hrows).trans ((bind_of_ok hsides).trans ((bind_of_ok hbounds).trans (congrArg Except.ok ?_)))
  unfold Problem.view SparseMatrix.denseRows
  rw [List.map_map, toList_eq_map_get C.problem.bounds.structural]
  rfl

end Problem

section Certificate

/-- Taking a multiple of a row off the entries of a list of negated entries. -/
theorem foldlM_negated (a : SparseVec n) (factor : ℚ) (w : Vec n) :
    (SparseVec.entries a).foldlM (fun d e => change d e.1 (· - e.2 * factor)) (w.map fun d => -d).toList =
      .ok ((SparseVec.addTo a factor w).map fun d => -d).toList := by
  rw [SparseVec.entries, List.foldlM_map]
  refine foldlM_of_step (g := fun w : Vec n => (w.map fun d => -d).toList) (fun w e _ => ?_) w
  rw [change_toList]
  refine congrArg Except.ok (congrArg Vector.toList (table_ext fun j => ?_))
  rw [get_put, get_map, get_map, get_map, Vec.addAt, get_put]
  split
  · next h => subst h; ring
  · rfl

theorem form_machine (y : Vec m) : (C.machine threads).form y.toList =
    .ok (C.problem.form y).structural.toList := by
  have hzero : List.replicate n (0 : ℚ) = ((Vec.zero n).map fun d => -d).toList := by
    rw [toList_replicate]
    exact congrArg Vector.toList (table_ext fun j => by simp [Vec.zero])
  unfold Machine.form Problem.form SparseMatrix.rowCombination
  rw [numCols_machine, zipIdx_toList, List.foldlM_map, hzero]
  refine foldlM_of_step (g := fun w : Vec n => (w.map fun d => -d).toList) (fun w i _ => ?_) _
  dsimp only
  split
  · rfl
  · exact (bind_of_ok (C.problem.matrix.row_compressed i)).trans (foldlM_negated _ _ w)

/-- A loop that goes on with nothing once it has nothing. -/
theorem foldlM_of_nothing {α β : Type} {f : β → α → Option β} {g : Option β → α → Except Failure (Option β)}
    (hnone : ∀ a, g none a = .ok none) (hsome : ∀ b a, g (some b) a = .ok (f b a)) (l : List α) (b : β) :
    l.foldlM g (some b) = .ok (l.foldlM f b) := by
  have hrest (l : List α) : l.foldlM g none = .ok none := by
    induction l with
    | nil => rfl
    | cons a l ih => rw [List.foldlM_cons, hnone]; exact ih
  induction l generalizing b with
  | nil => rfl
  | cons a l ih =>
    rw [List.foldlM_cons, List.foldlM_cons, hsome]
    cases f b a with
    | none => exact hrest l
    | some b => exact ih b

theorem least?_machine (d : PerVar ℚ n m) : (C.machine threads).least? d.list = .ok (C.problem.least? d) := by
  unfold Machine.least? Problem.least?
  rw [PerVar.zipIdx_list, List.foldlM_map]
  refine foldlM_of_nothing (fun _ => rfl) (fun total v => ?_) _ _
  dsimp only
  split
  · next hd =>
    simp [hd, Bounds.least?, pure, Except.pure]
  · exact bind_of_ok (C.read_bounds threads v)

theorem isFarkasCertificate_machine (y : List ℚ) :
    (C.machine threads).isFarkasCertificate y = .ok (C.problem.accepts y) := by
  unfold Machine.isFarkasCertificate Problem.accepts
  rw [numRows_machine]
  rcases expectLength_cases .ray m y with ⟨y, rfl, hy, -⟩ | ⟨cause, hy, -, hlength⟩
  · rw [hy, if_neg (by simp)]
    have hforms : (C.problem.form y).structural.toList ++ y.toList.map (fun v => -v) = (C.problem.form y).list := by
      rw [← Vector.toList_map]
      rfl
    refine (bind_of_ok (C.form_machine threads y)).trans ?_
    rw [hforms]
    refine (bind_of_ok (C.least?_machine threads _)).trans (congrArg Except.ok ?_)
    dsimp only
    unfold Problem.isCertificate
    cases C.problem.least? (C.problem.form y) <;> rfl
  · rw [hy, if_pos hlength]
    rfl

end Certificate

section Snapshot

theorem slice_front {α : Type} (t : PerVar α n m) : slice t.list 0 n = .ok t.structural.toList := by
  unfold slice
  rw [if_pos (by simp)]
  simp [PerVar.list]

theorem slice_back {α : Type} (t : PerVar α n m) : slice t.list n t.list.length = .ok t.slack.toList := by
  unfold slice
  rw [if_pos (by simp)]
  simp [PerVar.list]

theorem read_basicPosition (v : Var n m) :
    read (C.machine threads).basicPosition v.index = .ok (C.point.basis.place.get v).row? := by
  rw [read_eq_ok_iff]
  simp [Contents.machine, Basis.basicPositions, PerVar.getElem?_list]

theorem read_nonbasicPosition (v : Var n m) :
    read (C.machine threads).nonbasicPosition v.index = .ok (C.point.basis.place.get v).column? := by
  rw [read_eq_ok_iff]
  simp [Contents.machine, Basis.nonbasicPositions, PerVar.getElem?_list]

theorem reducedCosts_machine : (C.machine threads).reducedCosts =
    .ok (Vector.ofFn fun j : Fin n => C.point.basis.spread C.point.reduced (.structural j)).toList := by
  unfold Machine.reducedCosts
  rw [numCols_machine, mapM_range (g := fun j : Fin n => C.point.basis.spread C.point.reduced (.structural j))
    fun j => ?_]
  · rw [Vector.toList_ofFn, List.ofFn_eq_map]
  · refine (bind_of_ok (C.read_nonbasicPosition threads (.structural j))).trans ?_
    unfold Basis.spread
    cases C.point.basis.place.get (.structural j) with
    | basic i => rfl
    | nonbasic k => exact read_toList C.point.reduced k

/-- The status of a variable. -/
def status (v : Var n m) : Status :=
  let b := C.problem.bounds.get v
  let x := C.point.values.get v
  if C.hasBasis && C.point.basis.isBasic v then .basic
  else if b.lower.isAt x then .atLower
  else if b.upper.isAt x then .atUpper
  else .free

theorem status_machine (v : Var n m) : (C.machine threads).status v.index = .ok (C.status v) := by
  have hresting : (do
      let b ← read (C.machine threads).bounds v.index
      let x ← read (C.machine threads).x v.index
      if b.lower.isAt x then return .atLower
      else if b.upper.isAt x then return .atUpper
      else return .free) = (.ok (if (C.problem.bounds.get v).lower.isAt (C.point.values.get v) then .atLower
        else if (C.problem.bounds.get v).upper.isAt (C.point.values.get v) then .atUpper
        else .free) : Except Failure Status) := by
    refine (bind_of_ok (C.read_bounds threads v)).trans ((bind_of_ok (PerVar.read_list C.point.values v)).trans ?_)
    split
    · rfl
    · split <;> rfl
  unfold Machine.status Contents.status
  change (if C.hasBasis then _ else _) = _
  cases C.hasBasis with
  | false => exact hresting
  | true =>
    refine (bind_of_ok (C.read_basicPosition threads v)).trans ?_
    unfold Basis.isBasic
    cases C.point.basis.place.get v with
    | basic i => rfl
    | nonbasic k => exact hresting

theorem base_machine : (C.machine threads).base = .ok ((List.finRange n).map fun j => C.status (.structural j),
    (List.finRange m).map fun i => C.status (.slack i)) := by
  let statuses : PerVar Status n m :=
    ⟨Vector.ofFn fun j => C.status (.structural j), Vector.ofFn fun i => C.status (.slack i)⟩
  have hall : (List.range (C.machine threads).bounds.length).mapM (C.machine threads).status = .ok statuses.list := by
    have hlength : (C.machine threads).bounds.length = n + m := PerVar.length_list _
    rw [hlength, ← Var.map_index_all, List.mapM_map, PerVar.list_eq_map]
    refine mapM_of_forall fun v _ => ?_
    rw [Function.comp_apply, status_machine]
    cases v <;> simp [statuses, PerVar.get]
  have hstructural : statuses.structural.toList = (List.finRange n).map fun j => C.status (.structural j) := by
    rw [Vector.toList_ofFn, List.ofFn_eq_map]
  have hslack : statuses.slack.toList = (List.finRange m).map fun i => C.status (.slack i) := by
    rw [Vector.toList_ofFn, List.ofFn_eq_map]
  rw [← hstructural, ← hslack]
  unfold Machine.base
  rw [numCols_machine]
  exact (bind_of_ok hall).trans ((bind_of_ok (slice_front statuses)).trans (bind_of_ok (slice_back statuses)))

theorem constraintBounds_machine (i : Fin m) :
    (C.machine threads).constraintBounds i = .ok (C.problem.sides i) := by
  unfold Machine.constraintBounds
  rw [numRows_machine]
  exact (bind_of_ok (if_pos i.isLt)).trans (bind_of_ok (C.read_bounds threads (.slack i)))

theorem variableBounds_machine (j : Fin n) :
    (C.machine threads).variableBounds j = .ok (C.problem.bounds.structural.get j) :=
  (bind_of_ok (if_pos j.isLt)).trans (C.read_bounds threads (.structural j))

end Snapshot

end Contents

section Solvers

/-- What happens around a solver: what is left of the last solve, and the threads. -/
structure Surroundings where
  perturbed : Bool
  shown : Option ProblemView
  log : Array Event
  threads : Threads

namespace Solver
variable {S : Solver n m} {o : Surroundings}

/-- What a machine holds besides the problem and the point. -/
def context (S : Solver n m) (o : Surroundings) : Context :=
  ⟨S.config, S.problem.cutOff, S.proof.map Vector.toList, S.guess.map Vector.toList, o.perturbed, S.provider, o.shown⟩

/-- What a machine contains between two solves. -/
def contents (S : Solver n m) (o : Surroundings) : Contents n m :=
  ⟨S.context o, S.problem, S.start.isPresent, S.start.point, S.start.factors?, S.start.pivots, S.start.weights?,
    S.start.stuck?, o.log, none⟩

/-- The machine that stores the data of a solver. -/
def machine (S : Solver n m) (o : Surroundings) : Machine := (S.contents o).machine o.threads

@[simp] theorem numCols_machine : (S.machine o).numCols = n := rfl

@[simp] theorem numRows_machine : (S.machine o).numRows = m := Contents.numRows_machine _ _

theorem contents_of_warm {state : State n m} (h : S.start = .warm state) :
    S.contents o = { state.contents (S.context o) S.problem with log := o.log } := by
  unfold contents
  rw [h]
  rfl

theorem status_contents (v : Var n m) : (S.contents o).status v = S.status v := by
  have hbasic : (S.start.isPresent && S.start.point.basis.isBasic v) = S.start.isBasic v := by
    cases S.start <;> rfl
  unfold Contents.status Solver.status
  rw [← hbasic]
  rfl

theorem Sound.duals_machine (h : S.Sound) : (S.machine o).duals = .ok (S.y.map Vector.toList) := by
  have hstart := h.start
  unfold Solver.machine Solver.y
  cases hs : S.start with
  | cold =>
    unfold Solver.contents
    rw [hs]
    rfl
  | imported point =>
    unfold Solver.contents
    rw [hs]
    rfl
  | warm state =>
    rw [hs] at hstart
    obtain ⟨y, hy, -⟩ := State.Sound.duals_eq (P := S.problem) hstart
    rw [contents_of_warm hs]
    dsimp only
    rw [hy]
    have hcosts := (state.contents (S.context o) S.problem).basicCosts_machine o.threads
    exact (bind_of_ok hcosts).trans (bind_of_ok (BasisFactors.btran_of_solveTransposed
      (State.Sound.factors (P := S.problem) hstart).length_order hy))

theorem Sound.snapshot_machine (h : S.Sound) : (S.machine o).snapshot = .ok S.snapshot := by
  have hx : (S.machine o).values = .ok S.x.toList := Contents.slice_front _
  have hbase := (S.contents o).base_machine o.threads
  simp only [status_contents] at hbase
  unfold Machine.snapshot
  refine (bind_of_ok hx).trans ((bind_of_ok h.duals_machine).trans
    ((bind_of_ok (Contents.reducedCosts_machine _ _)).trans ((bind_of_ok hbase).trans ?_)))
  rw [Solver.machine, Contents.objectiveValue_machine, Solver.snapshot, d_eq_spread]
  rfl

end Solver

end Solvers

end ExactSimplex
