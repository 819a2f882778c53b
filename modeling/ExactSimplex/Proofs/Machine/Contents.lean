import ExactSimplex.Machine.Basic
import ExactSimplex.Proofs.Basis
import ExactSimplex.Proofs.Checked
import ExactSimplex.Proofs.Compressed.Store
import ExactSimplex.Proofs.Machine.Factors
import ExactSimplex.Proofs.Machine.Positions

/-! # Machines that store data of known size

A problem, a point and factors of known size are laid out in the lists of a machine. Reading and writing at the
number of a variable, a row or a position is then reading and writing in the data, and a loop over a list is the
loop over the data.
-/
namespace ExactSimplex
variable {α β : Type} {n m k : ℕ}

section Tables

theorem read_toList (v : Vector α m) (i : Fin m) : read v.toList i = .ok (v.get i) := by
  rw [read_eq_ok_iff]
  simp [get_eq_getElem]

theorem write_toList (v : Vector α m) (i : Fin m) (a : α) : write v.toList i a = .ok (put v i a).toList := by
  rw [write_of_lt (by simp)]
  exact congrArg _ (Vector.toList_set ..).symm

theorem change_toList (v : Vector α m) (i : Fin m) (f : α → α) :
    change v.toList i f = .ok (put v i (f (v.get i))).toList := by
  rw [change, read_toList]
  exact write_toList v i _

theorem zipIdx_toList (v : Vector α m) : v.toList.zipIdx = (List.finRange m).map fun i => (v.get i, i.val) := by
  refine List.ext_getElem (by simp) fun k _ _ => ?_
  simp [get_eq_getElem]

theorem toList_replicate (m : ℕ) (a : α) : List.replicate m a = (Vector.replicate m a).toList :=
  Vector.toList_replicate.symm

theorem dense_toList (w : Vec m) : SizedFactorization.dense m w.toList = .ok w := by
  unfold SizedFactorization.dense tableOf?
  rw [dif_pos Vector.length_toList]
  rfl

theorem changeAlong_toList {f : ℕ → α → β → Except Failure α} {g : Fin m → α} {v : Vector α m}
    {w : Vector β m} (h : ∀ i : Fin m, f i (v.get i) (w.get i) = .ok (g i)) :
    changeAlong f 0 v.toList w.toList = .ok (Vector.ofFn g).toList := by
  refine changeAlong_of_getElem (by simp) (by simp) fun k hk => ?_
  have hk' := h ⟨k, by simpa using hk⟩
  simpa [get_eq_getElem] using hk'

theorem mapM_map_finRange {ε γ : Type} {f : γ → Except ε α} {e : Fin m → γ} {g : Fin m → α}
    (h : ∀ i, f (e i) = .ok (g i)) : ((List.finRange m).map e).mapM f = .ok (Vector.ofFn g).toList := by
  rw [List.mapM_map, toList_eq_map_get]
  refine (mapM_of_forall (g := g) fun i _ => h i).trans (congrArg _ (List.map_congr_left fun i _ => ?_))
  rw [get_ofFn]

/-- A loop whose steps are those of another loop. -/
theorem foldlM_of_step {ε γ : Type} {f : β → α → Except ε β} {g : γ → β} {h : γ → α → γ} {l : List α}
    (hstep : ∀ c, ∀ a ∈ l, f (g c) a = .ok (g (h c a))) (c : γ) :
    l.foldlM f (g c) = .ok (g (l.foldl h c)) := by
  induction l generalizing c with
  | nil => rfl
  | cons a l ih =>
    rw [List.foldlM_cons, hstep c a List.mem_cons_self]
    exact ih (fun c b hb => hstep c b (List.mem_cons_of_mem a hb)) _

end Tables

namespace PerVar

/-- The values of the structural variables, followed by those of the slacks. -/
def list (t : PerVar α n m) : List α := t.structural.toList ++ t.slack.toList

theorem list_eq_map (t : PerVar α n m) : t.list = (Var.all n m).map t.get := by
  rw [list, Var.all, List.map_append, List.map_map, List.map_map, toList_eq_map_get, toList_eq_map_get]
  rfl

@[simp] theorem length_list (t : PerVar α n m) : t.list.length = n + m := by simp [list]

theorem getElem?_list (t : PerVar α n m) (v : Var n m) : t.list[v.index]? = some (t.get v) := by
  cases v with
  | structural j =>
    rw [list, List.getElem?_append_left (by simp [Var.index])]
    simp [Var.index, get, get_eq_getElem]
  | slack i => simp [list, Var.index, get, get_eq_getElem]

theorem read_list (t : PerVar α n m) (v : Var n m) : read t.list v.index = .ok (t.get v) :=
  read_eq_ok_iff.mpr (t.getElem?_list v)

theorem write_list (t : PerVar α n m) (v : Var n m) (a : α) :
    write t.list v.index a = .ok (t.set v a).list := by
  cases v with
  | structural j =>
    rw [write_of_lt (by simp [Var.index]; omega), list, List.set_append_left _ _ (by simp [Var.index])]
    rw [set, put, list, Vector.toList_set]
    rfl
  | slack i =>
    rw [write_of_lt (by simp [Var.index]), list, List.set_append_right _ _ (by simp [Var.index])]
    rw [Vector.length_toList, Var.index, Nat.add_sub_cancel_left, set, put, list, Vector.toList_set]

theorem change_list (t : PerVar α n m) (v : Var n m) (f : α → α) :
    change t.list v.index f = .ok (t.set v (f (t.get v))).list := by
  rw [change, read_list]
  exact t.write_list v _

theorem list_const (n m : ℕ) (a : α) : List.replicate (n + m) a = (const a : PerVar α n m).list := by
  rw [list, const, Vector.toList_replicate, Vector.toList_replicate, List.replicate_append_replicate]

theorem list_map (f : α → β) (t : PerVar α n m) : t.list.map f = (t.map f).list := by
  simp [list_eq_map, Function.comp_def]

end PerVar

/-- The numbers of some variables. -/
def indices (v : Vector (Var n m) k) : List ℕ := v.toList.map Var.index

@[simp] theorem length_indices (v : Vector (Var n m) k) : (indices v).length = k := by simp [indices]

theorem read_indices (v : Vector (Var n m) k) (i : Fin k) : read (indices v) i = .ok (v.get i).index := by
  rw [read_eq_ok_iff]
  simp [indices, get_eq_getElem]

theorem write_indices (v : Vector (Var n m) k) (i : Fin k) (w : Var n m) :
    write (indices v) i w.index = .ok (indices (put v i w)) := by
  rw [write_of_lt (by simp), indices, indices, put, Vector.toList_set, List.map_set]

theorem indices_eq_map (v : Vector (Var n m) k) : indices v = (List.finRange k).map fun i => (v.get i).index := by
  rw [indices, toList_eq_map_get, List.map_map]
  rfl

theorem zipIdx_indices (v : Vector (Var n m) k) :
    (indices v).zipIdx = (List.finRange k).map fun i => ((v.get i).index, i.val) := by
  rw [indices, List.zipIdx_map, zipIdx_toList, List.map_map]
  rfl

namespace Place

/-- The position of a basic variable. -/
def row? : Place n m → Option ℕ
  | basic i => some i
  | nonbasic _ => none

/-- The position of a nonbasic variable. -/
def column? : Place n m → Option ℕ
  | basic _ => none
  | nonbasic k => some k

end Place

namespace Basis
variable {b : Basis n m}

def basicPositions (b : Basis n m) : List (Option ℕ) := b.place.list.map Place.row?

def nonbasicPositions (b : Basis n m) : List (Option ℕ) := b.place.list.map Place.column?

end Basis

theorem Var.index_lt (v : Var n m) : v.index < n + m := by
  cases v <;> simp only [Var.index] <;> omega

theorem Var.exists_index {j : ℕ} (h : j < n + m) : ∃ v : Var n m, v.index = j := by
  rcases Nat.lt_or_ge j n with hj | hj
  · exact ⟨.structural ⟨j, hj⟩, rfl⟩
  · exact ⟨.slack ⟨j - n, by omega⟩, by simp only [Var.index]; omega⟩

section Positions
open Machine

theorem write_map_list (f : α → β) (t : PerVar α n m) (v : Var n m) (a : α) :
    write (t.list.map f) v.index (f a) = .ok ((t.set v a).list.map f) := by
  rw [PerVar.list_map, PerVar.write_list, PerVar.list_map]
  refine congrArg _ (congrArg _ (PerVar.ext_get fun w => ?_))
  rw [PerVar.get_set, PerVar.get_mapped, PerVar.get_mapped, PerVar.get_set]
  split <;> rfl

theorem getElem?_indices_eq_some_iff {v : Vector (Var n m) k} {i j : ℕ} :
    (indices v)[i]? = some j ↔ ∃ r : Fin k, r.val = i ∧ (v.get r).index = j := by
  rw [indices_eq_map, List.getElem?_map, Option.map_eq_some_iff]
  constructor
  · rintro ⟨r, hr, rfl⟩
    obtain ⟨hi, rfl⟩ := List.getElem?_eq_some_iff.mp hr
    exact ⟨_, by simp, rfl⟩
  · rintro ⟨r, rfl, rfl⟩
    exact ⟨r, by simp, rfl⟩

/-- A list of positions says where some variables stand, if the places say so. -/
theorem indexes_of_place {place : PerVar (Place n m) n m} {v : Vector (Var n m) k}
    {f : Place n m → Option ℕ} (hf : ∀ w (r : Fin k), f (place.get w) = some r.val ↔ v.get r = w)
    (hlt : ∀ w i, f (place.get w) = some i → i < k) : Indexes (place.list.map f) (indices v) := by
  intro j i
  rw [getElem?_indices_eq_some_iff]
  constructor
  · intro hj
    rw [List.getElem?_map] at hj
    obtain ⟨a, ha, hi⟩ := Option.map_eq_some_iff.mp hj
    have hlt' := (List.getElem?_eq_some_iff.mp ha).1
    rw [PerVar.length_list] at hlt'
    obtain ⟨w, rfl⟩ := Var.exists_index hlt'
    rw [PerVar.getElem?_list, Option.some_inj] at ha
    subst ha
    exact ⟨⟨i, hlt w i hi⟩, rfl, congrArg Var.index ((hf w ⟨i, hlt w i hi⟩).mp hi)⟩
  · rintro ⟨r, rfl, rfl⟩
    rw [List.getElem?_map, PerVar.getElem?_list, Option.map_some]
    exact congrArg some ((hf _ r).mpr rfl)

variable {b : Basis n m}

theorem Basis.Valid.indexes_basic (h : b.Valid) : Indexes b.basicPositions (indices b.basic) := by
  refine indexes_of_place (fun w r => ?_) fun w i hi => ?_
  · rw [← h.place_eq_basic]
    cases b.place.get w <;> simp [Place.row?, Fin.ext_iff]
  · cases hw : b.place.get w with
    | basic r =>
      rw [hw] at hi
      cases hi
      exact r.isLt
    | nonbasic k =>
      rw [hw] at hi
      cases hi

theorem Basis.Valid.indexes_nonbasic (h : b.Valid) : Indexes b.nonbasicPositions (indices b.nonbasic) := by
  refine indexes_of_place (fun w r => ?_) fun w i hi => ?_
  · rw [← h.place_eq_nonbasic]
    cases b.place.get w <;> simp [Place.column?, Fin.ext_iff]
  · cases hw : b.place.get w with
    | basic r =>
      rw [hw] at hi
      cases hi
    | nonbasic k =>
      rw [hw] at hi
      cases hi
      exact k.isLt

theorem indexes_unique {positions others : List (Option ℕ)} {members : List ℕ}
    (h : Indexes positions members) (h' : Indexes others members) (hlength : positions.length = others.length) :
    positions = others := by
  refine List.ext_getElem hlength fun j hj hj' => Option.ext fun i => ?_
  have hi := (h j i).trans (h' j i).symm
  rw [List.getElem?_eq_getElem hj, List.getElem?_eq_getElem hj', Option.some_inj, Option.some_inj] at hi
  exact hi

/-- Noting the positions of the members of a list gives the list of positions that fits. -/
theorem notePositions_eq {v : Vector (Var n m) k} {positions result : List (Option ℕ)}
    (hinj : Function.Injective v.get) (hresult : Indexes result (indices v)) (hlength : positions.length = n + m)
    (hlength' : result.length = n + m)
    (hbefore : ∀ j i : ℕ, positions[j]? = some (some i) → j ∈ indices v) :
    notePositions positions (indices v) = .ok result := by
  have hnodup : (indices v).Nodup := by
    rw [indices_eq_map]
    exact (List.nodup_finRange k).map fun i j h => hinj (Var.index_injective h)
  obtain ⟨noted, hnoted⟩ : ∃ noted, notePositions positions (indices v) = .ok noted :=
      exists_notePositions fun j hj => by
    rw [indices_eq_map] at hj
    obtain ⟨i, -, rfl⟩ := List.mem_map.mp hj
    exact hlength ▸ (v.get i).index_lt
  obtain ⟨hl, hi⟩ := indexes_of_notePositions hnodup hnoted hbefore
  rw [hnoted, indexes_unique hi hresult (by omega)]

theorem length_basicPositions (b : Basis n m) : b.basicPositions.length = n + m := by
  rw [Basis.basicPositions, List.length_map, PerVar.length_list]

theorem length_nonbasicPositions (b : Basis n m) : b.nonbasicPositions.length = n + m := by
  rw [Basis.nonbasicPositions, List.length_map, PerVar.length_list]

theorem Basis.Valid.notePositions_basic (h : b.Valid) {positions : List (Option ℕ)}
    (hlength : positions.length = n + m)
    (hbefore : ∀ j i : ℕ, positions[j]? = some (some i) → j ∈ indices b.basic) :
    notePositions positions (indices b.basic) = .ok b.basicPositions :=
  notePositions_eq h.basic_injective h.indexes_basic hlength (length_basicPositions b) hbefore

theorem Basis.Valid.notePositions_nonbasic (h : b.Valid) {positions : List (Option ℕ)}
    (hlength : positions.length = n + m)
    (hbefore : ∀ j i : ℕ, positions[j]? = some (some i) → j ∈ indices b.nonbasic) :
    notePositions positions (indices b.nonbasic) = .ok b.nonbasicPositions :=
  notePositions_eq h.nonbasic_injective h.indexes_nonbasic hlength (length_nonbasicPositions b) hbefore

end Positions

/-- What a machine holds besides a problem and a point. -/
structure Context where
  config : Config
  cutOff : Bound
  proof : Option (List ℚ)
  guess : Option (List Double)
  perturbed : Bool
  provider : Option (List (Option Suggestion))
  shown : Option ProblemView

/-- The helpers, and what is still to happen outside. -/
structure Threads where
  multiplier : Helper (List ℚ)
  steepestEdge : Option (Helper (List ℚ))
  schedule : List Turn

/-- What a machine holds, in data of known size. A job of the second helper may be under way. -/
structure Contents (n m : ℕ) where
  context : Context
  problem : Problem n m
  hasBasis : Bool
  point : Point n m
  factors : Option (Factorization m)
  pivots : ℕ
  weights : Option (Vec m)
  stuck : Option (Var n m)
  log : Array Event
  tau : Option (Vec m)

namespace Contents

/-- The machine that holds these data. -/
def machine (C : Contents n m) (threads : Threads) : Machine where
  config := C.context.config
  matrix := C.problem.matrix.compressed
  objective := C.problem.objective.toList
  bounds := C.problem.bounds.list
  cutOff := C.context.cutOff
  hasBasis := C.hasBasis
  basic := indices C.point.basis.basic
  basicPosition := C.point.basis.basicPositions
  nonbasic := indices C.point.basis.nonbasic
  nonbasicPosition := C.point.basis.nonbasicPositions
  x := C.point.values.list
  d := C.point.reduced.toList
  factors := C.factors.map fun F => ⟨m, F⟩
  updates := C.pivots
  weights := C.weights.map Vector.toList
  proof := C.context.proof
  guess := C.context.guess
  stuck := C.stuck.map Var.index
  perturbed := C.context.perturbed
  multiplier := threads.multiplier
  steepestEdge := threads.steepestEdge
  provider := C.context.provider
  schedule := threads.schedule
  shown := C.context.shown
  log := C.log

end Contents

end ExactSimplex
