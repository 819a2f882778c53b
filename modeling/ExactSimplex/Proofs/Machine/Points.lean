import ExactSimplex.Proofs.Machine.Multiply
import ExactSimplex.Proofs.Search.State

/-! # The point of a machine

Factorizing the basis of a machine, and computing the values and the reduced costs that follow from it, leads to
the contents that are those of the search state after the same step.
-/
namespace ExactSimplex
variable {n m : ℕ}

namespace BasisFactors
variable {F G : Factorization m} (horder : F.order.length = m)

theorem decompose_entries (columns : Vector (SparseVec m) m) (limit : ℕ) :
    decompose (columns.toList.map SparseVec.entries) limit =
      (Factorization.ofColumns columns limit).map fun e => (⟨m, e.1⟩, e.2.toList.map Fin.val) := by
  generalize hlist : columns.toList.map SparseVec.entries = list
  have hm : list.length = m := by rw [← hlist, List.length_map, Vector.length_toList]
  subst hm
  have hsparse := SizedFactorization.mapM_table_eq_some_iff.mpr hlist
  unfold decompose SizedFactorization.ofColumns
  rw [hsparse]
  dsimp only
  cases Factorization.ofColumns columns limit <;> rfl

include horder

theorem eliminated_toList (w : Vec m) :
    (⟨m, F⟩ : BasisFactors).eliminated w.toList = .ok (F.applyEtas w) := by
  have hlength : ensure (w.toList.length = (⟨m, F⟩ : BasisFactors).order) = .ok () := by
    rw [ensure_eq_ok_iff, Vector.length_toList]
    exact horder.symm
  exact (bind_of_ok hlength).trans (bind_of_ok (dense_toList w))

theorem ftran_of_solve {b x : Vec m} (h : F.solve b = some x) :
    (⟨m, F⟩ : BasisFactors).ftran b.toList = .ok x.toList := by
  refine (bind_of_ok (eliminated_toList horder b)).trans ?_
  refine bind_of_ok (a := x) ?_
  change SizedFactorization.divided (F.solve b) = _
  rw [h]
  rfl

theorem ftranWithSpike_of_solve {b x : Vec m} (h : F.solve b = some x) :
    (⟨m, F⟩ : BasisFactors).ftranWithSpike b.toList =
      .ok (x.toList, SparseVec.entries (Vec.support (F.applyEtas b))) := by
  refine (bind_of_ok (eliminated_toList horder b)).trans ?_
  have hupper : (⟨m, F⟩ : BasisFactors).solveUpper (F.applyEtas b) = .ok x.toList := by
    refine bind_of_ok (a := x) ?_
    change SizedFactorization.divided (F.solve b) = _
    rw [h]
    rfl
  exact bind_of_ok hupper

theorem btran_of_solveTransposed {c y : Vec m} (h : F.solveTransposed c = some y) :
    (⟨m, F⟩ : BasisFactors).btran c.toList = .ok y.toList := by
  have hlength : ensure (c.toList.length = (⟨m, F⟩ : BasisFactors).order) = .ok () := by
    rw [ensure_eq_ok_iff, Vector.length_toList]
    exact horder.symm
  refine (bind_of_ok hlength).trans ((bind_of_ok (dense_toList c)).trans (bind_of_ok (a := y) ?_))
  change SizedFactorization.divided (F.solveTransposed c) = _
  rw [h]
  rfl

theorem changeBasis_of_replaceColumn {r : Fin m} {column : Vec m} (h : F.replaceColumn r column = .ok G) :
    (⟨m, F⟩ : BasisFactors).changeBasis r (SparseVec.entries (Vec.support (F.applyEtas column))) =
      .ok (.ok (), ⟨m, G⟩) := by
  have hpivot : ensure (r.val < (⟨m, F⟩ : BasisFactors).order) = .ok () := by
    rw [ensure_eq_ok_iff]
    exact lt_of_lt_of_eq r.isLt horder.symm
  refine (bind_of_ok hpivot).trans ?_
  rw [SizedFactorization.sparse?_entries]
  dsimp only
  rw [dif_pos r.isLt]
  rw [Factorization.replaceColumn] at h
  rw [h]
  rfl

end BasisFactors

theorem Factorization.Represents.length_order {F : Factorization m} {B : Matrix (Fin m) (Fin m) ℚ}
    (h : F.Represents B) : F.order.length = m := h.toArranged.length_order

namespace State

/-- What a machine contains in the middle of a search, besides the problem. -/
def contents (s : State n m) (c : Context) (P : Problem n m) : Contents n m :=
  ⟨c, P, true, s.toPoint, some s.factors, s.pivots, s.weights, s.stuck, s.log, none⟩

end State

namespace Contents
open ExactSimplex.Action Machine

section Refactor
variable {C : Contents n m} {threads : Threads}

theorem columns_machine (hA : C.problem.matrix.Mirrored) : (C.machine threads).basic.mapM (C.machine threads).column =
    .ok ((C.point.basis.basic.map C.problem.column).toList.map SparseVec.entries) := by
  refine (mapM_indices (g := fun v => SparseVec.entries (C.problem.column v)) _
    fun v => C.column_machine threads hA v).trans ?_
  rw [Vector.toList_map, Vector.toList_map, List.map_map]
  rfl

theorem indices_reorder (b : Basis n m) (order : Vector (Fin m) m) :
    (order.toList.map Fin.val).mapM (read (indices b.basic)) = .ok (indices (b.reorder order).basic) := by
  rw [List.mapM_map]
  refine (mapM_of_forall fun i _ => read_indices b.basic i).trans ?_
  rw [indices, Basis.reorder, Vector.toList_map, List.map_map]
  rfl

theorem read_reorder (w : Vec m) (order : Vector (Fin m) m) :
    (order.toList.map Fin.val).mapM (read w.toList) = .ok (order.map fun k => w.get k).toList := by
  rw [List.mapM_map, Vector.toList_map]
  exact mapM_of_forall fun i _ => read_toList w i

theorem refactored_machine (hA : C.problem.matrix.Mirrored) (hb : C.point.basis.Valid) {s : State n m}
    (hs : State.ofPoint C.problem C.context.config.searchLimit C.point C.pivots C.weights C.stuck C.log = .ok s) :
    Machine.refactored (C.machine threads) =
      .ok (Contents.machine { s.contents C.context C.problem with hasBasis := C.hasBasis, tau := C.tau } threads) := by
  unfold State.ofPoint at hs
  obtain ⟨⟨F, order⟩, hF, hs⟩ := exists_of_bind_eq_ok hs
  cases hs
  have hdecompose := BasisFactors.decompose_entries (C.point.basis.basic.map C.problem.column)
    C.context.config.searchLimit
  rw [hF] at hdecompose
  have horder : Function.Bijective order.get := (Factorization.represents_of_ofColumns (fun j => by
    rw [get_map]
    exact C.problem.column_ne_zero hA _) hF).1
  have hr := hb.reorder horder
  have hbasic : notePositions (C.machine threads).basicPosition (indices (C.point.basis.reorder order).basic) =
      .ok (C.point.basis.reorder order).basicPositions := by
    refine hr.notePositions_basic (length_basicPositions _) fun j i hi => ?_
    obtain ⟨r, -, rfl⟩ := getElem?_indices_eq_some_iff.mp ((hb.indexes_basic j i).mp hi)
    obtain ⟨k, rfl⟩ := horder.2 r
    rw [indices_eq_map]
    exact List.mem_map.mpr ⟨k, List.mem_finRange k, by simp [Basis.reorder]⟩
  have hweights : (C.machine threads).weights.mapM (fun weights =>
      (order.toList.map Fin.val).mapM (read weights)) =
      .ok ((C.weights.map fun w => order.map fun k => w.get k).map Vector.toList) := by
    change (C.weights.map Vector.toList).mapM _ = _
    cases C.weights with
    | none => rfl
    | some w => exact bind_of_ok (read_reorder w order)
  have hnonbasic : (C.point.basis.reorder order).nonbasicPositions = C.point.basis.nonbasicPositions :=
    indexes_unique hr.indexes_nonbasic hb.indexes_nonbasic
      ((length_nonbasicPositions _).trans (length_nonbasicPositions _).symm)
  refine (bind_of_ok (columns_machine hA)).trans ((bind_of_ok hdecompose).trans
    ((bind_of_ok (indices_reorder _ order)).trans ((bind_of_ok hbasic).trans ((bind_of_ok hweights).trans ?_))))
  unfold Contents.machine State.contents
  dsimp only
  rw [hnonbasic]
  rfl

theorem refactored_machine_of_error (hA : C.problem.matrix.Mirrored) {failure : Failure}
    (h : State.ofPoint C.problem C.context.config.searchLimit C.point C.pivots C.weights C.stuck C.log =
      .error failure) : Machine.refactored (C.machine threads) = .error failure := by
  have hdecompose := BasisFactors.decompose_entries (C.point.basis.basic.map C.problem.column)
    C.context.config.searchLimit
  unfold State.ofPoint at h
  cases hF : Factorization.ofColumns (C.point.basis.basic.map C.problem.column) C.context.config.searchLimit with
  | ok e =>
    rw [hF] at h
    cases h
  | error cause =>
    rw [hF] at h hdecompose
    cases h
    refine (bind_of_ok (columns_machine hA)).trans ?_
    unfold Except.map at hdecompose
    dsimp only at hdecompose
    change (BasisFactors.decompose _ C.context.config.searchLimit >>= _) = _
    rw [hdecompose]
    rfl

theorem leads_refactor (hA : C.problem.matrix.Mirrored) (hb : C.point.basis.Valid) {s : State n m}
    (hs : State.ofPoint C.problem C.context.config.searchLimit C.point C.pivots C.weights C.stuck C.log = .ok s) :
    Leads Machine.refactor C () { s.contents C.context C.problem with hasBasis := C.hasBasis, tau := C.tau } :=
  leads_step (fun _ => refactored_machine hA hb hs) rfl

theorem leads_factorization {F : Factorization m} (hF : C.factors = some F) :
    Leads Machine.factorization C ⟨m, F⟩ C := by
  intro threads hmeets
  refine ⟨threads, hmeets, ?_⟩
  have hmachine : (C.machine threads).factors = some ⟨m, F⟩ := by
    change C.factors.map _ = _
    rw [hF]
    rfl
  unfold Machine.factorization
  rw [run_get_bind, hmachine]
  change Machine.heldFactors.run (C.machine threads) = _
  unfold Machine.heldFactors
  rw [run_get_bind, hmachine]
  rfl

end Refactor

section Compute
variable {c : Context} {P : Problem n m} {s t : State n m} {threads : Threads}

theorem addTo_zero (a : SparseVec m) (w : Vec m) : SparseVec.addTo a 0 w = w :=
  table_ext fun i => by simp

theorem rightHandSide_contents (hA : P.matrix.Mirrored) (s : State n m) (c : Context) :
    ((s.contents c P).machine threads).rightHandSide = .ok (s.basis.nonbasic.foldl
      (fun w v => SparseVec.addTo (P.column v) (-(s.values.get v)) w) (Vec.zero m)).toList := by
  unfold Machine.rightHandSide
  rw [numRows_machine, toList_replicate, ← Vector.foldl_toList]
  change (indices s.basis.nonbasic).foldlM _ _ = _
  rw [indices, List.foldlM_map]
  refine foldlM_of_step (g := Vector.toList) (fun w v _ => ?_) _
  refine (bind_of_ok (PerVar.read_list s.values v)).trans ?_
  split
  · next hx =>
    rw [hx, neg_zero, addTo_zero]
    rfl
  · exact (s.contents c P).addColumn_machine threads hA v _ w

/-- A loop over the entries of a vector that changes the values of variables. -/
theorem foldlM_entries {x : PerVar ℚ n m} {w : Vec m} {f : List ℚ → ℚ × ℕ → Except Failure (List ℚ)}
    {h : PerVar ℚ n m → Fin m → PerVar ℚ n m}
    (hf : ∀ x i, f x.list (w.get i, i.val) = .ok (h x i).list) :
    w.toList.zipIdx.foldlM f x.list = .ok ((List.finRange m).foldl h x).list := by
  rw [zipIdx_toList, List.foldlM_map]
  exact foldlM_of_step (g := PerVar.list) (fun x i _ => hf x i) x

theorem setBasic_contents (s : State n m) (c : Context) (w : Vec m) :
    ((s.contents c P).machine threads).setBasic w.toList =
      .ok (({ s with values := State.setBasic s.basis s.values w } : State n m).contents c P |>.machine threads) := by
  refine bind_of_ok (foldlM_entries fun x i => ?_)
  exact (bind_of_ok (read_indices s.basis.basic i)).trans (PerVar.write_list x _ _)

theorem shiftBasic_contents (s : State n m) (c : Context) (factor : ℚ) (w : Vec m) :
    ((s.contents c P).machine threads).shiftBasic factor w.toList =
      .ok (({ s with values := State.shiftBasic s.basis s.values factor w } : State n m).contents c P
        |>.machine threads) := by
  refine bind_of_ok (foldlM_entries fun x i => ?_)
  dsimp only
  split
  · next hw =>
    rw [hw, mul_zero, neg_zero]
    refine congrArg _ (congrArg _ (PerVar.ext_get fun v => ?_))
    rw [PerVar.get_add]
    split <;> simp
  · refine (bind_of_ok (read_indices s.basis.basic i)).trans ?_
    rw [PerVar.change_list, PerVar.add, sub_eq_add_neg]

theorem leads_computePrimal (h : s.Sound P) (hA : P.matrix.Mirrored) (ht : s.computePrimal P = some t) :
    Leads Machine.computePrimal (s.contents c P) () (t.contents c P) := by
  unfold State.computePrimal at ht
  obtain ⟨w, hw, rfl⟩ := Option.map_eq_some_iff.mp ht
  refine (leads_factorization rfl).bind (leads_step (fun threads => ?_) rfl)
  refine (bind_of_ok (rightHandSide_contents hA s c)).trans
    ((bind_of_ok (BasisFactors.ftran_of_solve h.factors.length_order hw)).trans ?_)
  exact setBasic_contents s c w

theorem reduced_contents (s : State n m) (c : Context) (product : Vec n) :
    Machine.reduced product.toList ((s.contents c P).machine threads) =
      .ok (({ s with reduced := Vector.ofFn fun k => P.cost (s.basis.nonbasic.get k) - product.get k } :
        State n m).contents c P |>.machine threads) := by
  have hzip : (indices s.basis.nonbasic).zip product.toList =
      (List.finRange n).map fun k => ((s.basis.nonbasic.get k).index, product.get k) := by
    rw [indices_eq_map, toList_eq_map_get, List.zip_map']
  have hd : ((indices s.basis.nonbasic).zip product.toList).mapM (fun e => do
      return (← ((s.contents c P).machine threads).cost e.1) - e.2) =
      .ok (Vector.ofFn fun k => P.cost (s.basis.nonbasic.get k) - product.get k).toList := by
    rw [hzip]
    exact mapM_map_finRange fun k => bind_of_ok ((s.contents c P).cost_machine threads (s.basis.nonbasic.get k))
  exact bind_of_ok hd

theorem leads_computeDual (h : s.Sound P) (ht : s.computeDual P = some t) :
    Leads Machine.computeDual (s.contents c P) () (t.contents c P) := by
  unfold State.computeDual at ht
  obtain ⟨y, hy, rfl⟩ := Option.map_eq_some_iff.mp ht
  refine (leads_factorization rfl).bind (leads_get_bind fun threads => ?_)
  refine leads_lift_bind ((s.contents c P).basicCosts_machine threads) ?_
  refine leads_lift_bind (BasisFactors.btran_of_solveTransposed h.factors.length_order hy) ?_
  refine (leads_multiply h.basis y).bind (leads_step (fun _ => ?_) rfl)
  exact reduced_contents s c _

end Compute

end Contents

end ExactSimplex
