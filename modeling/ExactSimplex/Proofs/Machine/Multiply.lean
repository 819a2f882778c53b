import ExactSimplex.Proofs.Machine.Leads
import ExactSimplex.Proofs.Machine.Reads
import ExactSimplex.Proofs.Product

/-! # The product of a machine

The two accumulators of a machine go through the same claims as those of a division of the rows, so their
totals together are the product, whichever thread gets which rows.
-/
namespace ExactSimplex
variable {n m : ℕ}

def Share.portion (s : Share n) : Portion := ⟨s.total.toList, s.finished⟩

def Division.portions (d : Division n) : Portions := ⟨d.nextRow, d.caller.portion, d.helper.portion⟩

namespace Multiplication

/-- The multiplication of a vector with the columns of a problem that have a nonbasic place. -/
def ofProblem (P : Problem n m) (place : PerVar (Place n m) n m) (y : Vec m) : Multiplication :=
  ⟨P.matrix.compressed, place.list.map Place.column?, y.toList⟩

variable (P : Problem n m) (place : PerVar (Place n m) n m) (y : Vec m)

theorem rowCount_ofProblem : (ofProblem P place y).matrix.rowCount = m := P.matrix.rowCount_compressed

theorem addNonbasic_ofProblem (total : Vec n) (v : Var n m) (value : ℚ) :
    (ofProblem P place y).addNonbasic total.toList v.index value =
      .ok (Problem.addNonbasic place total v value).toList := by
  have hread : read (ofProblem P place y).positions v.index = .ok (place.get v).column? := by
    rw [ofProblem, PerVar.list_map, PerVar.read_list, PerVar.get_mapped]
  unfold Multiplication.addNonbasic Problem.addNonbasic
  rw [hread]
  cases place.get v with
  | basic i => rfl
  | nonbasic k => exact change_toList total k _

theorem addRow_ofProblem (total : Vec n) (i : Fin m) :
    (ofProblem P place y).addRow total.toList i = .ok (P.addNonbasicRow place y total i).toList := by
  have hread : read (ofProblem P place y).vector i = .ok (y.get i) := read_toList y i
  have hrow : (ofProblem P place y).matrix.row i = .ok (SparseVec.entries (P.matrix.rows.get i)) :=
    P.matrix.row_compressed i
  unfold Multiplication.addRow Problem.addNonbasicRow
  rw [hread]
  change (if y.get i = 0 then _ else _) = _
  split
  · rfl
  · refine (bind_of_ok hrow).trans ?_
    -- the entries of the row come first, then that of its slack
    have hentries : (SparseVec.entries (P.matrix.rows.get i)).foldlM
        (fun total e => (ofProblem P place y).addNonbasic total e.1 (e.2 * y.get i)) total.toList =
        .ok ((P.matrix.rows.get i).foldl (fun total e =>
          Problem.addNonbasic place total (.structural e.1) (e.2 * y.get i)) total).toList := by
      rw [SparseVec.entries, List.foldlM_map]
      exact foldlM_of_step (g := Vector.toList)
        (fun w e _ => addNonbasic_ofProblem P place y w (.structural e.1) _) total
    refine (bind_of_ok hentries).trans ((addNonbasic_ofProblem P place y _ (.slack i) (y.get i)).trans ?_)
    rw [Problem.rowEntries, List.foldl_append, List.foldl_map]
    simp

theorem map_chunk (start : ℕ) : (Problem.chunk m start).map Fin.val =
    List.range' start (min (start + Problem.chunkSize) m - start) := by
  refine List.ext_getElem ?_ fun k _ _ => ?_
  · simp only [Problem.chunk, List.length_map, List.length_take, List.length_drop, List.length_finRange,
      List.length_range']
    omega
  · simp [Problem.chunk]

theorem accumulate_ofProblem (start : ℕ) (s : Share n) :
    (ofProblem P place y).accumulate start s.portion = .ok (P.accumulate place y start s).portion := by
  unfold Multiplication.accumulate Problem.accumulate
  dsimp only
  rw [rowCount_ofProblem]
  split
  · rfl
  · have htotal : (List.range' start (min (start + Problem.chunkSize) m - start)).foldlM
        (ofProblem P place y).addRow s.total.toList =
        .ok ((Problem.chunk m start).foldl (P.addNonbasicRow place y) s.total).toList := by
      rw [← map_chunk, List.foldlM_map]
      exact foldlM_of_step (g := Vector.toList) (fun w i _ => addRow_ofProblem P place y w i) s.total
    exact bind_of_ok htotal

theorem claim_ofProblem (d : Division n) (a : Accumulator) :
    (ofProblem P place y).claim d.portions a = .ok (P.claim place y d a).portions := by
  cases a with
  | caller =>
    unfold Multiplication.claim Problem.claim
    change (if d.caller.finished = true then _ else _) = _
    split
    · rfl
    · exact bind_of_ok (accumulate_ofProblem P place y d.nextRow d.caller)
  | helper =>
    unfold Multiplication.claim Problem.claim
    change (if d.helper.finished = true then _ else _) = _
    split
    · rfl
    · exact bind_of_ok (accumulate_ofProblem P place y d.nextRow d.helper)

theorem divide_ofProblem (claims : List Accumulator) :
    (ofProblem P place y).divide claims = .ok (P.divide place y claims).portions := by
  have hsize : subtract (ofProblem P place y).positions.length (ofProblem P place y).matrix.rowCount = .ok n := by
    rw [subtract_eq_ok_iff, rowCount_ofProblem, ofProblem, List.length_map, PerVar.length_list]
    omega
  have hstart : (⟨0, ⟨List.replicate n 0, false⟩, ⟨List.replicate n 0, false⟩⟩ : Portions) =
      (Division.start n).portions := by
    simp [Division.start, Division.portions, Share.portion, Vec.zero]
  refine (bind_of_ok hsize).trans ?_
  change claims.foldlM _ _ = _
  rw [hstart]
  exact foldlM_of_step (fun d a _ => claim_ofProblem P place y d a) (Division.start n)

/-- However a job is shared out, both accumulators claim until they have finished. -/
theorem finished_claims (taken : Bool) (turn : Turn) :
    (P.divide place y ((ofProblem P place y).claims taken turn)).finished = true := by
  refine Problem.finished_divide P place y ?_ ?_ <;>
    unfold Multiplication.claims <;> rw [rowCount_ofProblem] <;> cases taken <;>
    simp [List.count_replicate]

theorem addPart_portions (d : Division n) :
    addPart d.portions.caller.total d.portions.helper.total = .ok d.total.toList := by
  refine (changeAlong_toList fun i => rfl).trans (congrArg _ (congrArg _ (table_ext fun i => ?_)))
  rw [get_ofFn, Division.total, get_eq_getElem, get_eq_getElem, get_eq_getElem, Vector.getElem_zipWith]
  simp

/-- The totals of all claims together are the product. -/
theorem total_claims {b : Basis n m} (hb : b.Valid) (taken : Bool) (turn : Turn) :
    (P.divide b.place y ((ofProblem P b.place y).claims taken turn)).total = P.nonbasicProduct b.place y := by
  refine table_ext fun k => ?_
  have hv : ∀ u, b.place.get u = .nonbasic k ↔ u = b.nonbasic.get k := fun u =>
    hb.place_eq_nonbasic.trans eq_comm
  rw [Division.get_total, Problem.get_divide_of_finished hv (finished_claims P b.place y taken turn),
    Problem.get_nonbasicProduct_of_place P y hv]

end Multiplication

namespace Contents
open ExactSimplex.Action Machine

theorem countP_nonbasicPositions {b : Basis n m} (hb : b.Valid) :
    b.nonbasicPositions.countP Option.isSome = n := by
  rw [Basis.nonbasicPositions, PerVar.list_eq_map, List.countP_map, List.countP_map]
  refine Eq.trans (List.countP_congr fun v _ => ?_) hb.countP_nonbasic
  unfold Basis.isBasic
  cases hv : b.place.get v <;> simp [Place.column?, hv]

theorem leads_multiply {C : Contents n m} (hb : C.point.basis.Valid) (y : Vec m) :
    Leads (Machine.multiply y.toList) C (C.problem.nonbasicProduct C.point.basis.place y).toList C := by
  intro threads hmeets
  have hlength : ensure (y.toList.length = (C.machine threads).numRows) = .ok () := by
    rw [ensure_eq_ok_iff, numRows_machine, Vector.length_toList]
  have hpositions : ensure ((C.machine threads).nonbasicPosition.length =
      (C.machine threads).numRows + (C.machine threads).numCols) = .ok () := by
    rw [ensure_eq_ok_iff, numRows_machine, numCols_machine, Nat.add_comm]
    exact length_nonbasicPositions _
  have hcount : ensure ((C.machine threads).nonbasicPosition.countP Option.isSome =
      (C.machine threads).numCols) = .ok () := by
    rw [ensure_eq_ok_iff, numCols_machine]
    exact countP_nonbasicPositions hb
  obtain ⟨turn, schedule, hturn, hmeets'⟩ := reaches_nextTurn hmeets
  have hdivide := Multiplication.divide_ofProblem C.problem C.point.basis.place y
    ((Multiplication.ofProblem C.problem C.point.basis.place y).claims (threads.multiplier.takes turn) turn)
  obtain ⟨busy, hsubmit, hcarries⟩ := hmeets.multiplier.submit turn
    (C.problem.divide C.point.basis.place y _).portions.helper.total
  obtain ⟨free, hwait, hidle⟩ := hcarries.wait
  refine ⟨{ threads with multiplier := free, schedule := schedule },
    ⟨hidle, hmeets'.idle, hmeets'.carries⟩, ?_⟩
  unfold Machine.multiply
  rw [run_get_bind]
  refine (run_lift_bind hlength).trans ((run_lift_bind hpositions).trans ((run_lift_bind hcount).trans
    ((run_bind_of_value hturn).trans ((run_lift_bind hdivide).trans ((run_lift_bind hsubmit).trans
      ((run_lift_bind hwait).trans ?_))))))
  rw [run_modify_bind]
  refine run_lift ?_ _
  rw [Multiplication.addPart_portions, Multiplication.total_claims _ _ hb]

end Contents

end ExactSimplex
