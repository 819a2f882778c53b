import ExactSimplex.Product
import ExactSimplex.Proofs.Problem

/-! # The product does not depend on how the rows are divided

Whoever claims a chunk, at every position the totals of the two accumulators together are the sum over
the rows before the cursor. An accumulator finishes only when the cursor is past the last row, and after
enough claims it does. So every order of claims leads to the same product, whose value at the position of a
nonbasic variable is the combination of the rows in its column.
-/
namespace ExactSimplex
variable {n m : ℕ}

theorem Division.get_total (d : Division n) (k : Fin n) :
    d.total.get k = d.caller.total.get k + d.helper.total.get k := by
  rw [total, get_eq_getElem, Vector.getElem_zipWith]
  split
  · rfl
  · next h => rw [get_eq_getElem d.helper.total, not_not.mp h, add_zero, get_eq_getElem]

namespace Problem
variable {P : Problem n m} {place : PerVar (Place n m) n m} {y : Vec m} {k : Fin n} {v : Var n m}

section Rows
variable (hv : ∀ u, place.get u = .nonbasic k ↔ u = v)
include hv

theorem get_addNonbasic (total : Vec n) (u : Var n m) (value : ℚ) :
    (addNonbasic place total u value).get k = total.get k + if u = v then value else 0 := by
  rw [addNonbasic, ← if_congr (hv u) rfl rfl]
  split
  · next l hl =>
    rw [hl, Vec.get_addAt]
    simp only [Place.nonbasic.injEq]
    split <;> simp
  · next i hi => simp [hi]

theorem get_addNonbasicRow (total : Vec n) (i : Fin m) :
    (P.addNonbasicRow place y total i).get k = total.get k + y.get i * P.entry i v := by
  have hentries : ∀ (l : List (Var n m × ℚ)) (c : ℚ) (total : Vec n),
      (l.foldl (fun total e => addNonbasic place total e.1 (e.2 * c)) total).get k =
        total.get k + c * (l.map fun e => if e.1 = v then e.2 else 0).sum := by
    intro l c
    induction l with
    | nil => simp
    | cons e l ih =>
      intro total
      rw [List.foldl_cons, ih, get_addNonbasic hv, List.map_cons, List.sum_cons]
      split <;> ring
  have hrow : ((P.rowEntries i).map fun e => if e.1 = v then e.2 else 0).sum = P.entry i v := by
    cases v with
    | structural j =>
      simp [rowEntries, entry, SparseMatrix.entry, SparseVec.coeff, Function.comp_def]
    | slack r => simp [rowEntries, entry, Function.comp_def, eq_comm]
  rw [addNonbasicRow]
  split
  · next hi => rw [hi]; ring
  · rw [hentries, hrow]

theorem get_foldl_addNonbasicRow (rows : List (Fin m)) (total : Vec n) :
    (rows.foldl (P.addNonbasicRow place y) total).get k =
      total.get k + (rows.map fun i => y.get i * P.entry i v).sum := by
  induction rows generalizing total with
  | nil => simp
  | cons i rows ih =>
    rw [List.foldl_cons, ih, get_addNonbasicRow hv, List.map_cons, List.sum_cons, add_assoc]

/-- Claiming a chunk moves the sum over the rows before the cursor on by what the accumulator adds. -/
theorem get_accumulate (start : ℕ) (s : Share n) :
    (P.accumulate place y start s).total.get k +
        (((List.finRange m).take start).map fun i => y.get i * P.entry i v).sum =
      s.total.get k +
        (((List.finRange m).take (start + chunkSize)).map fun i => y.get i * P.entry i v).sum := by
  rw [accumulate]
  split
  · next hm =>
    have hlength : (List.finRange m).length ≤ start := by rwa [List.length_finRange]
    rw [List.take_of_length_le hlength, List.take_of_length_le (hlength.trans (Nat.le_add_right _ _))]
  · rw [get_foldl_addNonbasicRow hv, List.take_add, List.map_append, List.sum_append, chunk]
    ring

theorem get_claim (d : Division n) (a : Accumulator)
    (h : d.caller.total.get k + d.helper.total.get k =
      (((List.finRange m).take d.nextRow).map fun i => y.get i * P.entry i v).sum) :
    (P.claim place y d a).caller.total.get k + (P.claim place y d a).helper.total.get k =
      (((List.finRange m).take (P.claim place y d a).nextRow).map fun i =>
        y.get i * P.entry i v).sum := by
  cases a with
  | caller =>
    rw [claim]
    split
    · exact h
    · linarith [get_accumulate (P := P) (y := y) hv d.nextRow d.caller]
  | helper =>
    rw [claim]
    split
    · exact h
    · linarith [get_accumulate (P := P) (y := y) hv d.nextRow d.helper]

theorem get_divide (claims : List Accumulator) :
    (P.divide place y claims).caller.total.get k + (P.divide place y claims).helper.total.get k =
      (((List.finRange m).take (P.divide place y claims).nextRow).map fun i =>
        y.get i * P.entry i v).sum := by
  induction claims using List.reverseRecOn with
  | nil => simp [divide, Division.start]
  | append_singleton claims a ih =>
    rw [divide, List.foldl_append]
    exact get_claim hv _ a ih

end Rows

/-- The cursor is past the last row once an accumulator has finished, and until then all its claims were of
chunks that begin with some row. -/
def Progress (m : ℕ) (s : Share n) (nextRow claims : ℕ) : Prop :=
  if s.finished then m ≤ nextRow
  else claims * chunkSize ≤ nextRow ∧ claims * chunkSize < m + chunkSize

theorem Progress.mono {s : Share n} {a b c : ℕ} (h : Progress m s a c) (hab : a ≤ b) :
    Progress m s b c := by
  rw [Progress] at h ⊢
  split at h
  · next hs => rw [if_pos hs]; exact h.trans hab
  · next hs => rw [if_neg hs]; exact ⟨h.1.trans hab, h.2⟩

theorem Progress.accumulate {s : Share n} {start c : ℕ} (h : Progress m s start c) :
    Progress m (P.accumulate place y start s) (start + chunkSize) (c + 1) := by
  rw [Problem.accumulate]
  split
  · next hm => exact hm.trans (Nat.le_add_right _ _)
  · next hm =>
    rw [Progress] at h ⊢
    split at h
    · exact absurd h hm
    · next hs =>
      rw [if_neg hs, Nat.succ_mul]
      omega

/-- Once an accumulator has finished, it does not matter how often it claims. -/
theorem Progress.of_finished {s : Share n} {a c d : ℕ} (h : Progress m s a c) (hs : s.finished = true) :
    Progress m s a d := by
  rw [Progress, if_pos hs] at h ⊢
  exact h

theorem progress_divide (P : Problem n m) (place : PerVar (Place n m) n m) (y : Vec m)
    (claims : List Accumulator) :
    Progress m (P.divide place y claims).caller (P.divide place y claims).nextRow
        (claims.count .caller) ∧
      Progress m (P.divide place y claims).helper (P.divide place y claims).nextRow
        (claims.count .helper) := by
  induction claims using List.reverseRecOn with
  | nil => simp [divide, Division.start, Progress, chunkSize]
  | append_singleton claims a ih =>
    obtain ⟨hcaller, hhelper⟩ := ih
    have hstep : P.divide place y (claims ++ [a]) = P.claim place y (P.divide place y claims) a := by
      rw [divide, List.foldl_append]
      rfl
    rw [hstep, List.count_append, List.count_append]
    cases a with
    | caller =>
      rw [claim]
      split
      · next hs => exact ⟨hcaller.of_finished hs, hhelper⟩
      · exact ⟨hcaller.accumulate, hhelper.mono (Nat.le_add_right _ _)⟩
    | helper =>
      rw [claim]
      split
      · next hs => exact ⟨hcaller, hhelper.of_finished hs⟩
      · exact ⟨hcaller.mono (Nat.le_add_right _ _), hhelper.accumulate⟩

theorem Progress.finished {s : Share n} {nextRow c : ℕ} (h : Progress m s nextRow c)
    (hc : claimLimit m ≤ c) : s.finished = true := by
  by_contra hs
  rw [Progress, if_neg hs] at h
  have hlimit := (Nat.mul_le_mul_right chunkSize hc).trans_lt h.2
  simp only [claimLimit, chunkSize] at hlimit
  omega

theorem finished_divide (P : Problem n m) (place : PerVar (Place n m) n m) (y : Vec m)
    {claims : List Accumulator} (hcaller : claimLimit m ≤ claims.count .caller)
    (hhelper : claimLimit m ≤ claims.count .helper) : (P.divide place y claims).finished = true := by
  have h := progress_divide P place y claims
  rw [Division.finished, h.1.finished hcaller, h.2.finished hhelper]
  rfl

/-- All rows have been claimed when the accumulators have finished. -/
theorem get_divide_of_finished (hv : ∀ u, place.get u = .nonbasic k ↔ u = v)
    {claims : List Accumulator} (h : (P.divide place y claims).finished = true) :
    (P.divide place y claims).caller.total.get k + (P.divide place y claims).helper.total.get k =
      P.combination y.get v := by
  have hrow : m ≤ (P.divide place y claims).nextRow := by
    have hprogress := (progress_divide P place y claims).1
    rwa [Progress, if_pos (Bool.and_eq_true_iff.mp h).1] at hprogress
  rw [get_divide hv, List.take_of_length_le (by rwa [List.length_finRange]), ← Fin.sum_univ_def,
    combination]

/-- The combination of the rows, column by column. -/
theorem get_nonbasicProduct_of_place (P : Problem n m) (y : Vec m)
    (hv : ∀ u, place.get u = .nonbasic k ↔ u = v) :
    (P.nonbasicProduct place y).get k = P.combination y.get v := by
  rw [nonbasicProduct, Division.get_total]
  refine get_divide_of_finished hv (finished_divide P place y ?_ ?_)
  · simp [List.count_replicate]
  · simp [List.count_replicate]

theorem get_nonbasicProduct (P : Problem n m) {b : Basis n m} (hb : b.Valid) (y : Vec m)
    (k : Fin n) :
    (P.nonbasicProduct b.place y).get k = P.combination y.get (b.nonbasic.get k) :=
  P.get_nonbasicProduct_of_place y fun _ => hb.place_eq_nonbasic.trans eq_comm

/-- With every nonbasic position taken by exactly one variable, the product holds there the products of
the row vector with the columns, that of a slack being a unit vector, and no division of the chunks between
the accumulators makes a difference. -/
theorem nonbasicProduct_of_every_division (P : Problem n m) {place : PerVar (Place n m) n m}
    (hplace : ∀ k, ∃! v, place.get v = .nonbasic k) (y : Vec m) :
    (∀ j k, place.get (.structural j) = .nonbasic k →
      (P.nonbasicProduct place y).get k = ∑ i, y.get i * P.matrix.entry i j) ∧
    (∀ r k, place.get (.slack r) = .nonbasic k → (P.nonbasicProduct place y).get k = y.get r) ∧
    (∀ claims, (P.divide place y claims).finished = true →
      (∀ k, (P.divide place y claims).caller.total.get k +
        (P.divide place y claims).helper.total.get k = (P.nonbasicProduct place y).get k) ∧
      (P.divide place y claims).total = P.nonbasicProduct place y) ∧
    ∀ claims, claimLimit m ≤ claims.count .caller → claimLimit m ≤ claims.count .helper →
      (P.divide place y claims).finished = true := by
  have hunique : ∀ {k v}, place.get v = .nonbasic k → ∀ u, place.get u = .nonbasic k ↔ u = v :=
    fun {k _} hv u => ⟨fun hu => (hplace k).unique hu hv, fun hu => hu ▸ hv⟩
  have hparts : ∀ claims, (P.divide place y claims).finished = true → ∀ k,
      (P.divide place y claims).caller.total.get k + (P.divide place y claims).helper.total.get k =
        (P.nonbasicProduct place y).get k := by
    intro claims h k
    obtain ⟨v, hv, -⟩ := hplace k
    rw [get_divide_of_finished (hunique hv) h, P.get_nonbasicProduct_of_place y (hunique hv)]
  refine ⟨?_, ?_, fun claims h => ⟨hparts claims h, table_ext fun k => ?_⟩,
    fun claims => finished_divide P place y⟩
  · intro j k hj
    exact P.get_nonbasicProduct_of_place y (hunique hj)
  · intro r k hr
    rw [P.get_nonbasicProduct_of_place y (hunique hr), combination]
    simp [entry]
  · rw [Division.get_total, hparts claims h k]

/-- A column listed twice in each of twenty rows, a row left out, and the slack of a later row; the caller
and the helper get a chunk each. -/
theorem nonbasicProduct_of_every_division_of_twenty_rows :
    ∃ (P : Problem 2 20) (place : PerVar (Place 2 20) 2 20) (y : Vec 20),
      P.matrix = SparseMatrix.ofRows (Vector.ofFn fun i => [(1, 1), (0, 1), (1, (i : ℕ))]) ∧
      (∀ k, ∃! v, place.get v = .nonbasic k) ∧ place.get (.structural 1) = .nonbasic 0 ∧
      place.get (.slack 17) = .nonbasic 1 ∧
      (P.divide place y [.caller, .helper, .caller, .helper]).finished = true ∧
      (P.divide place y [.caller, .helper, .caller, .helper]).helper.total.get 0 = 74 ∧
      (P.divide place y [.caller, .helper, .caller, .helper]).total.get 0 = 206 ∧
      (P.divide place y [.caller, .helper, .caller, .helper]).total.get 1 = 1 := by
  let P : Problem 2 20 :=
    ⟨SparseMatrix.ofRows (Vector.ofFn fun i => [(1, 1), (0, 1), (1, (i : ℕ))]), Vec.zero 2,
      PerVar.const ⟨none, none⟩, none⟩
  let place : PerVar (Place 2 20) 2 20 :=
    ⟨#v[.basic 17, .nonbasic 0], Vector.ofFn fun r => if r = 17 then .nonbasic 1 else .basic r⟩
  let y : Vec 20 := Vector.ofFn fun i => if i = 3 then 0 else 1
  have hplace : ∀ k, ∃ v, place.get v = .nonbasic k ∧ ∀ u, place.get u = .nonbasic k → u = v := by
    decide +kernel
  have hcolumn : place.get (.structural 1) = .nonbasic 0 := by decide +kernel
  have hunit : place.get (.slack 17) = .nonbasic 1 := by decide +kernel
  have hfinished : (P.divide place y [.caller, .helper, .caller, .helper]).finished = true := by
    decide +kernel
  have hpart : (P.divide place y [.caller, .helper, .caller, .helper]).helper.total.get 0 = 74 := by
    decide +kernel
  have hsum : ∑ i, y.get i * P.matrix.entry i 1 = 206 := by decide +kernel
  have hvalue : y.get 17 = 1 := by decide +kernel
  obtain ⟨hstructural, hslack, hdivide, -⟩ := P.nonbasicProduct_of_every_division hplace y
  refine ⟨P, place, y, rfl, hplace, hcolumn, hunit, hfinished, hpart, ?_, ?_⟩
  · rw [(hdivide _ hfinished).2, hstructural 1 0 hcolumn, hsum]
  · rw [(hdivide _ hfinished).2, hslack 17 1 hunit, hvalue]

end Problem

end ExactSimplex
