import ExactSimplex.Factor.Elimination
import ExactSimplex.Proofs.Factor.PivotSearch
import ExactSimplex.Proofs.Factor.Update

/-! # Elimination ends in a factorization exactly for nonsingular matrices

At every step the eliminations so far turn the given matrix into the stored values, and a finished
row only reaches to active columns and to columns that were pivoted on later. When all rows are
finished, renaming the columns to the rows that they were pivoted on gives a triangular factor.
-/
namespace ExactSimplex
open Matrix
variable {m : ℕ}

/-- The matrix with the given sparse columns, of a repeated row the last value counting. -/
def columnMatrix (columns : Vector (SparseVec m) m) : Matrix (Fin m) (Fin m) ℚ :=
  Matrix.of fun i j => (Active.lastValue? (columns.get j) i).getD 0

namespace Elimination

structure Valid (e : Elimination m) (B : Matrix (Fin m) (Fin m) ℚ) : Prop where
  active : e.active.Valid
  factored : Eta.product Eta.toMatrix e.etas * B = Matrix.of e.active.value
  isUnit_etas : IsUnit (Eta.product Eta.toMatrix e.etas)
  etas_proper : ∀ eta ∈ e.etas, eta.Proper
  order_nodup : e.order.Nodup
  mem_order : ∀ i, i ∈ e.order ↔ e.active.rowGroups.contains i = false
  columnOf_spec : ∀ p ∈ e.order, e.active.columnGroups.contains (e.columnOf.get p) = false ∧
    e.rowOf.get (e.columnOf.get p) = p
  rowOf_spec : ∀ q, e.active.columnGroups.contains q = false →
    e.rowOf.get q ∈ e.order ∧ e.columnOf.get (e.rowOf.get q) = q
  pivot_isSome : ∀ p ∈ e.order, ((e.active.rows.get p).get (e.columnOf.get p)).isSome
  reaches : ∀ p ∈ e.order, ∀ j, ((e.active.rows.get p).get j).isSome → j ≠ e.columnOf.get p →
    e.active.columnGroups.contains j = true ∨ [p, e.rowOf.get j].Sublist e.order

theorem valid_start {columns : Vector (SparseVec m) m} (h : ∀ j, ∀ e ∈ columns.get j, e.2 ≠ 0) :
    (start columns).Valid (columnMatrix columns) where
  active := Active.valid_ofColumns h
  factored := by
    ext i j
    simp [start, Eta.product, columnMatrix, Active.value_ofColumns]
  isUnit_etas := isUnit_one
  etas_proper := fun _ h => absurd h List.not_mem_nil
  order_nodup := List.nodup_nil
  mem_order i := by simp [start, (Active.contains_ofColumns columns i).1]
  columnOf_spec p hp := absurd hp List.not_mem_nil
  rowOf_spec q hq := by
    have h := (Active.contains_ofColumns columns q).2
    rw [start] at hq
    rw [h] at hq
    cases hq
  pivot_isSome p hp := absurd hp List.not_mem_nil
  reaches p hp := absurd hp List.not_mem_nil

variable {e : Elimination m} {B : Matrix (Fin m) (Fin m) ℚ}

theorem Valid.step (he : e.Valid B) {position : Pivot m} (hp : e.active.Holds position) :
    ∃ next, e.step position = some next ∧ next.Valid B ∧ next.order = e.order ++ [position.row] := by
  obtain ⟨p, q⟩ := position
  obtain ⟨hpa, hqa, hpq⟩ := hp
  obtain ⟨A, multipliers, hs, hA⟩ := he.active.pivot hpa hqa hpq
  have hpn : p ∉ e.order := fun h => by
    rw [(he.mem_order p).mp h] at hpa
    cases hpa
  have hne : ∀ i ∈ e.order, p ≠ i := fun i hi hpi => hpn (hpi ▸ hi)
  -- A finished row keeps its values, and its column is not the pivot column.
  have hkept : ∀ i ∈ e.order, A.rows.get i = e.active.rows.get i := fun i hi =>
    hA.kept i (Or.inl ((he.mem_order i).mp hi))
  have hcol : ∀ i ∈ e.order, q ≠ e.columnOf.get i := by
    rintro i hi rfl
    rw [(he.columnOf_spec i hi).1] at hqa
    cases hqa
  refine ⟨_, by rw [Elimination.step, hs]; rfl, ?_, rfl⟩
  constructor
  case active => exact hA.valid
  case factored =>
    rw [Eta.product_append fun _ => Eta.toMatrix_of_isEmpty, Matrix.mul_assoc, he.factored]
    ext i j
    rw [Eta.toMatrix_mul_apply]
    exact (hA.value_eq i j).symm
  case isUnit_etas =>
    rw [Eta.product_append fun _ => Eta.toMatrix_of_isEmpty]
    exact (Eta.isUnit_toMatrix hA.pivot_not_mem).mul he.isUnit_etas
  case etas_proper =>
    exact Eta.proper_append he.etas_proper ⟨hA.pivot_not_mem, hA.ne_zero he.active hqa hpq⟩
  case order_nodup =>
    refine List.nodup_append.mpr ⟨he.order_nodup, List.nodup_singleton p, ?_⟩
    rintro i hi j hj rfl
    rw [List.mem_singleton.mp hj] at hi
    exact hpn hi
  case mem_order =>
    intro i
    rw [List.mem_append, List.mem_singleton, hA.contains_row, he.mem_order]
    by_cases hi : p = i
    · simp [hi]
    · simp [hi, Ne.symm hi]
  case columnOf_spec =>
    intro i hi
    rw [get_put, get_put, hA.contains_column]
    rcases List.mem_append.mp hi with hi | hi
    · rw [if_neg (hne i hi), if_neg (hcol i hi), if_neg (hcol i hi)]
      exact he.columnOf_spec i hi
    · rw [List.mem_singleton.mp hi, if_pos rfl, if_pos rfl, if_pos rfl]
      exact ⟨rfl, rfl⟩
  case rowOf_spec =>
    intro j hj
    rw [hA.contains_column] at hj
    by_cases hqj : q = j
    · subst hqj
      rw [get_put, get_put, if_pos rfl, if_pos rfl]
      exact ⟨List.mem_append_right _ (List.mem_singleton.mpr rfl), rfl⟩
    · rw [if_neg hqj] at hj
      obtain ⟨h₁, h₂⟩ := he.rowOf_spec j hj
      rw [get_put, get_put, if_neg hqj, if_neg (hne _ h₁)]
      exact ⟨List.mem_append_left _ h₁, h₂⟩
  case pivot_isSome =>
    intro i hi
    rw [get_put]
    rcases List.mem_append.mp hi with hi | hi
    · rw [if_neg (hne i hi)]
      simp only [hkept i hi]
      exact he.pivot_isSome i hi
    · rw [List.mem_singleton.mp hi, if_pos rfl]
      simp only [hA.kept p (Or.inr rfl)]
      exact hpq
  case reaches =>
    intro i hi j hj hjc
    rw [get_put] at hjc
    rw [hA.contains_column, get_put]
    rcases List.mem_append.mp hi with hi | hi
    · rw [if_neg (hne i hi)] at hjc
      simp only [hkept i hi] at hj
      by_cases hqj : q = j
      · rw [if_pos hqj, if_pos hqj]
        exact Or.inr ((List.singleton_sublist.mpr hi).append (List.Sublist.refl [p]))
      · rw [if_neg hqj, if_neg hqj]
        exact (he.reaches i hi j hj hjc).imp_right fun h => h.trans (List.sublist_append_left _ _)
    · rw [List.mem_singleton.mp hi] at hj hjc
      rw [if_pos rfl] at hjc
      simp only [hA.kept p (Or.inr rfl)] at hj
      rw [if_neg (Ne.symm hjc), if_neg (Ne.symm hjc)]
      exact Or.inl (he.active.column_active p j hpa hj)

/-- An elimination that finds no pivot any more, because the rows that it has not pivoted on have no values
left. -/
structure Exhausted (e : Elimination m) (B : Matrix (Fin m) (Fin m) ℚ) : Prop extends e.Valid B where
  unfinished : e.order.length < m
  zero : ∀ i, i ∉ e.order → ∀ j, e.active.value i j = 0

theorem Valid.exhausted (he : e.Valid B) (hlt : e.order.length < m) {limit : ℕ}
    (hnone : e.active.choosePivot limit = none) : e.Exhausted B where
  toValid := he
  unfinished := hlt
  zero i hi j := by
    have hia : e.active.rowGroups.contains i = true := by
      rw [he.mem_order, Bool.not_eq_false] at hi
      exact hi
    rw [Active.value, he.active.choosePivot_eq_none hnone hia j, Option.getD_none]

/-- No pivot is found only if the matrix is singular. -/
theorem Exhausted.not_isUnit (he : e.Exhausted B) : ¬IsUnit B := by
  intro hB
  obtain ⟨i, hi⟩ : ∃ i, i ∉ e.order := by
    by_contra hall
    push Not at hall
    have hle := List.Subperm.length_le ((List.nodup_finRange m).subperm fun i _ => hall i)
    rw [List.length_finRange] at hle
    exact absurd he.unfinished (not_lt.mpr hle)
  have hunit := he.isUnit_etas.mul hB
  rw [he.factored, isUnit_iff_isUnit_det, det_eq_zero_of_row_eq_zero (A := of _) i (he.zero i hi)] at hunit
  exact not_isUnit_zero hunit

/-- A run pivots on all rows, or reports how many rows are left when it finds no pivot any more. -/
theorem Valid.run (he : e.Valid B) (limit : ℕ) {remaining : ℕ} (hr : e.order.length + remaining = m) :
    (∃ final, run limit remaining e = .ok final ∧ final.Valid B ∧ final.order.length = m) ∨
      ∃ last : Elimination m, last.Exhausted B ∧
        run limit remaining e = .error (.refused (.singularBasis (m - last.order.length))) := by
  induction remaining generalizing e with
  | zero => exact Or.inl ⟨e, rfl, he, hr⟩
  | succ remaining ih =>
    rw [Elimination.run]
    cases hc : e.active.choosePivot limit with
    | none =>
      have hleft : m - e.order.length = remaining + 1 := by omega
      exact Or.inr ⟨e, he.exhausted (by omega) hc, by rw [hleft]⟩
    | some position =>
      obtain ⟨next, hs, hn, ho⟩ := he.step (he.active.holds_choosePivot hc)
      simp only [hs]
      apply ih hn
      rw [ho, List.length_append, List.length_singleton]
      omega

theorem mem_upperColumn {rows : Vector (TriangularLine m) m} {i j : Fin m} {v : ℚ} :
    (i, v) ∈ (upperColumn rows j).others ↔ (j, v) ∈ (rows.get i).others := by
  simp only [upperColumn, List.mem_flatMap, List.mem_finRange, true_and, List.mem_map, List.mem_filter,
    decide_eq_true_iff, Prod.mk.injEq]
  constructor
  · rintro ⟨k, ⟨l, w⟩, ⟨he, rfl⟩, rfl, rfl⟩
    exact he
  · intro he
    exact ⟨i, (j, v), ⟨he, rfl⟩, rfl, rfl⟩

section Finished
variable (he : e.Valid B) (hlen : e.order.length = m)
include he hlen

theorem Valid.mem_order_of_finished (i : Fin m) : i ∈ e.order := by
  by_contra hi
  have hle := List.Subperm.length_le (List.subperm_of_subset
    (List.nodup_cons.mpr ⟨hi, he.order_nodup⟩) fun j _ => List.mem_finRange j)
  rw [List.length_cons, List.length_finRange] at hle
  omega

theorem Valid.rowOf_columnOf (p : Fin m) : e.rowOf.get (e.columnOf.get p) = p :=
  (he.columnOf_spec p (he.mem_order_of_finished hlen p)).2

theorem Valid.rowOf_eq_iff (i j : Fin m) : e.rowOf.get j = i ↔ j = e.columnOf.get i := by
  have hinj : Function.Injective e.columnOf.get :=
    Function.LeftInverse.injective (g := e.rowOf.get) (he.rowOf_columnOf hlen)
  obtain ⟨p, rfl⟩ := Finite.injective_iff_surjective.mp hinj j
  rw [he.rowOf_columnOf hlen, hinj.eq_iff]

theorem Valid.column_finished (j : Fin m) : e.active.columnGroups.contains j = false := by
  have hj : j = e.columnOf.get (e.rowOf.get j) := (he.rowOf_eq_iff hlen _ j).mp rfl
  rw [hj]
  exact (he.columnOf_spec _ (he.mem_order_of_finished hlen _)).1

theorem Valid.lineMatrix_rows :
    lineMatrix e.factors.rows = (Matrix.of e.active.value).submatrix id e.columnOf.get := by
  ext p i
  simp only [lineMatrix, of_apply, factors, get_ofFn, upperRow, submatrix_apply, id_eq]
  rw [SparseVec.coeff_renamed e.rowOf.get _ (he.rowOf_eq_iff hlen i), Active.coeff_othersIn]
  by_cases hpi : p = i
  · subst hpi
    rw [if_pos rfl, if_pos rfl, add_zero, Active.value]
  · have hne : e.columnOf.get i ≠ e.columnOf.get p := by
      intro h
      have hi := he.rowOf_columnOf hlen i
      rw [h, he.rowOf_columnOf hlen p] at hi
      exact hpi hi
    rw [if_neg hpi, if_neg hne, zero_add]

theorem Valid.rows_before (p i : Fin m) (hi : i ∈ SparseVec.keys (e.factors.rows.get p).others) :
    [p, i].Sublist e.order := by
  simp only [factors, get_ofFn, upperRow, SparseVec.keys, List.map_map, List.mem_map,
    Function.comp_def] at hi
  obtain ⟨entry, hm, rfl⟩ := hi
  obtain ⟨hne, hv⟩ := Active.mem_othersIn.mp hm
  rcases he.reaches p (he.mem_order_of_finished hlen p) entry.1 (by rw [hv]; rfl) hne with h | h
  · rw [he.column_finished hlen] at h
    cases h
  · exact h

theorem Valid.rows_nodup (p : Fin m) : (SparseVec.keys (e.factors.rows.get p).others).Nodup := by
  have hinj : Function.Injective e.rowOf.get := fun j k hjk => by
    have h := (he.rowOf_eq_iff hlen _ j).mp rfl
    rw [h, hjk]
    exact ((he.rowOf_eq_iff hlen _ k).mp rfl).symm
  have hk : SparseVec.keys (e.factors.rows.get p).others =
      (SparseVec.keys (e.active.othersIn p (e.columnOf.get p))).map e.rowOf.get := by
    simp [factors, upperRow, SparseVec.keys, Function.comp_def]
  rw [hk]
  exact (Active.keys_othersIn_nodup _ _ _).map hinj

theorem Valid.coherent : e.factors.Coherent where
  order_nodup := he.order_nodup
  mem_order := he.mem_order_of_finished hlen
  position_eq i := by
    refine Factorization.get_numberFrom he.order_nodup (fun k hk => ?_) (he.mem_order_of_finished hlen i)
    exact absurd hk List.not_mem_nil
  row_index p := by simp only [factors, get_ofFn, upperRow]
  column_index j := by simp only [factors, get_ofFn, upperColumn]
  diagonal_ne_zero p := by
    obtain ⟨v, hv⟩ := Option.isSome_iff_exists.mp
      (he.pivot_isSome p (he.mem_order_of_finished hlen p))
    simp only [factors, get_ofFn, upperRow, hv, Option.getD_some]
    exact he.active.ne_zero p _ v hv
  columns_diagonal j := by simp only [factors, get_ofFn, upperColumn]
  rows_nodup := he.rows_nodup hlen
  columns_nodup j := by
    rw [factors, get_ofFn, upperColumn]
    refine SparseVec.keys_column_nodup (r := fun i => (e.factors.rows.get i).others) ?_ j
    exact he.rows_nodup hlen
  rows_ne_zero p entry hm := by
    simp only [factors, get_ofFn, upperRow, List.mem_map] at hm
    obtain ⟨⟨j, v⟩, hv, rfl⟩ := hm
    exact he.active.ne_zero p j v (Active.mem_othersIn.mp hv).2
  mirrored i j v := by
    simp only [factors, get_ofFn, mem_upperColumn]
  rows_before := he.rows_before hlen
  factorEtas_proper := he.etas_proper
  updateEtas_proper := fun _ h => absurd h List.not_mem_nil

/-- A finished elimination represents the matrix with its columns in the order of the pivots. -/
theorem Valid.represents : e.factors.Represents (B.submatrix id e.columnOf.get) where
  toCoherent := he.coherent hlen
  factored := by
    have ht : e.factors.transform = Eta.product Eta.toMatrix e.etas := by
      simp [Factorization.transform, factors, Eta.product]
    rw [ht, he.lineMatrix_rows hlen, ← he.factored]
    rfl

end Finished

end Elimination

namespace Factorization

/-- Factorizing succeeds for nonsingular matrices, and otherwise reports that it ran out of pivots. -/
theorem ofColumns_cases {columns : Vector (SparseVec m) m}
    (h : ∀ j, ∀ e ∈ columns.get j, e.2 ≠ 0) (limit : ℕ) :
    (∃ F order, ofColumns columns limit = .ok (F, order) ∧ Function.Bijective order.get ∧
      F.Represents ((columnMatrix columns).submatrix id order.get)) ∨
    ¬IsUnit (columnMatrix columns) ∧
      ∃ k, ofColumns columns limit = .error (.refused (.singularBasis k)) := by
  unfold ofColumns
  have hstart := Elimination.valid_start h
  rcases hstart.run limit (Nat.zero_add m) with ⟨e, hr, he, hlen⟩ | ⟨e, he, hr⟩
  · refine Or.inl ⟨e.factors, e.columnOf, by rw [hr]; rfl, ?_, he.represents hlen⟩
    exact Finite.injective_iff_bijective.mp
      (Function.LeftInverse.injective (g := e.rowOf.get) (he.rowOf_columnOf hlen))
  · exact Or.inr ⟨he.not_isUnit, _, by rw [hr]; rfl⟩

theorem represents_of_ofColumns {columns : Vector (SparseVec m) m}
    (h : ∀ j, ∀ e ∈ columns.get j, e.2 ≠ 0) {limit : ℕ} {F : Factorization m}
    {order : Vector (Fin m) m} (ho : ofColumns columns limit = .ok (F, order)) :
    Function.Bijective order.get ∧ F.Represents ((columnMatrix columns).submatrix id order.get) := by
  rcases ofColumns_cases h limit with ⟨F', order', ho', hb, hr⟩ | ⟨_, k, he⟩
  · rw [ho'] at ho
    cases ho
    exact ⟨hb, hr⟩
  · rw [he] at ho
    cases ho

def replaceColumns (F : Factorization m) (replacements : List (Fin m × Vec m)) :
    Except Failure (Factorization m) :=
  replacements.foldlM (fun F r => F.replaceColumn r.1 r.2) F

/-- The matrix whose columns have been overwritten one after the other. -/
def overwritten (B : Matrix (Fin m) (Fin m) ℚ) (replacements : List (Fin m × Vec m)) :
    Matrix (Fin m) (Fin m) ℚ :=
  replacements.foldl (fun B r => B.updateCol r.1 r.2.get) B

theorem Represents.replaceColumns {F G : Factorization m} {B : Matrix (Fin m) (Fin m) ℚ}
    (h : F.Represents B) {replacements : List (Fin m × Vec m)}
    (hG : F.replaceColumns replacements = .ok G) : G.Represents (overwritten B replacements) := by
  induction replacements generalizing F B with
  | nil =>
    cases hG
    exact h
  | cons r replacements ih =>
    rw [Factorization.replaceColumns, List.foldlM_cons] at hG
    cases hs : F.replaceColumn r.1 r.2 with
    | error failure =>
      rw [hs] at hG
      cases hG
    | ok next =>
      rw [hs] at hG
      exact ih (h.replaceColumn hs) hG

/-- Through any run of replacements the two solves give the unique solutions of the systems with
the matrix whose columns have been overwritten. -/
theorem solves_overwritten_matrix (columns : Vector (SparseVec m) m) (limit : ℕ)
    (hc : ∀ j, ∀ e ∈ columns.get j, e.2 ≠ 0) (F : Factorization m) (order : Vector (Fin m) m)
    (hF : ofColumns columns limit = .ok (F, order)) :
    order.toList.Perm (List.finRange m) ∧
      ∀ (replacements : List (Fin m × Vec m)) (G : Factorization m),
        F.replaceColumns replacements = .ok G → ∀ b : Vec m,
        (∃ x, G.solve b = some x ∧ ∀ z : Fin m → ℚ,
          overwritten ((columnMatrix columns).submatrix id order.get) replacements *ᵥ z = b.get ↔
            z = x.get) ∧
        ∃ y, G.solveTransposed b = some y ∧ ∀ z : Fin m → ℚ,
          (overwritten ((columnMatrix columns).submatrix id order.get) replacements)ᵀ *ᵥ z = b.get ↔
            z = y.get := by
  obtain ⟨hb, hr⟩ := represents_of_ofColumns hc hF
  refine ⟨?_, fun replacements G hG b => ?_⟩
  · rw [toList_eq_map_get]
    refine (List.perm_ext_iff_of_nodup ((List.nodup_finRange m).map hb.1) (List.nodup_finRange m)).mpr
      fun i => ?_
    simpa using hb.2 i
  · have hG := hr.replaceColumns hG
    obtain ⟨x, hx, hxb⟩ := hG.solve_eq b
    obtain ⟨y, hy, hyb⟩ := hG.solveTransposed_eq b
    have ht := (isUnit_transpose _).mpr hG.isUnit
    refine ⟨⟨x, hx, fun z => ⟨fun hz => ?_, fun hz => hz ▸ hxb⟩⟩,
      y, hy, fun z => ⟨fun hz => ?_, fun hz => hz ▸ hyb⟩⟩
    · exact mulVec_injective_iff_isUnit.mpr hG.isUnit (hz.trans hxb.symm)
    · exact mulVec_injective_iff_isUnit.mpr ht (hz.trans hyb.symm)

/-- Three columns with fill-in, one of them with a repeated row, and two replacements. -/
theorem solves_overwritten_matrix_of_three :
    ∃ (F G : Factorization 3) (order : Vector (Fin 3) 3) (x : Vec 3),
      ofColumns #v[[(0, 2), (2, 1)], [(0, 5), (0, 1), (1, 3)], [(1, 1), (2, 4)]] 4 =
        .ok (F, order) ∧
      F.replaceColumns [(1, #v[1, 0, 1]), (0, #v[1, 1, 1])] = .ok G ∧
      G.solve #v[1, 2, 3] = some x ∧
      overwritten ((columnMatrix
        #v[[(0, 2), (2, 1)], [(0, 5), (0, 1), (1, 3)], [(1, 1), (2, 4)]]).submatrix id order.get)
        [(1, #v[1, 0, 1]), (0, #v[1, 1, 1])] *ᵥ x.get = (#v[1, 2, 3] : Vec 3).get := by
  have hrun : (match ofColumns (m := 3)
        #v[[(0, 2), (2, 1)], [(0, 5), (0, 1), (1, 3)], [(1, 1), (2, 4)]] 4 with
      | .ok (F, _) => (F.replaceColumns [(1, #v[1, 0, 1]), (0, #v[1, 1, 1])]).isOk
      | .error _ => false) = true := by decide +kernel
  split at hrun
  · next F order hF =>
    cases hG : F.replaceColumns [(1, #v[1, 0, 1]), (0, #v[1, 1, 1])] with
    | error failure =>
      rw [hG] at hrun
      cases hrun
    | ok G =>
      have h := (solves_overwritten_matrix _ 4 (by decide) F order hF).2 _ G hG #v[1, 2, 3]
      obtain ⟨⟨x, hx, hz⟩, _⟩ := h
      exact ⟨F, G, order, x, hF, hG, hx, (hz x.get).mpr rfl⟩
  · cases hrun

end Factorization

end ExactSimplex
