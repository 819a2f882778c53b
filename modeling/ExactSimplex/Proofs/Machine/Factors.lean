import ExactSimplex.Machine.Factors
import ExactSimplex.Proofs.Checked
import ExactSimplex.Proofs.Factor.Elimination
import ExactSimplex.Proofs.Rows

/-! # Factorizations of plain columns

Columns with plain indices become sparse vectors if all indices are in range. The order of a factorization
that was made from such columns, or that was updated since, lists every row once, so its length is the size of
the basis.
-/
namespace ExactSimplex
variable {m : ℕ}

theorem toList_mapM {α β : Type} (f : α → Option β) (v : Vector α m) :
    (v.mapM f).map Vector.toList = v.toList.mapM f := by
  have h : Array.toList <$> v.toArray.mapM f = v.toArray.toList.mapM f := Array.toList_mapM
  rw [← Vector.toArray_mapM, Option.map_eq_map, Option.map_eq_map, Option.map_map] at h
  exact h

namespace SizedFactorization

theorem sparse?_entries (c : SparseVec m) : sparse? m (SparseVec.entries c) = some c := by
  induction c with
  | nil => rfl
  | cons e c ih =>
    rw [sparse?] at ih
    rw [sparse?, SparseVec.entries, List.map_cons, List.mapM_cons, dif_pos e.1.isLt,
      ← SparseVec.entries, ih]
    rfl

theorem entries_of_sparse? {column : List (ℕ × ℚ)} {c : SparseVec m} (h : sparse? m column = some c) :
    SparseVec.entries c = column := by
  unfold sparse? at h
  induction column generalizing c with
  | nil =>
    cases h
    rfl
  | cons e column ih =>
    rw [List.mapM_cons] at h
    obtain ⟨a, ha, h⟩ := Option.bind_eq_some_iff.mp h
    obtain ⟨rest, hrest, h⟩ := Option.bind_eq_some_iff.mp h
    cases h
    split at ha
    · cases ha
      rw [SparseVec.entries, List.map_cons, ← SparseVec.entries, ih hrest]
    · cases ha

theorem mapM_sparse?_eq_some_iff {columns : List (List (ℕ × ℚ))} {sparse : List (SparseVec m)} :
    columns.mapM (sparse? m) = some sparse ↔ sparse.map SparseVec.entries = columns := by
  induction columns generalizing sparse with
  | nil =>
    rw [List.mapM_nil, List.map_eq_nil_iff]
    exact ⟨fun h => (Option.some.inj h).symm, fun h => h ▸ rfl⟩
  | cons column columns ih =>
    rw [List.mapM_cons]
    constructor
    · intro h
      obtain ⟨c, hc, h⟩ := Option.bind_eq_some_iff.mp h
      obtain ⟨rest, hrest, h⟩ := Option.bind_eq_some_iff.mp h
      cases h
      rw [List.map_cons, entries_of_sparse? hc, ih.mp hrest]
    · intro h
      cases sparse with
      | nil => cases h
      | cons c rest =>
        obtain ⟨rfl, hrest⟩ := List.cons.inj h
        rw [sparse?_entries, ih.mpr hrest]
        rfl

/-- Columns are the entries of sparse vectors, if all their indices are in range. -/
theorem mapM_table_eq_some_iff {columns : List (List (ℕ × ℚ))}
    {sparse : Vector (SparseVec m) columns.length} :
    (tableOf columns rfl).mapM (sparse? m) = some sparse ↔ sparse.toList.map SparseVec.entries = columns := by
  rw [← mapM_sparse?_eq_some_iff]
  have h := toList_mapM (sparse? m) (tableOf columns rfl)
  rw [← show (tableOf columns rfl).toList.mapM (sparse? m) = columns.mapM (sparse? m) from rfl, ← h]
  constructor
  · intro hs
    rw [hs]
    rfl
  · intro hs
    obtain ⟨v, hv, heq⟩ := Option.map_eq_some_iff.mp hs
    rw [hv, Vector.toList_inj.mp heq]

end SizedFactorization

namespace BasisFactors
variable {F G : BasisFactors}

/-- The factorization is one of `m` rows, and each of them stands at one place in its order. -/
structure Orders (F : BasisFactors) (m : ℕ) : Prop where
  size_eq : F.size = m
  arranged : F.factors.Arranged

theorem Orders.order_eq (h : F.Orders m) : F.order = m :=
  h.arranged.length_order.trans h.size_eq

theorem orders_of_decompose {columns : List (List (ℕ × ℚ))} {limit : ℕ} {order : List ℕ}
    (hne : ∀ c ∈ columns, ∀ e ∈ c, e.2 ≠ 0) (h : decompose columns limit = .ok (F, order)) :
    F.Orders columns.length ∧ order.Perm (List.range columns.length) := by
  obtain ⟨S, hS, h⟩ := exists_of_bind_eq_ok h
  cases h
  unfold SizedFactorization.ofColumns at hS
  split at hS
  · cases hS
  · next sparse hsparse =>
    obtain ⟨⟨factors, order⟩, hfactors, hS⟩ := exists_of_bind_eq_ok hS
    cases hS
    have hcol : ∀ j, ∀ e ∈ sparse.get j, e.2 ≠ 0 := by
      rw [SparseMatrix.forall_get_iff fun c : SparseVec _ => ∀ e ∈ c, e.2 ≠ 0]
      intro c hc e he
      have hmem := List.mem_map_of_mem (f := SparseVec.entries) hc
      rw [SizedFactorization.mapM_table_eq_some_iff.mp hsparse] at hmem
      exact hne _ hmem (e.1, e.2) (List.mem_map_of_mem he)
    obtain ⟨hbij, hrep⟩ := Factorization.represents_of_ofColumns hcol hfactors
    refine ⟨⟨rfl, hrep.toArranged⟩, ?_⟩
    have hperm : order.toList.Perm (List.finRange columns.length) := by
      rw [toList_eq_map_get]
      refine (List.perm_ext_iff_of_nodup ((List.nodup_finRange _).map hbij.1) (List.nodup_finRange _)).mpr ?_
      intro k
      simpa using hbij.2 k
    have hrange := hperm.map Fin.val
    rwa [List.map_coe_finRange_eq_range] at hrange

theorem Orders.changeBasis {r : ℕ} {spike : List (ℕ × ℚ)} {outcome : Except Error Unit} (h : F.Orders m)
    (hG : F.changeBasis r spike = .ok (outcome, G)) : G.Orders m := by
  obtain ⟨_, -, hG⟩ := exists_of_bind_eq_ok hG
  split at hG
  · cases hG
  · split at hG
    · split at hG
      · next hinsert =>
        cases hG
        exact ⟨h.size_eq, h.arranged.insertSpike hinsert⟩
      · cases hG
        exact ⟨h.size_eq, h.arranged.order_nodup, h.arranged.mem_order, h.arranged.position_eq⟩
      · cases hG
    · cases hG

end BasisFactors

end ExactSimplex
