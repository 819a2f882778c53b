import Mathlib.Algebra.BigOperators.Group.Finset.Basic
import Mathlib.Data.Fintype.BigOperators
import Mathlib.Data.Fintype.Sum
import ExactSimplex.Basis
import ExactSimplex.Proofs.Vectors

/-! # A basis is a partition of the variables

The two lists of a basis hold every variable exactly once, and the recorded places are their
inverse. The slack basis, imported lists, exchanges and reorderings all have this property.
-/
namespace ExactSimplex
variable {α : Type} {n m : ℕ}

namespace Var

def equivSum (n m : ℕ) : Var n m ≃ Fin n ⊕ Fin m where
  toFun
    | .structural j => .inl j
    | .slack i => .inr i
  invFun
    | .inl j => .structural j
    | .inr i => .slack i
  left_inv v := by cases v <;> rfl
  right_inv s := by cases s <;> rfl

instance : Fintype (Var n m) := Fintype.ofEquiv _ (equivSum n m).symm

theorem card_eq : Fintype.card (Var n m) = n + m := by
  rw [Fintype.card_congr (equivSum n m), Fintype.card_sum, Fintype.card_fin, Fintype.card_fin]

theorem sum_eq (f : Var n m → ℚ) :
    ∑ v, f v = ∑ j, f (.structural j) + ∑ i, f (.slack i) := by
  rw [← (equivSum n m).symm.sum_comp f, Fintype.sum_sum_type]
  rfl

theorem index_injective : Function.Injective (index : Var n m → ℕ) := by
  intro v w h
  cases v <;> cases w <;> simp only [index] at h
  · rw [Fin.ext h]
  · omega
  · omega
  · rw [Fin.ext (Nat.add_left_cancel h)]

theorem map_index_all : (all n m).map index = List.range (n + m) := by
  have hn : (List.finRange n).map Fin.val = List.range n := List.map_coe_finRange_eq_range
  have hm : (List.finRange m).map Fin.val = List.range m := List.map_coe_finRange_eq_range
  rw [all, List.map_append, List.map_map, List.map_map, List.range_add, ← hn, ← hm, List.map_map]
  rfl

theorem nodup_all : (all n m).Nodup := by
  refine List.nodup_append.mpr ⟨?_, ?_, ?_⟩
  · exact (List.nodup_finRange n).map fun _ _ h => by cases h; rfl
  · exact (List.nodup_finRange m).map fun _ _ h => by cases h; rfl
  · rintro v hv w hw rfl
    obtain ⟨j, _, rfl⟩ := List.mem_map.mp hv
    obtain ⟨i, _, h⟩ := List.mem_map.mp hw
    cases h

end Var

namespace PerVar

theorem ext_get {t u : PerVar α n m} (h : ∀ v, t.get v = u.get v) : t = u := by
  rcases t with ⟨structural, slack⟩
  rcases u with ⟨structural', slack'⟩
  rw [PerVar.mk.injEq]
  exact ⟨table_ext fun j => h (.structural j), table_ext fun i => h (.slack i)⟩

@[simp] theorem get_mapped {β : Type} (f : α → β) (t : PerVar α n m) (v : Var n m) :
    (t.map f).get v = f (t.get v) := by
  cases v <;> simp [map, get]

theorem get_foldl_add {ι : Type} (key : ι → Var n m) (change : ι → ℚ) (l : List ι)
    (x : PerVar ℚ n m) (v : Var n m) :
    (l.foldl (fun x e => x.add (key e) (change e)) x).get v =
      x.get v + (l.map fun e => if key e = v then change e else 0).sum := by
  induction l generalizing x with
  | nil => simp
  | cons e l ih =>
    rw [List.foldl_cons, ih, get_add, List.map_cons, List.sum_cons]
    split <;> ring

theorem get_foldl_set_of_notMem {ι : Type} (key : ι → Var n m) (value : ι → α) (l : List ι)
    (x : PerVar α n m) {v : Var n m} (hv : ∀ e ∈ l, key e ≠ v) :
    (l.foldl (fun x e => x.set (key e) (value e)) x).get v = x.get v := by
  induction l generalizing x with
  | nil => rfl
  | cons e l ih =>
    rw [List.foldl_cons, ih _ fun a ha => hv a (List.mem_cons_of_mem e ha), get_set,
      if_neg (hv e List.mem_cons_self)]

theorem get_foldl_set_of_mem {ι : Type} (key : ι → Var n m) (value : ι → α) {l : List ι}
    (x : PerVar α n m) {e : ι} (he : e ∈ l) (hvalue : ∀ a ∈ l, key a = key e → value a = value e) :
    (l.foldl (fun x e => x.set (key e) (value e)) x).get (key e) = value e := by
  induction l generalizing x e with
  | nil => cases he
  | cons a l ih =>
    rw [List.foldl_cons]
    by_cases hl : ∃ b ∈ l, key b = key e
    · obtain ⟨b, hb, hk⟩ := hl
      have hv := hvalue b (List.mem_cons_of_mem a hb) hk
      rw [← hk, ← hv]
      refine ih _ hb fun c hc hck => ?_
      rw [hv]
      exact hvalue c (List.mem_cons_of_mem a hc) (hck.trans hk)
    · push Not at hl
      have hae : a = e := ((List.mem_cons.mp he).resolve_right fun h => hl e h rfl).symm
      rw [get_foldl_set_of_notMem key value l _ hl, hae, get_set, if_pos rfl]

end PerVar

namespace Basis

structure Valid (b : Basis n m) : Prop where
  place_basic : ∀ i, b.place.get (b.basic.get i) = .basic i
  place_nonbasic : ∀ k, b.place.get (b.nonbasic.get k) = .nonbasic k

variable {b : Basis n m}

/-- The variable at a position of one of the two lists. -/
def variableAt (b : Basis n m) : Fin m ⊕ Fin n → Var n m := Sum.elim b.basic.get b.nonbasic.get

namespace Valid

theorem variableAt_bijective (h : b.Valid) : Function.Bijective b.variableAt := by
  refine (Fintype.bijective_iff_injective_and_card b.variableAt).mpr ⟨?_, ?_⟩
  · have hplace : ∀ s, b.place.get (b.variableAt s) = Sum.elim .basic .nonbasic s := by
      rintro (i | k)
      · exact h.place_basic i
      · exact h.place_nonbasic k
    intro s t hst
    have hp := congrArg b.place.get hst
    rw [hplace, hplace] at hp
    cases s <;> cases t <;> simp_all
  · rw [Var.card_eq, Fintype.card_sum, Fintype.card_fin, Fintype.card_fin, add_comm]

theorem basic_or_nonbasic (h : b.Valid) (v : Var n m) :
    (∃ i, b.basic.get i = v) ∨ ∃ k, b.nonbasic.get k = v := by
  obtain ⟨s, rfl⟩ := h.variableAt_bijective.2 v
  cases s with
  | inl i => exact Or.inl ⟨i, rfl⟩
  | inr k => exact Or.inr ⟨k, rfl⟩

theorem sum_eq (h : b.Valid) (f : Var n m → ℚ) :
    ∑ v, f v = ∑ i, f (b.basic.get i) + ∑ k, f (b.nonbasic.get k) := by
  rw [← (Equiv.ofBijective _ h.variableAt_bijective).sum_comp f, Fintype.sum_sum_type]
  rfl

theorem basic_injective (h : b.Valid) : Function.Injective b.basic.get := by
  intro i j hij
  have hp := h.place_basic i
  rw [hij, h.place_basic j] at hp
  cases hp
  rfl

theorem nonbasic_injective (h : b.Valid) : Function.Injective b.nonbasic.get := by
  intro k l hkl
  have hp := h.place_nonbasic k
  rw [hkl, h.place_nonbasic l] at hp
  cases hp
  rfl

theorem basic_ne_nonbasic (h : b.Valid) (i : Fin m) (k : Fin n) :
    b.basic.get i ≠ b.nonbasic.get k := by
  intro hik
  have hp := h.place_basic i
  rw [hik, h.place_nonbasic k] at hp
  cases hp

theorem place_eq_basic (h : b.Valid) {v : Var n m} {i : Fin m} :
    b.place.get v = .basic i ↔ b.basic.get i = v := by
  refine ⟨fun hp => ?_, fun hv => hv ▸ h.place_basic i⟩
  rcases h.basic_or_nonbasic v with ⟨j, rfl⟩ | ⟨k, rfl⟩
  · rw [h.place_basic] at hp
    cases hp
    rfl
  · rw [h.place_nonbasic] at hp
    cases hp

theorem place_eq_nonbasic (h : b.Valid) {v : Var n m} {k : Fin n} :
    b.place.get v = .nonbasic k ↔ b.nonbasic.get k = v := by
  refine ⟨fun hp => ?_, fun hv => hv ▸ h.place_nonbasic k⟩
  rcases h.basic_or_nonbasic v with ⟨j, rfl⟩ | ⟨l, rfl⟩
  · rw [h.place_basic] at hp
    cases hp
  · rw [h.place_nonbasic] at hp
    cases hp
    rfl

theorem isBasic_basic (h : b.Valid) (i : Fin m) : b.isBasic (b.basic.get i) = true := by
  rw [isBasic, h.place_basic]

theorem isBasic_nonbasic (h : b.Valid) (k : Fin n) : b.isBasic (b.nonbasic.get k) = false := by
  rw [isBasic, h.place_nonbasic]

theorem isBasic_iff (h : b.Valid) {v : Var n m} : b.isBasic v = true ↔ ∃ i, b.basic.get i = v := by
  refine ⟨fun hv => ?_, fun ⟨i, hi⟩ => hi ▸ h.isBasic_basic i⟩
  rcases h.basic_or_nonbasic v with hi | ⟨k, rfl⟩
  · exact hi
  · rw [h.isBasic_nonbasic] at hv
    cases hv

theorem isBasic_eq_false_iff (h : b.Valid) {v : Var n m} :
    b.isBasic v = false ↔ ∃ k, b.nonbasic.get k = v := by
  refine ⟨fun hv => ?_, fun ⟨k, hk⟩ => hk ▸ h.isBasic_nonbasic k⟩
  rcases h.basic_or_nonbasic v with ⟨i, rfl⟩ | hk
  · rw [h.isBasic_basic] at hv
    cases hv
  · exact hk

/-- There are as many nonbasic variables as nonbasic positions. -/
theorem countP_nonbasic (h : b.Valid) : (Var.all n m).countP (fun v => !b.isBasic v) = n := by
  have hperm : ((Var.all n m).filter fun v => !b.isBasic v).Perm
      ((List.finRange n).map b.nonbasic.get) := by
    apply (List.perm_ext_iff_of_nodup (Var.nodup_all.filter _)
      ((List.nodup_finRange n).map h.nonbasic_injective)).mpr
    intro v
    simp [Var.mem_all, h.isBasic_eq_false_iff]
  rw [List.countP_eq_length_filter, hperm.length_eq, List.length_map, List.length_finRange]

end Valid

theorem valid_slack : (slack n m).Valid where
  place_basic i := by simp [slack, PerVar.get]
  place_nonbasic k := by simp [slack, PerVar.get]

theorem get_placeBasic {basic : Vector (Var n m) m} (hb : Function.Injective basic.get)
    (place : PerVar (Place n m) n m) (i : Fin m) :
    (placeBasic basic place).get (basic.get i) = .basic i := by
  refine PerVar.get_foldl_set_of_mem basic.get (fun i => Place.basic i) place (List.mem_finRange i) fun j _ hj => ?_
  rw [hb hj]

theorem get_placeBasic_of_ne {basic : Vector (Var n m) m} {place : PerVar (Place n m) n m}
    {v : Var n m} (hv : ∀ i, basic.get i ≠ v) : (placeBasic basic place).get v = place.get v :=
  PerVar.get_foldl_set_of_notMem basic.get (fun i => Place.basic i) _ place fun i _ => hv i

theorem valid_ofLists {basic : Vector (Var n m) m} {nonbasic : Vector (Var n m) n}
    (hb : Function.Injective basic.get) (hn : Function.Injective nonbasic.get)
    (hne : ∀ i k, basic.get i ≠ nonbasic.get k) : (ofLists basic nonbasic).Valid where
  place_basic i := by
    have h := PerVar.get_foldl_set_of_notMem nonbasic.get (fun k => Place.nonbasic k) (List.finRange n)
      (placeBasic basic (slack n m).place) fun k _ => (hne i k).symm
    exact h.trans (get_placeBasic hb _ i)
  place_nonbasic k := by
    refine PerVar.get_foldl_set_of_mem nonbasic.get (fun k => Place.nonbasic k) _
      (List.mem_finRange k) fun l _ hl => ?_
    rw [hn hl]

theorem Valid.exchange (h : b.Valid) (r : Fin m) (k : Fin n) : (b.exchange r k).Valid where
  place_basic i := by
    simp only [Basis.exchange, get_put, PerVar.get_set]
    by_cases hi : r = i
    · rw [if_pos hi, if_neg (h.basic_ne_nonbasic r k), if_pos rfl, hi]
    · rw [if_neg hi, if_neg fun he => hi (h.basic_injective he),
        if_neg (h.basic_ne_nonbasic i k).symm, h.place_basic]
  place_nonbasic l := by
    simp only [Basis.exchange, get_put, PerVar.get_set]
    by_cases hl : k = l
    · rw [if_pos hl, if_pos rfl, hl]
    · rw [if_neg hl, if_neg (h.basic_ne_nonbasic r l),
        if_neg fun he => hl (h.nonbasic_injective he), h.place_nonbasic]

theorem Valid.reorder (h : b.Valid) {order : Vector (Fin m) m} (ho : Function.Bijective order.get) :
    (b.reorder order).Valid := by
  have hinj : Function.Injective (order.map fun k => b.basic.get k).get := by
    intro i j hij
    rw [get_map, get_map] at hij
    exact ho.1 (h.basic_injective hij)
  constructor
  · exact get_placeBasic hinj b.place
  · intro k
    refine (get_placeBasic_of_ne fun i => ?_).trans (h.place_nonbasic k)
    rw [get_map]
    exact h.basic_ne_nonbasic _ k

end Basis

end ExactSimplex
