import ExactSimplex.Proofs.Compressed.Store
import ExactSimplex.Proofs.Machine.Factors
import ExactSimplex.Proofs.Machine.Edits
import ExactSimplex.Proofs.Machine.Frame
import ExactSimplex.Proofs.Machine.Positions

/-! # The index lists are a partition after every step

The lists of basic and nonbasic variables and the two lists of positions are cleared, imported, exchanged in a
pivot and reordered by a factorization. Each of these steps leaves lists that describe a partition of all
variables, and so does everything that a solve or an edit consists of, wherever it stops. That needs nothing but
a matrix that can be made: rows may repeat columns, and the factors need not fit the basis.
-/
namespace ExactSimplex
open ExactSimplex.Action

namespace Machine
variable {s t : Machine}

/-- The lists of a machine describe a basis: together they hold the numbers of all variables exactly once, and
the positions are their inverse. Every list has the length that belongs to it, and factors at hand have the
size of the basis. -/
structure Partitioned (s : Machine) : Prop where
  basic_length : s.basic.length = s.numRows
  nonbasic_length : s.nonbasic.length = s.numCols
  numbers : (s.basic ++ s.nonbasic).Perm (List.range (s.numCols + s.numRows))
  basicPosition_length : s.basicPosition.length = s.numCols + s.numRows
  nonbasicPosition_length : s.nonbasicPosition.length = s.numCols + s.numRows
  basicPosition_eq : ∀ j i : ℕ, s.basicPosition[j]? = some (some i) ↔ s.basic[i]? = some j
  nonbasicPosition_eq : ∀ j k : ℕ, s.nonbasicPosition[j]? = some (some k) ↔ s.nonbasic[k]? = some j
  x_length : s.x.length = s.numCols + s.numRows
  bounds_length : s.bounds.length = s.numCols + s.numRows
  d_length : s.d.length = s.numCols
  weights_length : ∀ w, s.weights = some w → w.length = s.numRows
  factors_size : ∀ F, s.factors = some F → F.order = s.numRows

/-- What the partition rests on besides: the matrix can be made, the objective fits it, and the order of the
factors is one. -/
structure Orderly (s : Machine) : Prop extends s.Partitioned where
  matrix : s.matrix.Built
  objective_length : s.objective.length = s.numCols
  factors : ∀ F, s.factors = some F → F.Orders s.numRows

theorem Partitioned.nodup (h : s.Partitioned) : (s.basic ++ s.nonbasic).Nodup :=
  h.numbers.nodup_iff.mpr List.nodup_range

section Steps

theorem Orderly.inner (h : s.Orderly) (ht : Inner s t) : t.Orderly := by
  cases ht with
  | values ht =>
    obtain ⟨x, hx, rfl⟩ := ht
    exact { h with x_length := hx.trans h.x_length }
  | threads ht =>
    obtain ⟨_, _, _, rfl⟩ := ht
    exact { h with }
  | notes => exact { h with }
  | reduced hlength ht =>
    obtain ⟨d, hd, rfl⟩ := reduced_eq ht
    have hlist := (forall₂_of_mapM hd).length_eq
    rw [List.length_zip, h.nonbasic_length, hlength, min_self] at hlist
    exact { h with d_length := hlist.symm }
  | steppedDual ht =>
    obtain ⟨d, hd, rfl⟩ := steppedDual_eq ht
    exact { h with d_length := hd.trans h.d_length }
  | reweighted ht =>
    obtain ⟨weights, hweights, rfl⟩ := reweighted_eq ht
    refine { h with weights_length := fun w hw => ?_ }
    obtain ⟨v, hv, hlength⟩ := hweights w hw
    exact hlength.trans (h.weights_length v hv)
  | weighed hF hweights =>
    refine { h with weights_length := fun w hw => ?_ }
    cases hw
    rw [← (forall₂_of_mapM hweights).length_eq, List.length_range]
    exact h.factors_size _ hF

theorem ne_zero_of_column (hA : s.matrix.Built) {j : ℕ} {column : List (ℕ × ℚ)}
    (h : s.column j = .ok column) : ∀ e ∈ column, e.2 ≠ 0 := by
  unfold Machine.column at h
  split at h
  · next hj => exact hA.ne_zero_of_column hj h
  · cases h
    simp

theorem Orderly.refactored (h : s.Orderly) (ht : s.refactored = .ok t) : t.Orderly := by
  obtain ⟨columns, F, order, basic, basicPosition, weights, hcolumns, hdecompose, hbasic, hpositions,
    hweights, rfl⟩ := refactored_eq ht
  have hall := forall₂_of_mapM hcolumns
  have hne : ∀ c ∈ columns, ∀ e ∈ c, e.2 ≠ 0 := by
    intro c hc
    obtain ⟨i, hi, rfl⟩ := List.getElem_of_mem hc
    exact ne_zero_of_column h.matrix (hall.get (hall.length_eq ▸ hi) hi)
  obtain ⟨hF, horder⟩ := BasisFactors.orders_of_decompose hne hdecompose
  rw [← hall.length_eq] at horder hF
  have hperm := perm_of_mapM_read horder hbasic
  have hnodup : basic.Nodup := hperm.nodup_iff.mpr (List.nodup_append.mp h.nodup).1
  obtain ⟨hlength, hindexes⟩ := indexes_of_notePositions hnodup hpositions fun j i hj =>
    hperm.mem_iff.mpr (List.mem_of_getElem? ((h.basicPosition_eq j i).mp hj))
  have hF' : F.Orders s.numRows := h.basic_length ▸ hF
  exact { h with
    basic_length := hperm.length_eq.trans h.basic_length
    numbers := (hperm.append_right _).trans h.numbers
    basicPosition_length := hlength.trans h.basicPosition_length
    basicPosition_eq := hindexes
    weights_length := by
      rintro w rfl
      cases hw : s.weights with
      | none =>
        rw [hw] at hweights
        cases hweights
      | some old =>
        rw [hw] at hweights
        obtain ⟨new, hnew, hweights⟩ := exists_of_bind_eq_ok hweights
        cases hweights
        rw [← (forall₂_of_mapM hnew).length_eq, horder.length_eq, List.length_range]
        exact h.basic_length
    factors_size := by
      rintro _ ⟨⟩
      exact hF'.order_eq
    factors := by
      rintro _ ⟨⟩
      exact hF' }

theorem Orderly.exchanged (h : s.Orderly) {l : Departure} {k q : ℕ} (hl : s.basic[l.row]? = some l.var)
    (hk : s.nonbasic[k]? = some q) (ht : exchanged l k q s = .ok t) : t.Orderly := by
  obtain ⟨_, _, -, hq, -, hv, rfl, rfl, rfl⟩ := exchanged_eq ht
  obtain ⟨hbasic, hnonbasic, hdisjoint⟩ := List.nodup_append.mp h.nodup
  have hqb : q ∉ s.basic := fun hm => hdisjoint q hm q (List.mem_of_getElem? hk) rfl
  have hln : l.var ∉ s.nonbasic := fun hm => hdisjoint l.var (List.mem_of_getElem? hl) l.var hm rfl
  exact { h with
    basic_length := List.length_set.trans h.basic_length
    nonbasic_length := List.length_set.trans h.nonbasic_length
    numbers := (perm_exchange hl hk).trans h.numbers
    basicPosition_length := by
      rw [List.length_set, List.length_set]
      exact h.basicPosition_length
    nonbasicPosition_length := by
      rw [List.length_set, List.length_set]
      exact h.nonbasicPosition_length
    basicPosition_eq := Indexes.exchange h.basicPosition_eq hbasic hl hqb hq
    nonbasicPosition_eq := Indexes.exchange h.nonbasicPosition_eq hnonbasic hk hln hv }

theorem Orderly.replaced (h : s.Orderly) {F G : BasisFactors} {r : ℕ} {spike : List (ℕ × ℚ)}
    {outcome : Except Error Unit} (hF : s.factors = some F) (hG : F.changeBasis r spike = .ok (outcome, G)) :
    ({ s with factors := some G } : Machine).Orderly := by
  have hG' := (h.factors F hF).changeBasis hG
  exact { h with
    factors_size := by
      rintro _ ⟨⟩
      exact hG'.order_eq
    factors := by
      rintro _ ⟨⟩
      exact hG' }

/-- Clearing needs nothing but the sizes of the problem. -/
theorem orderly_cleared (hA : s.matrix.Built) (hbounds : s.bounds.length = s.numCols + s.numRows)
    (hobjective : s.objective.length = s.numCols) (ht : s.cleared = .ok t) : t.Orderly := by
  obtain ⟨basicPosition, nonbasicPosition, hbasic, hnonbasic, rfl⟩ := cleared_eq ht
  have hnone : ∀ {members : List ℕ} (j i : ℕ),
      (List.replicate (s.numCols + s.numRows) (none : Option ℕ))[j]? = some (some i) → j ∈ members := by
    intro members j i hj
    rw [List.getElem?_replicate] at hj
    split at hj <;> cases hj
  obtain ⟨hbl, hbi⟩ := indexes_of_notePositions List.nodup_range' hbasic hnone
  obtain ⟨hnl, hni⟩ := indexes_of_notePositions List.nodup_range hnonbasic hnone
  rw [List.length_replicate] at hbl hnl
  exact {
    basic_length := List.length_range'
    nonbasic_length := List.length_range
    numbers := by
      rw [List.range_add]
      refine List.perm_append_comm.trans (List.Perm.of_eq (congrArg _ ?_))
      rw [List.range'_eq_map_range]
      rfl
    basicPosition_length := hbl
    nonbasicPosition_length := hnl
    basicPosition_eq := hbi
    nonbasicPosition_eq := hni
    x_length := List.length_replicate
    bounds_length := hbounds
    d_length := List.length_replicate
    weights_length := fun _ h => by cases h
    factors_size := fun _ h => by cases h
    matrix := hA
    objective_length := hobjective
    factors := fun _ h => by cases h }

theorem Orderly.cleared (h : s.Orderly) (ht : s.cleared = .ok t) : t.Orderly :=
  orderly_cleared h.matrix h.bounds_length h.objective_length ht

/-- Every variable from some number on is sorted into one of the two lists. -/
theorem foldlM_placed {statuses : List Status} {k : ℕ} {e result : List ℚ × List ℕ × List ℕ}
    (h : (statuses.zipIdx k).foldlM (fun e v => s.placed e v.1 v.2) e = .ok result) :
    result.1.length = e.1.length ∧ result.2.1.length = e.2.1.length + statuses.count .basic ∧
      (result.2.1 ++ result.2.2).Perm (e.2.1 ++ e.2.2 ++ List.range' k statuses.length) := by
  induction statuses generalizing k e with
  | nil =>
    cases h
    simp
  | cons status statuses ih =>
    rw [List.zipIdx_cons, List.foldlM_cons] at h
    obtain ⟨next, hnext, h⟩ := exists_of_bind_eq_ok h
    obtain ⟨hx, hcount, hperm⟩ := ih h
    obtain ⟨b, -, hnext⟩ := exists_of_bind_eq_ok hnext
    have hsorted : next.1.length = e.1.length ∧
        next.2.1.length = e.2.1.length + [status].count .basic ∧
        (next.2.1 ++ next.2.2).Perm (e.2.1 ++ e.2.2 ++ [k]) := by
      cases status with
      | basic =>
        cases hnext
        refine ⟨rfl, by simp, ?_⟩
        rw [List.append_assoc, List.append_assoc]
        exact List.perm_append_comm.append_left _
      | atLower =>
        obtain ⟨x, hwrite, hnext⟩ := exists_of_bind_eq_ok hnext
        cases hnext
        exact ⟨length_of_write hwrite, by simp, by simp⟩
      | atUpper =>
        obtain ⟨x, hwrite, hnext⟩ := exists_of_bind_eq_ok hnext
        cases hnext
        exact ⟨length_of_write hwrite, by simp, by simp⟩
      | free =>
        obtain ⟨x, hwrite, hnext⟩ := exists_of_bind_eq_ok hnext
        cases hnext
        exact ⟨length_of_write hwrite, by simp, by simp⟩
    refine ⟨hx.trans hsorted.1, ?_, ?_⟩
    · rw [hcount, hsorted.2.1, List.count_cons (l := statuses), List.count_singleton]
      omega
    · refine hperm.trans ((hsorted.2.2.append_right _).trans (List.Perm.of_eq ?_))
      rw [List.append_assoc _ [k], List.length_cons, List.range'_succ]
      rfl

theorem Orderly.imported (h : s.Orderly) {statuses : List Status}
    (hlength : statuses.length = s.numCols + s.numRows) (hcount : statuses.count .basic = s.numRows)
    (ht : imported statuses s = .ok t) : t.Orderly := by
  obtain ⟨x, basic, nonbasic, basicPosition, nonbasicPosition, hplaced, hbasic, hnonbasic, rfl⟩ :=
    imported_eq ht
  obtain ⟨hx, hb, hperm⟩ := foldlM_placed hplaced
  dsimp only at hx hb hperm
  rw [List.length_nil, Nat.zero_add, hcount] at hb
  rw [List.append_nil, List.nil_append, hlength, ← List.range_eq_range'] at hperm
  have hnodup := List.nodup_append.mp (hperm.nodup_iff.mpr List.nodup_range)
  have hnone : ∀ (positions : List (Option ℕ)) {members : List ℕ} (j i : ℕ),
      (positions.map fun _ => (none : Option ℕ))[j]? = some (some i) → j ∈ members := by
    intro positions members j i hj
    rw [List.getElem?_map] at hj
    obtain ⟨_, -, hj⟩ := Option.map_eq_some_iff.mp hj
    cases hj
  obtain ⟨hbl, hbi⟩ := indexes_of_notePositions hnodup.1 hbasic (hnone _)
  obtain ⟨hnl, hni⟩ := indexes_of_notePositions hnodup.2.1 hnonbasic (hnone _)
  rw [List.length_map] at hbl hnl
  have hn : nonbasic.length = s.numCols := by
    have htotal := hperm.length_eq
    rw [List.length_append, List.length_range] at htotal
    omega
  exact { h with
    basic_length := hb
    nonbasic_length := hn
    numbers := hperm
    basicPosition_length := hbl.trans h.basicPosition_length
    nonbasicPosition_length := hnl.trans h.nonbasicPosition_length
    basicPosition_eq := hbi
    nonbasicPosition_eq := hni
    x_length := hx.trans h.x_length }

theorem preserves_orderly : Preserves Changes Orderly := by
  intro s t ht h
  cases ht with
  | moves ht =>
    cases ht with
    | inner ht => exact h.inner ht
    | refactored ht => exact h.refactored ht
    | exchanged hl hk ht => exact h.exchanged hl hk ht
    | replaced hF hG => exact h.replaced hF hG
  | cleared ht => exact h.cleared ht
  | imported hlength hcount ht => exact h.imported hlength hcount ht
  | dropped => exact { h with }
  | slack =>
    refine { h with weights_length := ?_ }
    rintro _ ⟨⟩
    exact List.length_replicate

end Steps

section Solve

/-- The matrix stays what it is, so the bounds that are put back still fit. -/
theorem orderly_phaseOne : phaseOne.Keeps Orderly := by
  refine (preserves_orderly.moves.inner.keeps_record _).bind fun _ s hs => ends_get_bind (ends_modify_bind ?_)
  have hstart : ({ s with bounds := s.bounds.map Bounds.surrogate } : Machine).Orderly :=
    { hs with bounds_length := (List.length_map _).trans hs.bounds_length }
  have hrun := (preserves_orderly.moves.keeps_runWith true (keeps_fail .exhausted) _ hstart).and
    ((preserves_holds _ _).moves.keeps_runWith true (keeps_fail .exhausted) _ ⟨rfl, rfl⟩)
  refine hrun.attempt_bind fun result t ht => ends_get_bind (ends_modify_bind ?_)
  have hmatrix : t.matrix = s.matrix := congrArg Data.matrix ht.2.1
  have hback : ({ t with bounds := s.bounds } : Machine).Orderly := by
    refine { ht.1 with bounds_length := hs.bounds_length.trans ?_ }
    simp only [numCols, numRows, hmatrix]
  refine (?_ : Keeps Orderly _) _ hback
  split
  · exact keeps_refuse _
  · exact keeps_pure _
  · split
    · exact (preserves_orderly.moves.inner.keeps_record _).bind fun _ => keeps_pure _
    · exact (preserves_orderly.moves.inner.keeps_record _).bind fun _ => keeps_pure _

theorem orderly_run : run.Keeps Orderly := preserves_orderly.moves.keeps_runWith false orderly_phaseOne

theorem length_perturbedObjective {objective : List ℚ} (h : s.perturbedObjective = .ok objective) :
    objective.length = s.objective.length :=
  (forall₂_of_mapM h).length_eq.symm.trans List.length_zipIdx

/-- The machine in which the run with perturbed costs starts. -/
def perturbedStart (s : Machine) (objective : List ℚ) : Machine :=
  { s with
    objective := objective
    log := s.log.push .costsPerturbed
    perturbed := true
    cutOff := none }

theorem Orderly.perturbedStart (h : s.Orderly) {objective : List ℚ}
    (hobjective : s.perturbedObjective = .ok objective) : (s.perturbedStart objective).Orderly :=
  { h with objective_length := (length_perturbedObjective hobjective).trans h.objective_length }

theorem orderly_solvePerturbed : solvePerturbed.Keeps Orderly := by
  intro s hs
  refine ends_get_bind (ends_lift_bind (fun objective hobjective => ?_) fun _ _ => hs)
  refine ends_modify_bind (ends_modify_bind (ends_modify_bind ?_))
  have hrun := (orderly_run _ (hs.perturbedStart hobjective)).and (keeps_run _ ⟨rfl, rfl⟩)
  refine hrun.attempt_bind fun result t ht => ends_modify_bind ?_
  have hmatrix : t.matrix = s.matrix := congrArg Data.matrix ht.2.1
  have hback : ({ t with objective := s.objective, cutOff := s.cutOff } : Machine).Orderly := by
    refine { ht.1 with objective_length := hs.objective_length.trans ?_ }
    simp only [numCols, hmatrix]
  refine (?_ : Keeps Orderly _) _ hback
  split
  · exact keeps_refuse _
  · exact keeps_pure _

theorem orderly_seedFromProvider : seedFromProvider.Keeps Orderly := by
  refine keeps_get_bind fun s hs => ?_
  split
  · next suggestions _ _ =>
    refine (keeps_lift _).bind fun view => ?_
    have hset : ({ s with shown := some view, provider := some suggestions.tail } : Machine).Orderly :=
      { hs with }
    refine (keeps_set hset).bind fun _ => ?_
    split
    · exact keeps_pure _
    · exact preserves_orderly.keeps_follow _
  · exact keeps_pure _

theorem orderly_prepare : prepare.Keeps Orderly := by
  refine orderly_seedFromProvider.bind fun _ => preserves_orderly.keeps_factorizeImported.bind fun _ => ?_
  refine keeps_get_bind fun u _ => ?_
  split
  · exact keeps_pure _
  · exact preserves_orderly.keeps_logicalBasis

theorem orderly_opt : opt.Keeps Orderly := by
  refine Keeps.bind (keeps_modify fun s hs => ?_) fun _ => orderly_prepare.bind fun _ => ?_
  · exact { hs with }
  · refine preserves_orderly.keeps_checkGuess.bind fun proved => ?_
    split
    · refine preserves_orderly.moves.keeps_computePrimal.bind fun _ => ?_
      refine preserves_orderly.moves.keeps_computeDual.bind fun _ => ?_
      exact (preserves_orderly.moves.inner.keeps_record _).bind fun _ => keeps_pure _
    · refine (keeps_solve orderly_run orderly_solvePerturbed 2).bind fun v => ?_
      refine Keeps.bind (keeps_modify fun s hs => ?_) fun _ => ?_
      · split
        · exact { hs with }
        · exact hs
      · exact (preserves_orderly.moves.inner.keeps_record _).bind fun _ => keeps_pure _

end Solve

section Edits

theorem orderly_changeBounds {index : ℕ} {f : Bounds → Bounds} :
    (do changeBounds index f; invalidateProof).Keeps Orderly := by
  refine Keeps.bind (keeps_step fun s t hs ht => ?_) fun _ => keeps_modify fun s hs => ?_
  · obtain ⟨bounds, hbounds, ht⟩ := exists_of_bind_eq_ok ht
    cases ht
    exact { hs with bounds_length := (length_of_change hbounds).trans hs.bounds_length }
  · exact preserves_orderly.moves.inner _ _ (.notes s none s.guess none s.log) hs

theorem orderly_setRightHandSide (row : ℕ) (value : ℚ) : (setRightHandSide row value).Keeps Orderly := by
  refine keeps_get_bind fun s _ => (keeps_lift _).bind fun _ => (keeps_lift _).bind fun slack => ?_
  dsimp only
  split
  · exact orderly_changeBounds
  · exact orderly_changeBounds
  · split
    · exact orderly_changeBounds
    · exact (keeps_refuse _).bind fun _ => keeps_modify fun s hs =>
        preserves_orderly.moves.inner _ _ (.notes s none s.guess none s.log) hs

theorem run_onMatrix_eq {p : Action CompressedMatrix Unit} (h : (onMatrix p).run s = .ok (.ok (), t)) :
    ∃ A, p.run s.matrix = .ok (.ok (), A) ∧ t = { s with matrix := A } := by
  rw [run_onMatrix] at h
  cases hp : p.run s.matrix with
  | error failure =>
    rw [hp] at h
    cases h
  | ok e =>
    rw [hp] at h
    obtain ⟨r, A⟩ := e
    cases h
    exact ⟨A, rfl, rfl⟩

theorem orderly_addConstraint (row : List ℚ) (sides : Bounds) : (addConstraint row sides).Keeps Orderly := by
  refine (intact_apply (.addConstraint row sides)).keeps fun s _ t hs h => ?_
  obtain ⟨_, _, h⟩ := exists_of_run_lift_bind h
  obtain ⟨_, u, hu, h⟩ := exists_of_run_bind h
  obtain ⟨A, hA, rfl⟩ := run_onMatrix_eq hu
  obtain ⟨hbuilt, hcolumns, hrows⟩ := hs.matrix.size_of_pushRow hA
  refine orderly_cleared hbuilt ?_ ?_ (of_run_step h)
  · simp only [List.length_append, List.length_singleton, hs.bounds_length, numCols, numRows, hcolumns, hrows]
    omega
  · exact hs.objective_length.trans hcolumns.symm

theorem orderly_removeConstraint (row : ℕ) : (removeConstraint row).Keeps Orderly := by
  refine (intact_apply (.removeConstraint row)).keeps fun s _ t hs h => ?_
  obtain ⟨_, hrow, h⟩ := exists_of_run_lift_bind h
  obtain ⟨_, u, hu, h⟩ := exists_of_run_bind h
  obtain ⟨A, hA, rfl⟩ := run_onMatrix_eq hu
  obtain ⟨hbuilt, hcolumns, hrows⟩ := hs.matrix.size_of_removeRow hA
  obtain ⟨_, v, hv, h⟩ := exists_of_run_bind h
  obtain ⟨bounds, hbounds, hv⟩ := exists_of_bind_eq_ok (of_run_step hv)
  cases hv
  have hrow := requireIndex_eq_ok_iff.mp hrow
  refine orderly_cleared hbuilt ?_ ?_ (of_run_step h)
  · dsimp only at hbounds ⊢
    rw [length_of_removeAt hbounds, hs.bounds_length]
    simp only [numCols, numRows, hcolumns] at hrow ⊢
    omega
  · exact hs.objective_length.trans hcolumns.symm

theorem orderly_apply (e : Edit) : (apply e).Keeps Orderly := by
  cases e with
  | clearBasis => exact preserves_orderly.keeps_clearBasis
  | addConstraint row sides => exact orderly_addConstraint row sides
  | removeConstraint row => exact orderly_removeConstraint row
  | setSide row side value => exact keeps_get_bind fun s _ => (keeps_lift _).bind fun _ => orderly_changeBounds
  | setRightHandSide row value => exact orderly_setRightHandSide row value
  | setSides row sides => exact keeps_get_bind fun s _ => (keeps_lift _).bind fun _ => orderly_changeBounds
  | setVariableBound column side value =>
    exact keeps_get_bind fun s _ => (keeps_lift _).bind fun _ => orderly_changeBounds
  | setVariableBounds column bounds =>
    exact keeps_get_bind fun s _ => (keeps_lift _).bind fun _ => orderly_changeBounds
  | setObjective costs =>
    intro s hs
    refine ends_get_bind (ends_lift_bind (fun _ hcosts => ends_modify_bind ?_) fun _ _ => hs)
    refine (keeps_modify fun s hs => ?_) _ { hs with objective_length := requireLength_eq_ok_iff.mp hcosts }
    exact preserves_orderly.moves.inner _ _ (.notes s none s.guess none s.log) hs
  | setCutOff bound => exact keeps_modify fun s hs => { hs with }
  | importBasis structural slack =>
    exact (keeps_lift _).bind fun _ => (keeps_lift _).bind fun _ => preserves_orderly.keeps_setBase _ _
  | setGuess ray => exact preserves_orderly.keeps_setGuess ray
  | setProvider suggestions => exact keeps_modify fun s hs => { hs with }

end Edits

section Requests

theorem orderly_perform (request : Request) : (perform request).Keeps Orderly := by
  cases request with
  | edit change =>
    refine (orderly_apply change).attempt_bind fun outcome => ?_
    split <;> exact keeps_pure _
  | optimize =>
    refine Keeps.bind (keeps_modify fun s hs => { hs with }) fun _ => orderly_opt.attempt_bind fun outcome => ?_
    refine keeps_get_bind fun s _ => ?_
    split
    · exact (keeps_lift _).bind fun _ => keeps_pure _
    · exact keeps_pure _
  | proof =>
    refine preserves_orderly.keeps_infeasibilityProof.attempt_bind fun outcome => ?_
    split
    · exact keeps_pure _
    · exact keeps_get_bind fun s _ => (keeps_lift _).bind fun _ => keeps_pure _
    · exact keeps_pure _
  | snapshot => exact keeps_get_bind fun s _ => (keeps_lift _).bind fun _ => keeps_pure _
  | problem => exact keeps_get_bind fun s _ => (keeps_lift _).bind fun _ => keeps_pure _
  | config => exact keeps_get_bind fun s _ => keeps_pure _
  | isCertificate y => exact keeps_get_bind fun s _ => (keeps_lift _).bind fun _ => keeps_pure _
  | constraintBounds row =>
    refine keeps_get_bind fun s _ => (keeps_lift _).attempt_bind fun outcome => ?_
    split <;> exact keeps_pure _
  | variableBounds column =>
    refine keeps_get_bind fun s _ => (keeps_lift _).attempt_bind fun outcome => ?_
    split <;> exact keeps_pure _

theorem Orderly.after (h : s.Orderly) {history : List Request} (ht : s.after history = .ok t) : t.Orderly := by
  refine of_foldlM ht h fun s request _ t hs ht => ?_
  obtain ⟨⟨r, u⟩, hu, ht⟩ := exists_of_bind_eq_ok ht
  cases ht
  exact orderly_perform request s hs r u hu

theorem orderly_create {config : Config} {matrix : CompressedMatrix} {objective : List ℚ}
    {rowLower rowUpper variableLower variableUpper : List Bound} {schedule : List Turn} (hA : matrix.Built)
    (h : create config matrix objective rowLower rowUpper variableLower variableUpper schedule = .ok s) :
    s.Orderly := by
  obtain ⟨_, -, h⟩ := exists_of_bind_eq_ok h
  obtain ⟨_, hobjective, h⟩ := exists_of_bind_eq_ok h
  obtain ⟨_, hrl, h⟩ := exists_of_bind_eq_ok h
  obtain ⟨_, hru, h⟩ := exists_of_bind_eq_ok h
  obtain ⟨_, hvl, h⟩ := exists_of_bind_eq_ok h
  obtain ⟨_, hvu, h⟩ := exists_of_bind_eq_ok h
  obtain ⟨t, ht, h⟩ := exists_of_bind_eq_ok h
  cases h
  have hlengths := fun {what k xs u} => @requireLength_eq_ok_iff Bound what k xs u
  have ht' : t.Orderly := by
    refine orderly_cleared hA ?_ (requireLength_eq_ok_iff.mp hobjective) ht
    simp only [List.length_append, List.length_map, List.length_zip, hlengths.mp hrl, hlengths.mp hru,
      hlengths.mp hvl, hlengths.mp hvu, min_self]
    rfl
  exact { ht' with }

/-- The machines that callers can have: created for any matrix that can be made, whatever happens outside of
them, and then given any requests. -/
def Opened (s : Machine) : Prop :=
  ∃ (config : Config) (matrix : CompressedMatrix) (objective : List ℚ)
    (rowLower rowUpper variableLower variableUpper : List Bound) (schedule : List Turn) (first : Machine)
    (history : List Request), matrix.Built ∧
      create config matrix objective rowLower rowUpper variableLower variableUpper schedule = .ok first ∧
      first.after history = .ok s

theorem Opened.orderly (h : s.Opened) : s.Orderly := by
  obtain ⟨_, _, _, _, _, _, _, _, _, history, hA, hcreate, hafter⟩ := h
  exact (orderly_create hA hcreate).after hafter

end Requests

end Machine

end ExactSimplex
