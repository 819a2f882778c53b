import ExactSimplex.Proofs.Frame
import ExactSimplex.Proofs.Verdicts

/-! # Rows that repeat a column

A matrix may list a column more than once in a row. Products with its rows and columns add such entries
up; a factorization keeps the last one only, like the dense rows that are shown. So the values that are
computed after a factorization leave a row unbalanced by what the entries before the last ones
contribute to its basic variables. Only when no row repeats a column do all uses of the matrix agree.
-/
namespace ExactSimplex
open Matrix
variable {n m : ℕ}

section Columns

/-- The entries of one row that go to a column. -/
theorem lastValue?_moved (s : SparseVec n) (j : Fin n) (k i : Fin m) :
    Active.lastValue? ((s.filter fun e => e.1 = j).map fun e => (k, e.2)) i =
      if k = i then Active.lastValue? s j else none := by
  induction s with
  | nil => split <;> rfl
  | cons e s ih =>
    by_cases he : e.1 = j
    · rw [List.filter_cons_of_pos (by simpa using he), List.map_cons, Active.lastValue?_cons, ih,
        Active.lastValue?_cons, if_pos he]
      split <;> rfl
    · rw [List.filter_cons_of_neg (by simpa using he), ih, Active.lastValue?_cons, if_neg he, Option.or_none]

/-- A column keeps the order of the entries within a row. -/
theorem lastValue?_columnOf (rows : Vector (SparseVec n) m) (j : Fin n) (i : Fin m) :
    Active.lastValue? (SparseMatrix.columnOf rows j) i = Active.lastValue? (rows.get i) j := by
  -- the other rows contribute entries with other indices only
  have hlist : ∀ l : List (Fin m), l.Nodup → Active.lastValue? (l.flatMap fun k =>
      ((rows.get k).filter fun e => e.1 = j).map fun e => (k, e.2)) i =
        if i ∈ l then Active.lastValue? (rows.get i) j else none := by
    intro l
    induction l with
    | nil => exact fun _ => rfl
    | cons k l ih =>
      intro hl
      rw [List.nodup_cons] at hl
      rw [List.flatMap_cons, Active.lastValue?_append, ih hl.2, lastValue?_moved]
      by_cases hk : k = i
      · subst hk
        simp [hl.1]
      · simp [hk, Ne.symm hk]
  rw [SparseMatrix.columnOf, hlist _ (List.nodup_finRange m), if_pos (List.mem_finRange i)]

end Columns

namespace Problem
variable {P : Problem n m}

/-- The coefficient of a variable in a row of `[A I]`, of repeated entries the last one. -/
def lastEntry (P : Problem n m) (i : Fin m) : Var n m → ℚ
  | .structural j => (P.matrix.denseRow i).get j
  | .slack k => if k = i then 1 else 0

theorem lastEntry_eq (h : P.matrix.Simple) (i : Fin m) (v : Var n m) :
    P.lastEntry i v = P.entry i v := by
  cases v with
  | structural j => exact SparseVec.get_writeTo_zero (h.nodup i) j
  | slack k => rfl

/-- What is factorized for a basis. -/
theorem columnMatrix_eq_lastEntry (h : P.matrix.Mirrored) (b : Basis n m) :
    columnMatrix (b.basic.map P.column) =
      Matrix.of fun i r => P.lastEntry i (b.basic.get r) := by
  ext i r
  rw [columnMatrix, of_apply, of_apply, get_map]
  cases b.basic.get r with
  | structural j =>
    rw [column, h.columns_eq, lastValue?_columnOf, lastEntry, SparseMatrix.denseRow, Active.get_writeTo,
      Vec.get_zero]
  | slack k =>
    rw [column, Active.lastValue?_cons, lastEntry]
    split <;> rfl

/-- Every basis is factorized as it is used in products exactly if repeated entries do not matter. -/
theorem forall_columnMatrix_iff (h : P.matrix.Mirrored) :
    (∀ b : Basis n m, b.Valid → columnMatrix (b.basic.map P.column) = P.basisMatrix b) ↔
      ∀ i j, (P.matrix.denseRow i).get j = P.matrix.entry i j := by
  constructor
  · intro hall i j
    -- the basis in which one slack has given way to the variable
    have hb := congrFun (congrFun (hall _ (Basis.valid_slack.exchange i j)) i) i
    rw [columnMatrix_eq_lastEntry h, of_apply, basisMatrix, of_apply] at hb
    simpa [Basis.exchange, Basis.slack, lastEntry, entry] using hb
  · intro hall b _
    rw [columnMatrix_eq_lastEntry h]
    ext i r
    rw [basisMatrix, of_apply, of_apply]
    cases b.basic.get r with
    | structural j => exact hall i j
    | slack k => rfl

/-- Products count every stored entry. -/
structure AddsUp (P : Problem n m) : Prop where
  column : ∀ v factor w i, (SparseVec.addTo (P.column v) factor w).get i =
    w.get i + P.entry i v * factor
  nonbasic : ∀ b : Basis n m, b.Valid → ∀ y k, (P.nonbasicProduct b.place y).get k =
    ∑ i, y.get i * P.entry i (b.nonbasic.get k)
  rows : ∀ y j, (P.matrix.rowCombination y).get j = ∑ i, y.get i * P.matrix.entry i j

theorem addsUp (h : P.matrix.Mirrored) : P.AddsUp where
  column v factor w i := by rw [SparseVec.get_addTo, P.coeff_column h]
  nonbasic _ hb y k := P.get_nonbasicProduct hb y k
  rows y j := P.matrix.get_rowCombination y j

theorem rowValue_eq_dot (P : Problem n m) (x : Vec n) (i : Fin m) :
    P.rowValue x.get i = SparseVec.dot (P.matrix.rows.get i) x := by
  rw [SparseVec.dot_eq_sum]
  rfl

theorem sum_entry_eq_dot (P : Problem n m) (x : PerVar ℚ n m) (i : Fin m) :
    ∑ v, P.entry i v * x.get v =
      SparseVec.dot (P.matrix.rows.get i) x.structural + x.slack.get i := by
  rw [Var.sum_eq, SparseVec.dot_eq_sum]
  simp [entry, PerVar.get, SparseMatrix.entry]

end Problem

namespace State
variable {P : Problem n m} {t : State n m}

/-- The values that follow from the factors satisfy the rows, all stored entries counted. -/
def Balances (P : Problem n m) (t : State n m) : Prop :=
  ∃ x, t.computePrimal P = some { t with values := x } ∧
    ∀ i, SparseVec.dot (P.matrix.rows.get i) x.structural + x.slack.get i = 0

theorem Sound.balances (h : t.Sound P) (hA : P.matrix.Mirrored) : t.Balances P := by
  obtain ⟨x, hx, hbalanced, _⟩ := h.computePrimal_eq hA
  exact ⟨x, hx, fun i => (P.sum_entry_eq_dot x i).symm.trans (hbalanced i)⟩

section Factorize
variable (hA : P.matrix.Mirrored) {point : Point n m} (hb : point.basis.Valid) {limit pivots : ℕ}
  {weights : Option (Vec m)} {stuck : Option (Var n m)} {log : Array Event}
  (h : ofPoint P limit point pivots weights stuck log = .ok t)
include hA hb h

theorem represents_of_ofPoint :
    t.basis.Valid ∧ t.factors.Represents (columnMatrix (t.basis.basic.map P.column)) := by
  obtain ⟨⟨factors, order⟩, ho, h⟩ := exists_of_bind_eq_ok h
  cases h
  obtain ⟨hbij, hF⟩ := Factorization.represents_of_ofColumns (fun r => by
    rw [get_map]
    exact P.column_ne_zero hA _) ho
  refine ⟨hb.reorder hbij, ?_⟩
  convert hF using 1
  ext i r
  simp [columnMatrix]

/-- Values computed from a new factorization satisfy the rows up to the entries of basic variables that
the factorization does not see. -/
theorem computePrimal_of_ofPoint : ∃ x, t.computePrimal P = some { t with values := x } ∧
    ∀ i, SparseVec.dot (P.matrix.rows.get i) x.structural + x.slack.get i =
      ∑ r, (P.entry i (t.basis.basic.get r) - P.lastEntry i (t.basis.basic.get r)) *
        x.get (t.basis.basic.get r) := by
  obtain ⟨hvalid, hF⟩ := represents_of_ofPoint hA hb h
  rw [P.columnMatrix_eq_lastEntry hA] at hF
  obtain ⟨x, hx, hrows, _⟩ := computePrimal_of_represents hvalid hF hA
  refine ⟨x, hx, fun i => ?_⟩
  have hi := hrows i
  simp only [of_apply] at hi
  rw [← P.sum_entry_eq_dot, hvalid.sum_eq]
  simp only [sub_mul, Finset.sum_sub_distrib]
  linarith

end Factorize

theorem balances_of_ofPoint (hA : P.matrix.Simple) {point : Point n m} (hb : point.basis.Valid)
    {limit pivots : ℕ} {weights : Option (Vec m)} {stuck : Option (Var n m)} {log : Array Event}
    (h : ofPoint P limit point pivots weights stuck log = .ok t) : t.Balances P := by
  obtain ⟨x, hx, hrows⟩ := computePrimal_of_ofPoint hA.toMirrored hb h
  refine ⟨x, hx, fun i => ?_⟩
  rw [hrows]
  exact Finset.sum_eq_zero fun r _ => by rw [P.lastEntry_eq hA, sub_self, zero_mul]

end State

namespace Session
variable {s t : Session}

/-- The matrix of a session. -/
def store (s : Session) : MatrixStore := ⟨s.rows, s.columns, s.solver.problem.matrix⟩

theorem store_of_keeps {T : Solver s.columns s.rows} (h : s.solver.Keeps T) :
    store { s with solver := T } = s.store := by
  rw [store, store, h.problem_eq]

/-- An edit keeps the matrix, or it appends or removes a row and starts afresh. -/
theorem store_of_apply {change : Edit} (h : s.apply change = .ok t) :
    t.store = s.store ∨
      (s.store.Built → t.store.Built) ∧ t.solver.start = .cold ∧ t.solver.proof = none := by
  rcases edited_of_apply h with ⟨v, b, rfl⟩ | ⟨-, hedited⟩
  · exact Or.inl rfl
  · cases hedited with
    | cleared => exact Or.inl rfl
    | lengthened row sides =>
      have hpush : s.store.pushRow row.toList =
          .ok ⟨s.rows + 1, s.columns, s.solver.problem.matrix.pushRow row⟩ :=
        congrArg (· >>= _) (expectLength_toList .constraintRow row)
      exact Or.inr ⟨fun hs => hs.pushRow hpush, rfl, rfl⟩
    | shortened i =>
      have hremove : s.store.removeRow i =
          .ok ⟨s.rows - 1, s.columns, s.solver.problem.matrix.removeRow i⟩ :=
        congrArg (· >>= _) (dif_pos i.isLt : expectIndex .constraint s.rows i = .ok i)
      exact Or.inr ⟨fun hs => hs.removeRow hremove, rfl, rfl⟩
    | repriced costs => exact Or.inl rfl
    | limited bound => exact Or.inl rfl
    | imported hT => exact Or.inl (store_of_keeps (Solver.keeps_setStatuses hT))
    | advised guess provider => exact Or.inl rfl

/-- What a history keeps: the matrix can be built, and as long as no row repeats a column the session is
sound. Rows come and go only with a fresh start, so the rows that are gone do not matter. -/
structure Consistent (s : Session) : Prop where
  built : s.store.Built
  sound : s.solver.problem.matrix.Distinct → s.Sound

theorem Consistent.of_store_eq (h : s.Consistent) (ht : t.store = s.store)
    (hsound : s.Sound → t.Sound) : t.Consistent where
  built := by
    rw [ht]
    exact h.built
  sound hrows := by
    have hrows : t.store.matrix.Distinct := hrows
    rw [ht] at hrows
    exact hsound (h.sound hrows)

theorem consistent_of_cold (h : s.store.Built) (hs : s.solver.start = .cold)
    (hp : s.solver.proof = none) : s.Consistent where
  built := h
  sound hrows := Solver.sound_of_cold ⟨h.mirrored, hrows⟩ hs hp

theorem Consistent.perform (h : s.Consistent) (request : Request) :
    (s.perform request).1.Consistent := by
  have hother (hr : ∀ change, request ≠ .edit change) : (s.perform request).1.Consistent := by
    obtain ⟨T, hT, hkeeps⟩ := s.perform_keeps hr
    refine h.of_store_eq ?_ fun hs => hs.perform request
    rw [hT]
    exact store_of_keeps hkeeps
  cases request with
  | edit change =>
    rw [Session.perform]
    cases hc : s.apply change with
    | error cause => exact h
    | ok t =>
      -- a session whose matrix was not simple before may be sound now: nothing is left of it
      rcases store_of_apply hc with hstore | ⟨hbuilt, hstart, hproof⟩
      · exact h.of_store_eq hstore fun hs => hs.apply hc
      · exact consistent_of_cold (hbuilt h.built) hstart hproof
  | _ => exact hother fun _ he => by cases he

theorem Consistent.after (h : s.Consistent) (history : List Request) :
    (s.after history).Consistent := by
  induction history generalizing s with
  | nil => exact h
  | cons request history ih => exact ih (h.perform request)

/-- The sessions for any matrix that can be built, also for one in which rows repeat columns. -/
def Opened (s : Session) : Prop :=
  ∃ (config : Config) (store : MatrixStore) (objective : List ℚ)
    (rowLower rowUpper variableLower variableUpper : List Bound) (first : Session)
    (history : List Request), store.Built ∧
      create config store objective rowLower rowUpper variableLower variableUpper = .ok first ∧
      s = first.after history

theorem Opened.consistent (h : s.Opened) : s.Consistent := by
  obtain ⟨_, _, _, _, _, _, _, first, history, hstore, hcreate, rfl⟩ := h
  obtain ⟨_, _, _, _, _, _, _, _, _, _, rfl⟩ := create_eq hcreate
  refine Consistent.after ?_ history
  exact consistent_of_cold hstore rfl rfl

/-- All products add up the entries of a row that belong to one column, and a factorization sees the last
of them. They use one matrix for every basis exactly if that makes no difference; else the values that
follow from a factorization miss the rows by the entries that it does not see. When no row repeats a
column, every basis is used as it is factorized, the values that follow from new factors and from those
at hand satisfy the rows, and the rows of an optimal answer lie within their sides. -/
theorem Opened.repeated_entries (h : s.Opened) :
    s.solver.problem.AddsUp ∧
    ((∀ b : Basis s.columns s.rows, b.Valid →
        columnMatrix (b.basic.map s.solver.problem.column) = s.solver.problem.basisMatrix b) ↔
      ∀ i j, (s.solver.problem.matrix.denseRow i).get j = s.solver.problem.matrix.entry i j) ∧
    (∀ point : Point s.columns s.rows, point.basis.Valid → ∀ limit pivots weights stuck log t,
      State.ofPoint s.solver.problem limit point pivots weights stuck log = .ok t →
      ∃ x, t.computePrimal s.solver.problem = some { t with values := x } ∧
        ∀ i, SparseVec.dot (s.solver.problem.matrix.rows.get i) x.structural + x.slack.get i =
          ∑ r, (s.solver.problem.entry i (t.basis.basic.get r) -
            s.solver.problem.lastEntry i (t.basis.basic.get r)) * x.get (t.basis.basic.get r)) ∧
    (s.solver.problem.matrix.Distinct →
      (∀ b : Basis s.columns s.rows,
        columnMatrix (b.basic.map s.solver.problem.column) = s.solver.problem.basisMatrix b) ∧
      (∀ point : Point s.columns s.rows, point.basis.Valid → ∀ limit pivots weights stuck log t,
        State.ofPoint s.solver.problem limit point pivots weights stuck log = .ok t →
        t.Balances s.solver.problem) ∧
      (∀ t, s.solver.start = .warm t → t.Balances s.solver.problem) ∧
      (s.solver.optimize.outcome = .ok .optimal → ∀ i, (s.solver.problem.sides i).Contains
        (SparseVec.dot (s.solver.problem.matrix.rows.get i) s.solver.optimize.solver.x))) := by
  have hmirrored : s.solver.problem.matrix.Mirrored := h.consistent.built.mirrored
  refine ⟨Problem.addsUp hmirrored, Problem.forall_columnMatrix_iff hmirrored,
    fun point hb _ _ _ _ _ t ht => State.computePrimal_of_ofPoint hmirrored hb ht, fun hrows => ?_⟩
  have hsound := h.consistent.sound hrows
  refine ⟨fun b => Problem.columnMatrix_basic hsound.simple b,
    fun point hb _ _ _ _ _ t ht => State.balances_of_ofPoint hsound.simple hb ht, fun t ht => ?_,
    fun hopt i => ?_⟩
  · have hstate := hsound.start
    rw [ht] at hstate
    exact State.Sound.balances hstate hmirrored
  · obtain ⟨v, hsolved⟩ := Solver.Sound.optimize_solved hsound
    cases hsolved.outcome_eq.symm.trans hopt
    rw [← Problem.rowValue_eq_dot]
    exact hsolved.least.1.2 i

/-- A row lists its only column twice and has to be two, and the basis of that column is imported. The
solve ends optimal, and the row is four. -/
theorem repeated_entries_of_doubled_column :
    ∃ S : Solver 1 1, Opened ⟨1, 1, S⟩ ∧ S.problem.AddsUp ∧
      (¬∀ b : Basis 1 1, b.Valid →
        columnMatrix (b.basic.map S.problem.column) = S.problem.basisMatrix b) ∧
      S.optimize.outcome = .ok .optimal ∧ S.problem.sides 0 = ⟨some 2, some 2⟩ ∧
      SparseVec.dot (S.problem.matrix.rows.get 0) S.optimize.solver.x = 4 := by
  let R : Solver 1 1 := .ofProblem {} ⟨(MatrixStore.ofRowList (n := 1) [[(0, 1), (0, 1)]]).matrix,
    #v[1], ⟨#v[⟨some 0, none⟩], #v[⟨some (-2), some (-2)⟩]⟩, none⟩
  let point : Point 1 1 := ⟨.ofLists #v[.structural 0] #v[.slack 0], ⟨#v[0], #v[-2]⟩, Vec.zero 1⟩
  let S : Solver 1 1 := { R with start := .imported point }
  have hS : Opened ⟨1, 1, S⟩ := ⟨{}, .ofRowList (n := 1) [[(0, 1), (0, 1)]], [1], [some 2], [some 2],
    [some 0], [none], ⟨1, 1, R⟩, [.edit (.importBasis [1] [0])],
    .compressed (rfl : MatrixStore.ofCompressed [1, 1] [0, 0] [0, 2] 1 = _), rfl, rfl⟩
  have hrun : (S.optimize.outcome.toOption.any fun v => v = .optimal) = true := by decide +kernel
  obtain ⟨v, hopt, hv⟩ := exists_of_toOption_any hrun
  cases of_decide_eq_true hv
  obtain ⟨hadds, hiff, _⟩ := hS.repeated_entries
  refine ⟨S, hS, hadds, fun hall => ?_, hopt, by decide +kernel, by decide +kernel⟩
  exact absurd (hiff.mp hall 0 0) (by decide +kernel)

end Session

end ExactSimplex
