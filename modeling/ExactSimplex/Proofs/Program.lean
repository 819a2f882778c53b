import ExactSimplex.Proofs.Frame

/-! # The linear program behind a session

A session keeps sides as negated bounds of slacks and a sparse matrix twice. Seen from outside it is
a plain linear program: dense rows with their sides, bounds of variables and costs. Every edit that
is carried out is the edit of that program, every other request leaves the program alone, and the
program alone decides whether an edit is refused.
-/
namespace ExactSimplex

/-- A row with all its coefficients. -/
structure Constraint where
  coefficients : List ℚ
  sides : Bounds
  deriving DecidableEq

/-- A linear program written out. -/
structure Program where
  constraints : List Constraint
  variableBounds : List Bounds
  costs : List ℚ
  deriving DecidableEq

/-- The sides of a row after its right-hand side has been set: both sides of an equality, the upper
side when only that one is finite, the lower side when the upper one is infinite. -/
def Bounds.rightHandSide? (b : Bounds) (value : ℚ) : Option Bounds :=
  match b with
  | ⟨some l, some u⟩ => if l = u then some ⟨some value, some value⟩ else none
  | ⟨none, some _⟩ => some ⟨none, some value⟩
  | ⟨_, none⟩ => some ⟨some value, none⟩

namespace Program

def view (P : Program) : ProblemView where
  rows := P.constraints.map fun c => c.coefficients
  objective := P.costs
  constraintBounds := P.constraints.map fun c => c.sides
  variableBounds := P.variableBounds

/-- Change the sides of a row, if there is such a row and the change is possible. -/
def withSides? (P : Program) (row : ℕ) (change : Bounds → Option Bounds) : Option Program := do
  let c ← P.constraints[row]?
  let sides ← change c.sides
  return { P with constraints := P.constraints.set row { c with sides := sides } }

def withVariable? (P : Program) (column : ℕ) (change : Bounds → Bounds) : Option Program := do
  let b ← P.variableBounds[column]?
  return { P with variableBounds := P.variableBounds.set column (change b) }

/-- The codes are statuses, one for every variable and one for every row, and as many of them are
basic as there are rows. -/
def fitsBasis (P : Program) (structural slack : List ℤ) : Bool :=
  decide ((∀ code ∈ structural ++ slack, 0 ≤ code ∧ code ≤ 3) ∧
    structural.length = P.variableBounds.length ∧ slack.length = P.constraints.length ∧
    (structural ++ slack).count 1 = P.constraints.length)

/-- What an edit makes of a program, if it is not refused. -/
def edit? (P : Program) : Edit → Option Program
  | .clearBasis => P
  | .addConstraint row sides =>
    if row.length = P.variableBounds.length then
      some { P with constraints := P.constraints ++ [⟨row, sides⟩] }
    else none
  | .removeConstraint row =>
    if row < P.constraints.length then
      some { P with constraints := P.constraints.eraseIdx row }
    else none
  | .setSide row side value => P.withSides? row fun b => b.set side value
  | .setRightHandSide row value => P.withSides? row fun b => b.rightHandSide? value
  | .setSides row sides => P.withSides? row fun _ => sides
  | .setVariableBound column side value => P.withVariable? column fun b => b.set side value
  | .setVariableBounds column bounds => P.withVariable? column fun _ => bounds
  | .setObjective costs =>
    if costs.length = P.variableBounds.length then some { P with costs := costs } else none
  | .setCutOff _ => P
  | .importBasis structural slack => if P.fitsBasis structural slack then P else none
  | .setGuess ray => if ray.length = P.constraints.length then P else none
  | .setProvider _ => P

/-- The program of given data. -/
def ofData (rows : List (List ℚ)) (costs : List ℚ) (rowLower rowUpper variableLower variableUpper : List Bound) :
    Program where
  constraints := List.zipWith Constraint.mk rows (List.zipWith Bounds.mk rowLower rowUpper)
  variableBounds := List.zipWith Bounds.mk variableLower variableUpper
  costs := costs

end Program

section Lists
variable {α : Type} {m : ℕ}

theorem set_map_finRange (f : Fin m → α) (i : Fin m) (a : α) :
    ((List.finRange m).map f).set i a = (List.finRange m).map fun k => if i = k then a else f k := by
  refine List.ext_getElem (by simp) fun k _ _ => ?_
  simp [List.getElem_set, Fin.ext_iff]

/-- The index that an entry had before another one was taken out; the later ones move up. -/
def indexBefore (i : Fin m) (k : Fin (m - 1)) : Fin m :=
  if k.val < i.val then ⟨k, by omega⟩ else ⟨k + 1, by omega⟩

theorem get_eraseIdx (v : Vector α m) (i : Fin m) (k : Fin (m - 1)) :
    (v.eraseIdx i i.isLt).get k = v.get (indexBefore i k) := by
  rw [get_eq_getElem, Vector.getElem_eraseIdx, indexBefore]
  split <;> rfl

theorem eraseIdx_map_finRange (f : Fin m → α) (i : Fin m) :
    ((List.finRange m).map f).eraseIdx i =
      (List.finRange (m - 1)).map fun k => f (indexBefore i k) := by
  have hf : (List.finRange m).map f = (Vector.ofFn f).toList := by
    rw [toList_eq_map_get]
    exact List.map_congr_left fun k _ => (get_ofFn f k).symm
  rw [hf, ← Vector.toList_eraseIdx i.isLt, toList_eq_map_get]
  exact List.map_congr_left fun k _ => by rw [get_eraseIdx, get_ofFn]

end Lists

section Checks
variable {ε α β : Type}

theorem toOption_bind (x : Except ε α) (f : α → Except ε β) :
    (x >>= f).toOption = x.toOption.bind fun a => (f a).toOption := by
  cases x <;> rfl

theorem toOption_expectIndex (what : Entity) (count index : ℕ) :
    (expectIndex what count index).toOption = if h : index < count then some ⟨index, h⟩ else none := by
  unfold expectIndex
  split <;> rfl

theorem toOption_expectLength (what : Quantity) (expected : ℕ) (xs : List α) :
    (expectLength what expected xs).toOption = tableOf? expected xs := by
  unfold expectLength
  cases tableOf? expected xs <;> rfl

end Checks

/-- Where no row repeats a column, the dense rows have the entries of the matrix. -/
theorem SparseMatrix.Simple.denseRow_eq {m n : ℕ} {A : SparseMatrix m n} (h : A.Simple) (i : Fin m) :
    (A.denseRow i).toList = (List.finRange n).map (A.entry i) := by
  rw [toList_eq_map_get]
  exact List.map_congr_left fun j _ => SparseVec.get_writeTo_zero (h.nodup i) j

namespace Problem
variable {n m : ℕ} {P : Problem n m}

def constraint (P : Problem n m) (i : Fin m) : Constraint :=
  ⟨(List.finRange n).map (P.matrix.entry i), P.sides i⟩

/-- The problem written out, repeated entries added up. -/
def program (P : Problem n m) : Program where
  constraints := (List.finRange m).map P.constraint
  variableBounds := P.bounds.structural.toList
  costs := P.objective.toList

@[simp] theorem length_constraints (P : Problem n m) : P.program.constraints.length = m := by
  simp [program]

@[simp] theorem length_variableBounds (P : Problem n m) : P.program.variableBounds.length = n := by
  simp [program]

theorem getElem?_constraints (P : Problem n m) (i : Fin m) :
    P.program.constraints[i.val]? = some (P.constraint i) := by
  simp [program]

theorem getElem?_variableBounds (P : Problem n m) (j : Fin n) :
    P.program.variableBounds[j.val]? = some (P.bounds.structural.get j) := by
  simp [program, get_eq_getElem]

/-- A matrix in which no row repeats a column is shown as it is. -/
theorem view_program (h : P.matrix.Simple) : P.program.view = P.view := by
  simp only [Program.view, program, view, SparseMatrix.denseRows, List.map_map]
  congr 1
  exact List.map_congr_left fun i _ => (h.denseRow_eq i).symm

/-- The bounds of a slack are the sides of its row, in the other order and negated. -/
theorem program_set_slack (P : Problem n m) (i : Fin m) (b : Bounds) :
    ({ P with bounds := P.bounds.set (.slack i) b } : Problem n m).program =
      { P.program with
        constraints := P.program.constraints.set i { P.constraint i with sides := b.slack } } := by
  simp only [program, set_map_finRange, Program.mk.injEq, and_true]
  refine ⟨List.map_congr_left fun k _ => ?_, rfl⟩
  simp only [constraint, sides, PerVar.set, get_put]
  split
  · next hik => rw [hik]
  · rfl

theorem program_set_structural (P : Problem n m) (j : Fin n) (b : Bounds) :
    ({ P with bounds := P.bounds.set (.structural j) b } : Problem n m).program =
      { P.program with variableBounds := P.program.variableBounds.set j b } := by
  simp only [program, PerVar.set, put, Vector.toList_set]
  rfl

theorem withSides?_program (P : Problem n m) (i : Fin m) (change : Bounds → Option Bounds) :
    P.program.withSides? i change = (change (P.sides i)).map fun sides =>
      ({ P with bounds := P.bounds.set (.slack i) sides.slack } : Problem n m).program := by
  simp only [Program.withSides?, getElem?_constraints, program_set_slack, Bounds.slack_slack]
  change (change (P.sides i) >>= _) = _
  cases change (P.sides i) <;> rfl

theorem withVariable?_program (P : Problem n m) (j : Fin n) (change : Bounds → Bounds) :
    P.program.withVariable? j change = some ({ P with
      bounds := P.bounds.set (.structural j) (change (P.bounds.structural.get j)) } :
        Problem n m).program := by
  rw [Program.withVariable?, getElem?_variableBounds, program_set_structural]
  rfl

end Problem

namespace SparseMatrix
variable {n m : ℕ}

theorem entry_pushRow_castSucc (A : SparseMatrix m n) (row : Vec n) (i : Fin m) (j : Fin n) :
    (A.pushRow row).entry i.castSucc j = A.entry i j := by
  rw [entry, pushRow, ofRows, get_eq_getElem, Vector.getElem_push, dif_pos]
  rfl

theorem entry_pushRow_last (A : SparseMatrix m n) (row : Vec n) (j : Fin n) :
    (A.pushRow row).entry (Fin.last m) j = row.get j := by
  rw [entry, pushRow, ofRows, get_eq_getElem, Vector.getElem_push, dif_neg, Vec.coeff_support]
  simp

end SparseMatrix

namespace Solver
variable {n m : ℕ}

theorem program_addConstraint (S : Solver n m) (row : Vec n) (sides : Bounds) :
    (S.addConstraint row sides).problem.program = { S.problem.program with
      constraints := S.problem.program.constraints ++ [⟨row.toList, sides⟩] } := by
  have hold : ∀ i : Fin m, (S.addConstraint row sides).problem.constraint i.castSucc =
      S.problem.constraint i := by
    intro i
    simp [Problem.constraint, addConstraint, funext (SparseMatrix.entry_pushRow_castSucc _ row i),
      Problem.sides, get_eq_getElem]
  have hnew : (S.addConstraint row sides).problem.constraint (Fin.last m) = ⟨row.toList, sides⟩ := by
    simp [Problem.constraint, addConstraint, funext (SparseMatrix.entry_pushRow_last _ row),
      Problem.sides, get_eq_getElem, toList_eq_map_get]
  simp only [Problem.program, List.finRange_succ_last, List.map_append, List.map_map,
    List.map_cons, List.map_nil, Function.comp_def, hold, hnew]
  rfl

theorem program_removeConstraint (S : Solver n m) (i : Fin m) :
    (S.removeConstraint i).problem.program =
      { S.problem.program with constraints := S.problem.program.constraints.eraseIdx i } := by
  have hrow : ∀ k, (S.removeConstraint i).problem.constraint k =
      S.problem.constraint (indexBefore i k) := by
    intro k
    simp only [Problem.constraint, Problem.sides, removeConstraint, get_eraseIdx]
    congr 1
    refine List.map_congr_left fun j _ => ?_
    rw [SparseMatrix.entry, SparseMatrix.removeRow, SparseMatrix.ofRows, get_eraseIdx]
    rfl
  simp only [Problem.program, eraseIdx_map_finRange, funext hrow]
  rfl

/-- Setting a bound of a slack sets the opposite side of its row. -/
theorem setSide_eq_setSides (S : Solver n m) (i : Fin m) (side : Side) (value : Bound) :
    S.setSide i side value = S.setSides i ((S.problem.sides i).set side value) := by
  have hb : ∀ b : Bounds, b.set side.opposite value.negated = (b.slack.set side value).slack := by
    rintro ⟨_ | l, _ | u⟩ <;> cases side <;>
      simp [Bounds.set, Bounds.slack, Side.opposite, Bound.negated]
  rw [setSide, setSides, hb]
  rfl

theorem toOption_setRightHandSide (S : Solver n m) (i : Fin m) (value : ℚ) :
    (S.setRightHandSide i value).toOption =
      ((S.problem.sides i).rightHandSide? value).map (S.setSides i) := by
  unfold setRightHandSide Problem.sides
  dsimp only
  -- a slack without a lower bound belongs to a row without an upper side, and the other way round
  rcases S.problem.bounds.slack.get i with ⟨_ | l, _ | u⟩
  · simp [Bounds.slack, Bound.negated, Bounds.rightHandSide?, Except.toOption, setSides]
  · simp [Bounds.slack, Bound.negated, Bounds.rightHandSide?, Except.toOption, setSides]
  · simp [Bounds.slack, Bound.negated, Bounds.rightHandSide?, Except.toOption, setSides]
  · simp only [Bounds.slack, Bound.negated, Bounds.rightHandSide?, Option.map_some, neg_inj, eq_comm]
    split <;> simp [Except.toOption, setSides, Bounds.slack, Bound.negated]

theorem length_withStatus_basic (structural : Vector Status n) (slack : Vector Status m) :
    (withStatus ⟨structural, slack⟩ fun s => s == .basic).length =
      (structural.toList ++ slack.toList).count .basic := by
  rw [withStatus, Var.all, ← List.countP_eq_length_filter, List.countP_append, List.countP_map,
    List.countP_map, List.count_eq_countP, List.countP_append, toList_eq_map_get structural,
    toList_eq_map_get slack, List.countP_map, List.countP_map]
  rfl

/-- A basis is imported if it has a status for every variable and one basic variable per row. -/
theorem toOption_setStatuses (S : Solver n m) (structural slack : List Status) :
    (S.setStatuses structural slack).toOption.map (fun T => T.problem.program) =
      if structural.length = n ∧ slack.length = m ∧ (structural ++ slack).count .basic = m then
        some S.problem.program
      else none := by
  rw [setStatuses, toOption_bind, toOption_expectLength, tableOf?]
  split
  · next hn =>
    rw [Option.bind_some, toOption_bind, toOption_expectLength, tableOf?]
    split
    · next hm =>
      have hcount : (withStatus ⟨tableOf structural hn, tableOf slack hm⟩ fun s => s == .basic).length =
          (structural ++ slack).count .basic := length_withStatus_basic _ _
      rw [Option.bind_some, importBasis]
      simp only [hn, hm, true_and, hcount]
      split <;> rfl
    · next hm => simp [hm]
  · next hn => simp [hn]

end Solver

theorem Status.code_injective : Function.Injective Status.code := by
  intro s t h
  cases s <;> cases t <;> first | rfl | cases h

/-- Codes are read if each is one of the four codes. -/
theorem mapM_ofCode_cases (codes : List ℤ) :
    (∃ statuses : List Status, codes.mapM Status.ofCode = .ok statuses ∧
      codes = statuses.map Status.code ∧ ∀ code ∈ codes, 0 ≤ code ∧ code ≤ 3) ∨
    ∃ cause, codes.mapM Status.ofCode = .error cause ∧ ∃ code ∈ codes, ¬(0 ≤ code ∧ code ≤ 3) := by
  induction codes with
  | nil => exact Or.inl ⟨[], rfl, rfl, by simp⟩
  | cons code codes ih =>
    have hcode : (∃ s, Status.ofCode code = .ok s ∧ code = s.code ∧ 0 ≤ code ∧ code ≤ 3) ∨
        ∃ cause, Status.ofCode code = .error cause ∧ ¬(0 ≤ code ∧ code ≤ 3) := by
      unfold Status.ofCode
      split_ifs with h0 h1 h2 h3
      · exact Or.inl ⟨_, rfl, h0, by omega⟩
      · exact Or.inl ⟨_, rfl, h1, by omega⟩
      · exact Or.inl ⟨_, rfl, h2, by omega⟩
      · exact Or.inl ⟨_, rfl, h3, by omega⟩
      · exact Or.inr ⟨_, rfl, by omega⟩
    rw [List.mapM_cons]
    rcases hcode with ⟨s, hs, hc, hr⟩ | ⟨cause, hs, hr⟩
    · rcases ih with ⟨statuses, hm, hcs, hall⟩ | ⟨cause, hm, bad, hbad, hno⟩
      · refine Or.inl ⟨s :: statuses, by rw [hs, hm]; rfl, ?_, ?_⟩
        · rw [List.map_cons, ← hc, ← hcs]
        · simpa using ⟨hr, hall⟩
      · exact Or.inr ⟨cause, by rw [hs, hm]; rfl, bad, List.mem_cons_of_mem _ hbad, hno⟩
    · exact Or.inr ⟨cause, by rw [hs]; rfl, code, List.mem_cons_self, hr⟩

namespace Session

/-- The linear program of a session. -/
def program (s : Session) : Program := s.solver.problem.program

section Edits
variable (s : Session)

theorem program_edit_sides (row : ℕ) (change : Bounds → Option Bounds)
    (f : Fin s.rows → Except Error (Solver s.columns s.rows))
    (hf : ∀ i, (f i).toOption = (change (s.solver.problem.sides i)).map (s.solver.setSides i)) :
    (do
      let i ← expectIndex .constraint s.rows row
      let solver ← f i
      return ({ s with solver := solver } : Session)).toOption.map program =
    s.program.withSides? row change := by
  rw [toOption_bind, toOption_expectIndex]
  split
  · next h =>
    rw [program, Problem.withSides?_program _ ⟨row, h⟩, Option.bind_some, toOption_bind, hf]
    cases change (s.solver.problem.sides ⟨row, h⟩) <;> rfl
  · next h =>
    have hnone : s.program.constraints[row]? = none := by
      rw [List.getElem?_eq_none_iff, program, Problem.length_constraints]
      exact Nat.le_of_not_lt h
    rw [Program.withSides?, hnone]
    rfl

theorem program_edit_variable (column : ℕ) (change : Bounds → Bounds) :
    (do
      let j ← expectIndex .structural s.columns column
      let bounds := change (s.solver.problem.bounds.structural.get j)
      return ({ s with solver := s.solver.setBounds (.structural j) bounds } : Session)
      ).toOption.map program =
    s.program.withVariable? column change := by
  rw [toOption_bind, toOption_expectIndex]
  split
  · next h =>
    rw [program, Problem.withVariable?_program _ ⟨column, h⟩]
    rfl
  · next h =>
    have hnone : s.program.variableBounds[column]? = none := by
      rw [List.getElem?_eq_none_iff, program, Problem.length_variableBounds]
      exact Nat.le_of_not_lt h
    rw [Program.withVariable?, hnone]
    rfl

theorem program_importBasis (structural slack : List ℤ) :
    (s.apply (.importBasis structural slack)).toOption.map program =
      s.program.edit? (.importBasis structural slack) := by
  rw [apply, Program.edit?, Program.fitsBasis, program, Problem.length_variableBounds,
    Problem.length_constraints]
  simp only [decide_eq_true_eq]
  -- codes are read before anything is counted, so an unknown one decides
  rcases mapM_ofCode_cases structural with ⟨structural, hm, rfl, hall⟩ | ⟨cause, hm, code, hc, hno⟩
  · rcases mapM_ofCode_cases slack with ⟨slack, hm', rfl, hall'⟩ | ⟨cause, hm', code, hc, hno⟩
    · have hcount : (structural.map Status.code ++ slack.map Status.code).count 1 =
          (structural ++ slack).count .basic := by
        rw [← List.map_append]
        exact List.count_map_of_injective _ _ Status.code_injective .basic
      have hcodes : ∀ code ∈ structural.map Status.code ++ slack.map Status.code,
          0 ≤ code ∧ code ≤ 3 := fun code h => (List.mem_append.mp h).elim (hall code) (hall' code)
      rw [hm, hm', hcount, List.length_map, List.length_map]
      simp only [and_iff_right hcodes]
      rw [← s.solver.toOption_setStatuses structural slack]
      dsimp only [bind, Except.bind]
      cases s.solver.setStatuses structural slack <;> rfl
    · rw [hm, hm', if_neg fun h => hno (h.1 code (List.mem_append_right _ hc))]
      rfl
  · rw [hm, if_neg fun h => hno (h.1 code (List.mem_append_left _ hc))]
    rfl

/-- An edit does to the program of a session what it does to a program, and it is refused in the same
cases. -/
theorem program_apply (change : Edit) :
    (s.apply change).toOption.map program = s.program.edit? change := by
  cases change with
  | clearBasis => rfl
  | addConstraint row sides =>
    rw [apply, toOption_bind, toOption_expectLength, tableOf?, Program.edit?, program,
      Problem.length_variableBounds]
    split
    · next h =>
      exact congrArg some (Solver.program_addConstraint s.solver (tableOf row h) sides)
    · rfl
  | removeConstraint row =>
    rw [apply, toOption_bind, toOption_expectIndex, Program.edit?, program,
      Problem.length_constraints]
    split
    · next h => exact congrArg some (Solver.program_removeConstraint s.solver ⟨row, h⟩)
    · rfl
  | setSide row side value =>
    exact s.program_edit_sides row (fun b => b.set side value)
      (fun i => .ok (s.solver.setSide i side value))
      fun i => congrArg some (s.solver.setSide_eq_setSides i side value)
  | setRightHandSide row value =>
    exact s.program_edit_sides row (fun b => b.rightHandSide? value)
      (fun i => s.solver.setRightHandSide i value)
      fun i => s.solver.toOption_setRightHandSide i value
  | setSides row sides =>
    exact s.program_edit_sides row (fun _ => sides) (fun i => .ok (s.solver.setSides i sides))
      fun _ => rfl
  | setVariableBound column side value =>
    exact s.program_edit_variable column fun b => b.set side value
  | setVariableBounds column bounds => exact s.program_edit_variable column fun _ => bounds
  | setObjective costs =>
    rw [apply, toOption_bind, toOption_expectLength, tableOf?, Program.edit?, program,
      Problem.length_variableBounds]
    split <;> rfl
  | setCutOff bound => rfl
  | importBasis structural slack => exact s.program_importBasis structural slack
  | setGuess ray =>
    rw [apply, toOption_bind, Solver.setGuess, toOption_bind, toOption_expectLength, tableOf?,
      Program.edit?, program, Problem.length_constraints]
    split <;> rfl
  | setProvider suggestions => rfl

end Edits

/-- The edits of a history that are carried out. -/
def accepted (s : Session) : List Request → List Edit
  | [] => []
  | .edit change :: history =>
    match s.perform (.edit change) with
    | (next, .done) => change :: next.accepted history
    | (next, _) => next.accepted history
  | request :: history => (s.perform request).1.accepted history

section Runs
variable {s : Session}

theorem program_edit (s : Session) (change : Edit) :
    match s.program.edit? change with
    | some Q => ∃ t : Session, s.perform (.edit change) = (t, .done) ∧ t.program = Q
    | none => ∃ cause, s.perform (.edit change) = (s, .refused cause) := by
  rw [← s.program_apply change, perform]
  cases s.apply change with
  | ok t => exact ⟨t, rfl, rfl⟩
  | error cause => exact ⟨cause, rfl⟩

/-- Other requests leave the program alone, also those that change the solver. -/
theorem program_perform (s : Session) {request : Request} (h : ∀ change, request ≠ .edit change) :
    (s.perform request).1.program = s.program := by
  obtain ⟨T, hT, hkeeps⟩ := s.perform_keeps h
  rw [hT]
  exact congrArg Problem.program hkeeps.problem_eq

/-- After any history the program is what the edits that were carried out have made of it. -/
theorem foldlM_accepted (s : Session) (history : List Request) :
    (s.accepted history).foldlM Program.edit? s.program = some (s.after history).program := by
  induction history generalizing s with
  | nil => rfl
  | cons request history ih =>
    have hafter : s.after (request :: history) = (s.perform request).1.after history := rfl
    -- what is not an edit adds nothing to the list and leaves the program alone
    have hother (h : ∀ change, request ≠ .edit change)
        (ha : s.accepted (request :: history) = (s.perform request).1.accepted history) :
        (s.accepted (request :: history)).foldlM Program.edit? s.program =
          some (s.after (request :: history)).program := by
      rw [ha, hafter, ← s.program_perform h]
      exact ih _
    cases request with
    | edit change =>
      have hstep := s.program_edit change
      rw [hafter, accepted]
      cases he : s.program.edit? change with
      | some Q =>
        rw [he] at hstep
        obtain ⟨t, ht, rfl⟩ := hstep
        rw [ht]
        simp only [List.foldlM_cons, he]
        exact ih t
      | none =>
        rw [he] at hstep
        obtain ⟨cause, ht⟩ := hstep
        rw [ht]
        exact ih s
    | _ => exact hother (fun _ h => by cases h) rfl

theorem Sound.perform_problem (h : s.Sound) : (s.perform .problem).2 =
    .problem s.program.constraints.length s.program.variableBounds.length s.program.view := by
  rw [Session.perform, program, Problem.length_constraints, Problem.length_variableBounds,
    Problem.view_program h.simple]

theorem perform_constraintBounds (s : Session) (row : ℕ) : (s.perform (.constraintBounds row)).2 =
    match s.program.constraints[row]? with
    | some c => .bounds c.sides
    | none => .refused (.outOfRange .constraint row s.program.constraints.length) := by
  rw [Session.perform, program, Problem.length_constraints, expectIndex]
  by_cases hrow : row < s.rows
  · rw [dif_pos hrow, Problem.getElem?_constraints _ ⟨row, hrow⟩]
    rfl
  · rw [dif_neg hrow, List.getElem?_eq_none]
    rw [Problem.length_constraints]
    exact Nat.le_of_not_lt hrow

theorem perform_variableBounds (s : Session) (column : ℕ) : (s.perform (.variableBounds column)).2 =
    match s.program.variableBounds[column]? with
    | some b => .bounds b
    | none => .refused (.outOfRange .structural column s.program.variableBounds.length) := by
  rw [Session.perform, program, Problem.length_variableBounds, expectIndex]
  by_cases hcolumn : column < s.columns
  · rw [dif_pos hcolumn, Problem.getElem?_variableBounds _ ⟨column, hcolumn⟩]
    rfl
  · rw [dif_neg hcolumn, List.getElem?_eq_none]
    rw [Problem.length_variableBounds]
    exact Nat.le_of_not_lt hcolumn

theorem program_create {config : Config} {store : MatrixStore} {objective : List ℚ}
    {rowLower rowUpper variableLower variableUpper : List Bound}
    (h : create config store objective rowLower rowUpper variableLower variableUpper = .ok s) :
    s.program = .ofData
      ((List.finRange store.rowCount).map fun i => (List.finRange store.columnCount).map (store.matrix.entry i))
      objective rowLower rowUpper variableLower variableUpper := by
  obtain ⟨costs, lower, upper, least, greatest, rfl, rfl, rfl, rfl, rfl, rfl⟩ := create_eq h
  simp only [program, Problem.program, Program.ofData, Solver.ofProblem, Program.mk.injEq, and_true,
    zipWith_toList, List.zipWith_map, List.zipWith_self]
  refine ⟨List.map_congr_left fun i _ => ?_, ?_⟩
  · rw [Problem.constraint, Problem.sides, get_ofFn, Bounds.slack_slack]
  · rw [toList_eq_map_get]
    exact List.map_congr_left fun j _ => get_ofFn _ j

end Runs

end Session

end ExactSimplex
