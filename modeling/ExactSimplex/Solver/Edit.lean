import ExactSimplex.Solver.Basic

/-! # Edits

Changes of bounds, sides and costs keep the basis, so that the next solve starts from it. A change
in the number of rows discards it. Every change of the problem discards the proof of
infeasibility.
-/
namespace ExactSimplex.Solver

variable {n m : Nat}

/-- Append the row `lower ≤ a x ≤ upper`. -/
def addConstraint (S : Solver n m) (row : Vec n) (sides : Bounds) : Solver n (m + 1) where
  config := S.config
  problem := {
    matrix := S.problem.matrix.pushRow row
    objective := S.problem.objective
    bounds := ⟨S.problem.bounds.structural, S.problem.bounds.slack.push sides.slack⟩
    cutOff := S.problem.cutOff }
  start := .cold
  proof := none
  guess := none
  provider := S.provider

def removeConstraint (S : Solver n m) (i : Fin m) : Solver n (m - 1) where
  config := S.config
  problem := {
    matrix := S.problem.matrix.removeRow i
    objective := S.problem.objective
    bounds := ⟨S.problem.bounds.structural, S.problem.bounds.slack.eraseIdx i i.isLt⟩
    cutOff := S.problem.cutOff }
  start := .cold
  proof := none
  guess := none
  provider := S.provider

def setBounds (S : Solver n m) (v : Var n m) (b : Bounds) : Solver n m :=
  { S.withoutProof with problem := { S.problem with bounds := S.problem.bounds.set v b } }

def setSides (S : Solver n m) (i : Fin m) (sides : Bounds) : Solver n m :=
  S.setBounds (.slack i) sides.slack

def setSide (S : Solver n m) (i : Fin m) (side : Side) (value : Bound) : Solver n m :=
  S.setBounds (.slack i) ((S.problem.bounds.slack.get i).set side.opposite value.negated)

/-- Replace the only finite side of a row, or both when they are equal. A row without finite sides
gets a lower side. -/
def setRightHandSide (S : Solver n m) (i : Fin m) (value : Rat) : Except Error (Solver n m) :=
  let b := S.problem.bounds.slack.get i
  let v : Bound := some (-value)
  match b.lower, b.upper with
  | none, _ => .ok (S.setBounds (.slack i) { b with upper := v })
  | _, none => .ok (S.setBounds (.slack i) { b with lower := v })
  | some l, some u =>
    if l = u then .ok (S.setBounds (.slack i) ⟨v, v⟩) else .error (.ambiguousBound i)

def setVariableBound (S : Solver n m) (j : Fin n) (side : Side) (value : Bound) : Solver n m :=
  S.setBounds (.structural j) ((S.problem.bounds.structural.get j).set side value)

def setObjective (S : Solver n m) (objective : Vec n) : Solver n m :=
  { S.withoutProof with problem := { S.problem with objective := objective } }

/-- Stop solving once the objective value reaches this bound. -/
def setCutOff (S : Solver n m) (bound : Bound) : Solver n m :=
  { S with problem := { S.problem with cutOff := bound } }

/-- The variables with a status that satisfies the test, by increasing index. -/
def withStatus (statuses : PerVar Status n m) (test : Status → Bool) : List (Var n m) :=
  (Var.all n m).filter fun v => test (statuses.get v)

theorem length_withStatus (statuses : PerVar Status n m) (test : Status → Bool) :
    (withStatus statuses test).length + (withStatus statuses fun s => !test s).length = n + m := by
  have h := List.length_eq_countP_add_countP (fun v => test (statuses.get v)) (l := Var.all n m)
  rw [Var.length_all, List.countP_eq_length_filter, List.countP_eq_length_filter] at h
  simpa [withStatus] using h.symm

/-- The value at which a status places a variable; basic variables start at zero. -/
def statusValue (b : Bounds) : Status → Rat
  | .atLower => b.restingValue .lower
  | .atUpper => b.restingValue .upper
  | .basic => 0
  | .free => 0

def statusValues (bounds : PerVar Bounds n m) (statuses : PerVar Status n m) : PerVar Rat n m :=
  ⟨Vector.ofFn fun j => statusValue (bounds.structural.get j) (statuses.structural.get j),
    Vector.ofFn fun i => statusValue (bounds.slack.get i) (statuses.slack.get i)⟩

/-- Import a basis. It needs one basic variable per row. -/
def importBasis (S : Solver n m) (statuses : PerVar Status n m) : Except Error (Solver n m) :=
  let basic := withStatus statuses fun s => s == .basic
  let nonbasic := withStatus statuses fun s => !(s == .basic)
  if h : basic.length = m then
    have others : nonbasic.length = n := by
      have total : basic.length + nonbasic.length = n + m :=
        length_withStatus statuses fun s => s == .basic
      omega
    let basis := Basis.ofLists (tableOf basic h) (tableOf nonbasic others)
    let point : Point n m := ⟨basis, statusValues S.problem.bounds statuses, Vec.zero n⟩
    .ok { S with start := .imported point, proof := none }
  else .error (.invalidBasis basic.length (n + m - basic.length))

def setStatuses (S : Solver n m) (structural slack : List Status) :
    Except Error (Solver n m) := do
  let structural ← expectLength .variableStatuses n structural
  let slack ← expectLength .constraintStatuses m slack
  S.importBasis ⟨structural, slack⟩

/-- Provide a ray that is thought to prove infeasibility. -/
def setGuess (S : Solver n m) (ray : List Double) : Except Error (Solver n m) := do
  let guess ← expectLength .ray m ray
  return { S with guess := some guess }

def setProvider (S : Solver n m) (suggestions : List (Option Suggestion)) : Solver n m :=
  { S with provider := some suggestions }

end ExactSimplex.Solver
