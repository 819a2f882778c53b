import ExactSimplex.Solver.Optimize

/-! # Sessions

A session is a solver of any size under a sequence of requests. The data of a request is checked
against the size of the problem, and a request that is refused changes nothing. Machines carry
out the same requests on the lists in which a solver is stored.
-/
namespace ExactSimplex

structure Session where
  columns : Nat
  rows : Nat
  solver : Solver columns rows

/-- A change of the problem, of the starting point or of what a solve is given. -/
inductive Edit where
  | clearBasis
  | addConstraint (row : List Rat) (sides : Bounds)
  | removeConstraint (row : Nat)
  | setSide (row : Nat) (side : Side) (value : Bound)
  | setRightHandSide (row : Nat) (value : Rat)
  | setSides (row : Nat) (sides : Bounds)
  | setVariableBound (column : Nat) (side : Side) (value : Bound)
  | setVariableBounds (column : Nat) (bounds : Bounds)
  | setObjective (costs : List Rat)
  | setCutOff (bound : Bound)
  | importBasis (structural slack : List Int)
  | setGuess (ray : List Double)
  | setProvider (suggestions : List (Option Suggestion))

inductive Request where
  | edit (change : Edit)
  | optimize
  | proof
  | snapshot
  | problem
  | config
  | isCertificate (y : List Rat)
  | constraintBounds (row : Nat)
  | variableBounds (column : Nat)

/-- The point of a solver as a caller sees it. -/
structure Snapshot where
  x : List Rat
  y : Option (List Rat)
  d : List Rat
  objective : Rat
  structural : List Status
  slack : List Status

/-- The data of a problem as a caller or a provider sees it. -/
structure ProblemView where
  rows : List (List Rat)
  objective : List Rat
  constraintBounds : List Bounds
  variableBounds : List Bounds

inductive Reply where
  | done
  | refused (cause : Error)
  | failed (failure : Failure)
  | solved (verdict : Verdict) (events : List Event) (shown : Option ProblemView) (after : Snapshot)
  | unsolved (failure : Failure) (events : List Event) (shown : Option ProblemView)
  | proof (multipliers : Option (List Rat)) (certified : Option Bool)
  | snapshot (view : Snapshot)
  | problem (rows columns : Nat) (view : ProblemView)
  | config (parameters : Config)
  | flag (value : Bool)
  | bounds (value : Bounds)

def Solver.snapshot {n m : Nat} (S : Solver n m) : Snapshot where
  x := S.x.toList
  y := S.y.map fun y => y.toList
  d := S.d.toList
  objective := S.objectiveValue
  structural := S.structuralStatuses
  slack := S.slackStatuses

def Problem.view {n m : Nat} (P : Problem n m) : ProblemView where
  rows := P.matrix.denseRows.map fun row => row.toList
  objective := P.objective.toList
  constraintBounds := (List.finRange m).map P.sides
  variableBounds := P.bounds.structural.toList

/-- Whether a list of multipliers has the right length and proves infeasibility. -/
def Problem.accepts {n m : Nat} (P : Problem n m) (y : List Rat) : Bool :=
  match expectLength .ray m y with
  | .ok v => P.isCertificate v
  | .error _ => false

namespace Session

def create (config : Config) (store : MatrixStore) (objective : List Rat)
    (rowLower rowUpper variableLower variableUpper : List Bound) : Except Error Session := do
  if config.refactorInterval = 0 then throw .zeroRefactorInterval
  let costs ← expectLength .objective store.columnCount objective
  let rowLower ← expectLength .rowLower store.rowCount rowLower
  let rowUpper ← expectLength .rowUpper store.rowCount rowUpper
  let variableLower ← expectLength .variableLower store.columnCount variableLower
  let variableUpper ← expectLength .variableUpper store.columnCount variableUpper
  let problem : Problem store.columnCount store.rowCount := {
    matrix := store.matrix
    objective := costs
    bounds := {
      structural := Vector.ofFn fun j => ⟨variableLower.get j, variableUpper.get j⟩
      slack := Vector.ofFn fun i => Bounds.slack ⟨rowLower.get i, rowUpper.get i⟩ }
    cutOff := none }
  return ⟨store.columnCount, store.rowCount, Solver.ofProblem config problem⟩

def creation (s : Session) : List Event := [.created s.rows s.columns]

/-- Carry out a change, or refuse it. -/
def apply (s : Session) : Edit → Except Error Session
  | .clearBasis => return { s with solver := s.solver.clearBasis }
  | .addConstraint row sides => do
    let row ← expectLength .constraintRow s.columns row
    return ⟨s.columns, s.rows + 1, s.solver.addConstraint row sides⟩
  | .removeConstraint row => do
    let i ← expectIndex .constraint s.rows row
    return ⟨s.columns, s.rows - 1, s.solver.removeConstraint i⟩
  | .setSide row side value => do
    let i ← expectIndex .constraint s.rows row
    return { s with solver := s.solver.setSide i side value }
  | .setRightHandSide row value => do
    let i ← expectIndex .constraint s.rows row
    let solver ← s.solver.setRightHandSide i value
    return { s with solver := solver }
  | .setSides row sides => do
    let i ← expectIndex .constraint s.rows row
    return { s with solver := s.solver.setSides i sides }
  | .setVariableBound column side value => do
    let j ← expectIndex .structural s.columns column
    return { s with solver := s.solver.setVariableBound j side value }
  | .setVariableBounds column bounds => do
    let j ← expectIndex .structural s.columns column
    return { s with solver := s.solver.setBounds (.structural j) bounds }
  | .setObjective costs => do
    let costs ← expectLength .objective s.columns costs
    return { s with solver := s.solver.setObjective costs }
  | .setCutOff bound => return { s with solver := s.solver.setCutOff bound }
  | .importBasis structural slack => do
    let structural ← structural.mapM Status.ofCode
    let slack ← slack.mapM Status.ofCode
    let solver ← s.solver.setStatuses structural slack
    return { s with solver := solver }
  | .setGuess ray => do
    let solver ← s.solver.setGuess ray
    return { s with solver := solver }
  | .setProvider suggestions => return { s with solver := s.solver.setProvider suggestions }

def solved {n m : Nat} (r : Report n m) : Reply :=
  let shown := r.shown.map fun P => P.view
  match r.outcome with
  | .ok verdict => .solved verdict r.events.toList shown r.solver.snapshot
  | .error failure => .unsolved failure r.events.toList shown

def perform (s : Session) : Request → Session × Reply
  | .edit change =>
    match s.apply change with
    | .ok next => (next, .done)
    | .error cause => (s, .refused cause)
  | .optimize =>
    let report := s.solver.optimize
    ({ s with solver := report.solver }, solved report)
  | .proof =>
    match s.solver.infeasibilityProof with
    | .ok (y, solver) =>
      ({ s with solver := solver },
        .proof (y.map fun y => y.toList) (y.map fun y => s.solver.problem.isCertificate y))
    | .error failure => (s, .failed failure)
  | .snapshot => (s, .snapshot s.solver.snapshot)
  | .problem => (s, .problem s.rows s.columns s.solver.problem.view)
  | .config => (s, .config s.solver.config)
  | .isCertificate y => (s, .flag (s.solver.problem.accepts y))
  | .constraintBounds row =>
    match expectIndex .constraint s.rows row with
    | .ok i => (s, .bounds (s.solver.constraintBounds i))
    | .error cause => (s, .refused cause)
  | .variableBounds column =>
    match expectIndex .structural s.columns column with
    | .ok j => (s, .bounds (s.solver.variableBounds j))
    | .error cause => (s, .refused cause)

def after (s : Session) (history : List Request) : Session :=
  history.foldl (fun s r => (s.perform r).1) s

end Session

end ExactSimplex
