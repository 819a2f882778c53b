import ExactSimplex.Machine.Basic

/-! # Edits of a machine

Every edit checks its data before it writes anything. Row `i` is edited through the bounds of its slack at
`n + i`.
-/
namespace ExactSimplex.Machine

/-- Change an entry of the bounds. -/
def changeBounds (index : Nat) (f : Bounds → Bounds) : Action Machine Unit := step fun s => do
  let bounds ← change s.bounds index f
  return { s with bounds := bounds }

def onMatrix (p : Action CompressedMatrix Unit) : Action Machine Unit :=
  p.within Machine.matrix fun s A => { s with matrix := A }

/-- Append the row `lower ≤ a x ≤ upper`. -/
def addConstraint (coefficients : List Rat) (sides : Bounds) : Action Machine Unit := do
  requireLength .constraintRow (← get).numCols coefficients
  onMatrix (CompressedMatrix.pushRow coefficients)
  modify fun s => { s with bounds := s.bounds ++ [sides.slack] }
  modify fun s => { s with guess := none }
  invalidateProof
  clearBasis

def removeConstraint (row : Nat) : Action Machine Unit := do
  let s ← get
  requireIndex .constraint s.numRows row
  onMatrix (CompressedMatrix.removeRow row)
  step fun t => do
    let bounds ← removeAt t.bounds (s.numCols + row)
    return { t with bounds := bounds }
  modify fun s => { s with guess := none }
  invalidateProof
  clearBasis

def setSide (row : Nat) (side : Side) (value : Bound) : Action Machine Unit := do
  let s ← get
  requireIndex .constraint s.numRows row
  changeBounds (s.numCols + row) fun b => b.set side.opposite value.negated
  invalidateProof

/-- Replace the only finite side of a row, or both when they are equal. A row without finite sides gets a
lower side. -/
def setRightHandSide (row : Nat) (value : Rat) : Action Machine Unit := do
  let s ← get
  requireIndex .constraint s.numRows row
  let slack ← read s.bounds (s.numCols + row)
  let value : Bound := some (-value)
  match slack.lower, slack.upper with
  | none, _ => changeBounds (s.numCols + row) fun b => b.set .upper value
  | _, none => changeBounds (s.numCols + row) fun b => b.set .lower value
  | some lower, some upper =>
    if lower = upper then
      changeBounds (s.numCols + row) fun b => (b.set .lower value).set .upper value
    else refuse (.ambiguousBound row)
  invalidateProof

def setSides (row : Nat) (sides : Bounds) : Action Machine Unit := do
  let s ← get
  requireIndex .constraint s.numRows row
  changeBounds (s.numCols + row) fun _ => sides.slack
  invalidateProof

def setVariableBound (column : Nat) (side : Side) (value : Bound) : Action Machine Unit := do
  requireIndex .structural (← get).numCols column
  changeBounds column fun b => b.set side value
  invalidateProof

def setVariableBounds (column : Nat) (bounds : Bounds) : Action Machine Unit := do
  requireIndex .structural (← get).numCols column
  changeBounds column fun b => (b.set .lower bounds.lower).set .upper bounds.upper
  invalidateProof

def setObjective (costs : List Rat) : Action Machine Unit := do
  requireLength .objective (← get).numCols costs
  modify fun s => { s with objective := costs }
  invalidateProof

/-- Stop solving once the objective value reaches this bound. -/
def setCutOff (bound : Bound) : Action Machine Unit := modify fun s => { s with cutOff := bound }

/-- Place a variable where its status asks for it, and sort it into the basic or the nonbasic ones. -/
def placed (s : Machine) (e : List Rat × List Nat × List Nat) (status : Status) (j : Nat) :
    Except Failure (List Rat × List Nat × List Nat) := do
  let b ← read s.bounds j
  match status with
  | .basic => return (e.1, e.2.1 ++ [j], e.2.2)
  | .atLower => return (← write e.1 j (b.restingValue .lower), e.2.1, e.2.2 ++ [j])
  | .atUpper => return (← write e.1 j (b.restingValue .upper), e.2.1, e.2.2 ++ [j])
  | .free => return (← write e.1 j 0, e.2.1, e.2.2 ++ [j])

/-- The machine with the basis that the statuses describe, after the old one is forgotten. -/
def imported (statuses : List Status) (s : Machine) : Except Failure Machine := do
  let (x, basic, nonbasic) ← statuses.zipIdx.foldlM (fun e v => s.placed e v.1 v.2) (s.x, [], [])
  let basicPosition ← notePositions (s.basicPosition.map fun _ => none) basic
  let nonbasicPosition ← notePositions (s.nonbasicPosition.map fun _ => none) nonbasic
  return { s with
    x := x
    basic := basic
    basicPosition := basicPosition
    nonbasic := nonbasic
    nonbasicPosition := nonbasicPosition
    hasBasis := true }

/-- Import a basis. It needs one basic variable per row. -/
def setBase (structural slack : List Status) : Action Machine Unit := do
  let s ← get
  requireLength .variableStatuses s.numCols structural
  requireLength .constraintStatuses s.numRows slack
  let basic := (structural ++ slack).count .basic
  require (basic = s.numRows) (.invalidBasis basic (s.numCols + s.numRows - basic))
  clearBasis
  step (imported (structural ++ slack))
  invalidateProof

/-- Provide a ray that is thought to prove infeasibility. -/
def setGuess (ray : List Double) : Action Machine Unit := do
  requireLength .ray (← get).numRows ray
  modify fun s => { s with guess := some ray }

def setProvider (suggestions : List (Option Suggestion)) : Action Machine Unit :=
  modify fun s => { s with provider := some suggestions }

/-- The statuses with these codes. -/
def decode (codes : List Int) : Except Failure (List Status) :=
  (codes.mapM Status.ofCode).mapError .refused

/-- Carry out a change, or refuse it. -/
def apply : Edit → Action Machine Unit
  | .clearBasis => clearBasis
  | .addConstraint row sides => addConstraint row sides
  | .removeConstraint row => removeConstraint row
  | .setSide row side value => setSide row side value
  | .setRightHandSide row value => setRightHandSide row value
  | .setSides row sides => setSides row sides
  | .setVariableBound column side value => setVariableBound column side value
  | .setVariableBounds column bounds => setVariableBounds column bounds
  | .setObjective costs => setObjective costs
  | .setCutOff bound => setCutOff bound
  | .importBasis structural slack => do setBase (← decode structural) (← decode slack)
  | .setGuess ray => setGuess ray
  | .setProvider suggestions => setProvider suggestions

end ExactSimplex.Machine
