import ExactSimplex.Machine.Edit
import ExactSimplex.Machine.Run

/-! # Machines at work

A solve starts from the basis at hand. Without one, the provider is asked for a suggestion, and failing that
the slack basis is used. A ray guess is checked first. Between solves the problem is edited and looked at.
-/
namespace ExactSimplex.Machine

def followRay : Option (List Double) → Action Machine Unit
  | none => return ()
  | some ray => do
    match ← (setGuess ray).attempt with
    | .ok () => return ()
    | .error cause => record (.ignoredRay cause)

/-- Use what the provider suggests, as far as it is possible. -/
def follow (suggestion : Suggestion) : Action Machine Unit := do
  let outcome ← (setBase suggestion.structural suggestion.slack).attempt
  record (match outcome with
    | .ok () => .importedBasis
    | .error cause => .ignoredBasis cause)
  followRay suggestion.ray

/-- Without a basis the provider is asked for its next suggestion, if there is a provider. -/
def seedFromProvider : Action Machine Unit := do
  let s ← get
  match s.hasBasis, s.provider with
  | false, some suggestions =>
    let view ← s.view
    set { s with shown := some view, provider := some suggestions.tail }
    match suggestions.head?.join with
    | none => return ()
    | some suggestion => follow suggestion
  | _, _ => return ()

/-- The slack basis, in which every row of the inverse has norm one. -/
def logicalBasis : Action Machine Unit := do
  clearBasis
  modify fun s => { s with hasBasis := true, weights := some (List.replicate s.numRows 1) }
  refactor

/-- The form `- Aᵀ y` of the structural variables. -/
def form (s : Machine) (y : List Rat) : Except Failure (List Rat) :=
  y.zipIdx.foldlM (fun d e => do
    if e.1 = 0 then return d
    else (← s.matrix.row e.2).foldlM (fun d a => change d a.1 (· - a.2 * e.1)) d)
    (List.replicate s.numCols 0)

/-- The least value of a linear form over the bounds of all variables, `none` if there is none. -/
def least? (s : Machine) (d : List Rat) : Except Failure (Option Rat) :=
  d.zipIdx.foldlM (fun total e => do
    match total with
    | none => return none
    | some total =>
      if e.1 = 0 then return some total
      else return ((← read s.bounds e.2).least? e.1).map fun t => total + t) (some 0)

/-- The multipliers prove that no point lies within all bounds and sides. -/
def isFarkasCertificate (s : Machine) (y : List Rat) : Except Failure Bool := do
  if y.length ≠ s.numRows then return false
  else
    let d ← s.form y
    let total ← s.least? (d ++ y.map fun v => -v)
    return total.any fun total => decide (0 < total)

/-- The product of a ray with the column of a variable. -/
def rayAt (s : Machine) (ray : List Rat) (j : Nat) : Except Failure Rat := do
  if j < s.numCols then
    return addUp (← (← s.matrix.column j).mapM fun e => do return e.2 * (← read ray e.1))
  else read ray (j - s.numCols)

/-- The multipliers of a ray guess are rounded in terms of the basis. The event says why a guess is not
used. -/
def guessMultipliers (s : Machine) (guess : List Double) : Except Failure (Except Event (List Rat)) :=
  if guess.length ≠ s.numRows ∨
      (guess.any fun v => decide (v = .nan) || v.exceeds s.config.magnitudeLimit) then
    .ok (.error .guessInvalid)
  else
    match guess.mapM s.config.numbers.ofDouble?, s.config.numbers.ofDouble? s.config.roundingTolerance with
    | some ray, some tolerance => do
      let y ← s.basic.mapM fun j => do return Problem.snap tolerance (← s.rayAt ray j)
      if y.all fun v => decide (v.abs ≤ tolerance) then return .error .guessZero else return .ok y
    | _, _ => .ok (.error .guessInexact)

/-- Whether there is a guess that proves infeasibility. If so, it becomes the proof. -/
def checkGuess : Action Machine Bool := do
  let s ← get
  match s.guess with
  | none => return false
  | some guess =>
    match ← s.guessMultipliers guess with
    | .error event =>
      record event
      return false
    | .ok y =>
      let F ← factorization
      let y ← F.btran y
      if ← s.isFarkasCertificate y then
        modify fun s => { s with proof := some y }
        return true
      else
        record .guessRefuted
        return false

/-- Factorize an imported basis. One that is singular is given up. -/
def factorizeImported : Action Machine Unit := do
  let s ← get
  if s.hasBasis && s.factors.isNone then
    match ← refactor.attempt with
    | .ok () => return ()
    | .error cause =>
      record (.unusableBasis cause)
      modify fun s => { s with hasBasis := false }
  else return ()

/-- Make sure that there is a factorized basis: the one at hand, a suggested one or the slack basis. -/
def prepare : Action Machine Unit := do
  seedFromProvider
  factorizeImported
  if (← get).hasBasis then return () else logicalBasis

def opt : Action Machine Verdict := do
  modify fun s => { s with stuck := none, proof := none, perturbed := false }
  prepare
  if ← checkGuess then
    computePrimal
    computeDual
    record .guessVerified
    return .infeasible
  else
    let verdict ← solve 2
    modify fun s => if verdict = .optimal then { s with guess := none, proof := none } else s
    record (.finished verdict)
    return verdict

/-- The proof of infeasibility, if the last solve found one; it is kept from then on. -/
def infeasibilityProof : Action Machine (Option (List Rat)) := do
  let s ← get
  match s.proof, s.stuck with
  | some y, _ => return some y
  | none, none => return none
  | none, some v =>
    match ← read s.basicPosition v with
    | none => return none
    | some row =>
      let b ← read s.bounds v
      let x ← read s.x v
      let sign : Rat := if b.lower.any fun l => x < l then -1 else 1
      let ray ← write (List.replicate s.numRows 0) row sign
      let F ← factorization
      let y ← F.btran ray
      modify fun s => { s with proof := some y }
      return some y

/-- A machine for a problem, without a basis. What is to happen outside of it is decided beforehand. -/
def create (config : Config) (matrix : CompressedMatrix) (objective : List Rat)
    (rowLower rowUpper variableLower variableUpper : List Bound) (schedule : List Turn) :
    Except Failure Machine := do
  require (config.refactorInterval ≠ 0) .zeroRefactorInterval
  let m := matrix.rowCount
  let n := matrix.columnCount
  requireLength .objective n objective
  requireLength .rowLower m rowLower
  requireLength .rowUpper m rowUpper
  requireLength .variableLower n variableLower
  requireLength .variableUpper n variableUpper
  let bounds := (variableLower.zip variableUpper).map (fun e => (⟨e.1, e.2⟩ : Bounds)) ++
    (rowLower.zip rowUpper).map fun e => Bounds.slack ⟨e.1, e.2⟩
  let s : Machine := {
    config := config
    matrix := matrix
    objective := objective
    bounds := bounds
    cutOff := none
    hasBasis := false
    basic := []
    basicPosition := []
    nonbasic := []
    nonbasicPosition := []
    x := []
    d := []
    factors := none
    updates := 0
    weights := none
    proof := none
    guess := none
    stuck := none
    perturbed := false
    multiplier := .spawn (schedule.headD {}).started
    steepestEdge := none
    provider := none
    schedule := schedule.tail
    shown := none
    log := #[] }
  let s ← s.cleared
  return { s with log := s.log.push (.created m n) }

/-- Answer a request. A refusal is an answer as well. -/
def perform : Request → Action Machine Reply
  | .edit change => do
    match ← (apply change).attempt with
    | .ok () => return .done
    | .error cause => return .refused cause
  | .optimize => do
    modify fun s => { s with shown := none, log := #[] }
    let outcome ← opt.attempt
    let s ← get
    match outcome with
    | .ok verdict => return .solved verdict s.log.toList s.shown (← s.snapshot)
    | .error cause => return .unsolved (.refused cause) s.log.toList s.shown
  | .proof => do
    match ← infeasibilityProof.attempt with
    | .ok none => return .proof none none
    | .ok (some y) => return .proof (some y) (some (← (← get).isFarkasCertificate y))
    | .error cause => return .failed (.refused cause)
  | .snapshot => do return .snapshot (← (← get).snapshot)
  | .problem => do
    let s ← get
    return .problem s.numRows s.numCols (← s.view)
  | .config => do return .config (← get).config
  | .isCertificate y => do return .flag (← (← get).isFarkasCertificate y)
  | .constraintBounds row => do
    match ← (liftM ((← get).constraintBounds row) : Action Machine Bounds).attempt with
    | .ok b => return .bounds b
    | .error cause => return .refused cause
  | .variableBounds column => do
    match ← (liftM ((← get).variableBounds column) : Action Machine Bounds).attempt with
    | .ok b => return .bounds b
    | .error cause => return .refused cause

/-- The machine after a history of requests, if none of them fails. -/
def after (s : Machine) (history : List Request) : Except Failure Machine :=
  history.foldlM (fun s request => do return (← (perform request).run s).2) s

end ExactSimplex.Machine
