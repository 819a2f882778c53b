import ExactSimplex.Machine.Product

/-! # The point of a basis

The basis is factorized where no factorization is at hand. Values and reduced costs follow from it.
-/
namespace ExactSimplex.Machine

/-- The machine after its basis is factorized. The basis positions are reordered to match the factors, and
the weights move along with their variables. -/
def refactored (s : Machine) : Except Failure Machine := do
  let columns ← s.basic.mapM s.column
  let (factors, order) ← BasisFactors.decompose columns s.config.searchLimit
  let basic ← order.mapM (read s.basic)
  let basicPosition ← notePositions s.basicPosition basic
  let weights ← s.weights.mapM fun weights => order.mapM (read weights)
  return { s with
    basic := basic
    basicPosition := basicPosition
    weights := weights
    log := s.log.push (.factorized s.updates factors.factors.upperCount)
    factors := some factors
    updates := 0 }

def refactor : Action Machine Unit := step refactored

/-- The factorization at hand. -/
def heldFactors : Action Machine BasisFactors := do
  match (← get).factors with
  | some F => return F
  | none => refuse (.singularBasis (← get).numRows)

/-- The factorization of the basis, made if there is none. -/
def factorization : Action Machine BasisFactors := do
  if (← get).factors.isNone then refactor
  heldFactors

/-- The columns of the nonbasic variables times their values, negated. -/
def rightHandSide (s : Machine) : Except Failure (List Rat) :=
  s.nonbasic.foldlM (fun rhs j => do
    let x ← read s.x j
    if x = 0 then return rhs else s.addColumn j (-x) rhs) (List.replicate s.numRows 0)

/-- Give every basic variable the value at its position. -/
def setBasic (s : Machine) (w : List Rat) : Except Failure Machine := do
  let x ← w.zipIdx.foldlM (fun x e => do write x (← read s.basic e.2) e.1) s.x
  return { s with x := x }

/-- Take a multiple of a vector off the values of the basic variables. -/
def shiftBasic (s : Machine) (factor : Rat) (w : List Rat) : Except Failure Machine := do
  let x ← w.zipIdx.foldlM (fun x e => do
    if e.1 = 0 then return x
    else change x (← read s.basic e.2) (· - factor * e.1)) s.x
  return { s with x := x }

/-- The values of the basic variables that follow from the nonbasic ones. -/
def computePrimal : Action Machine Unit := do
  let F ← factorization
  step fun s => do s.setBasic (← F.ftran (← s.rightHandSide))

/-- After the costs of the nonbasic variables are reduced by a product. -/
def reduced (product : List Rat) (s : Machine) : Except Failure Machine := do
  let d ← (s.nonbasic.zip product).mapM fun e => do return (← s.cost e.1) - e.2
  return { s with d := d }

/-- The reduced costs that follow from the costs of the basic variables. -/
def computeDual : Action Machine Unit := do
  let F ← factorization
  let costs ← (← get).basicCosts
  let y ← F.btran costs
  let product ← multiply y
  step (reduced product)

end ExactSimplex.Machine
