import ExactSimplex.Table

/-! # Refused requests and failures

A request is refused for one of the causes of `Error`, and the wording of a refusal is in
`Error.message` only. A `Failure` also covers computations that cannot go on.
-/
namespace ExactSimplex

inductive Quantity where
  | objective
  | rowLower
  | rowUpper
  | variableLower
  | variableUpper
  | columnIndices
  | constraintRow
  | variableStatuses
  | constraintStatuses
  | ray
  deriving DecidableEq, Repr

def Quantity.name : Quantity → String
  | objective => "objective"
  | rowLower => "row lower bound vector"
  | rowUpper => "row upper bound vector"
  | variableLower => "variable lower bound vector"
  | variableUpper => "variable upper bound vector"
  | columnIndices => "column index vector"
  | constraintRow => "constraint"
  | variableStatuses => "variable status vector"
  | constraintStatuses => "constraint status vector"
  | ray => "infeasibility ray"

inductive Entity where
  | column
  | constraint
  | structural
  deriving DecidableEq, Repr

def Entity.name : Entity → String
  | column => "column"
  | constraint => "constraint"
  | structural => "variable"

inductive Error where
  | zeroRefactorInterval
  | wrongLength (what : Quantity) (length expected : Nat)
  | outOfRange (what : Entity) (index count : Nat)
  | startsNotAtZero
  | startsNotAtEnd (count : Nat)
  | startsUnsorted
  | unknownStatus (code : Int)
  | ambiguousBound (row : Nat)
  | singularBasis (remaining : Nat)
  | invalidBasis (basic nonbasic : Nat)
  deriving DecidableEq, Repr

namespace Error

/-- The family of a cause, the first word of its message. -/
def kind : Error → String
  | ambiguousBound _ => "AmbiguousBound"
  | singularBasis _ => "SingularBasis"
  | invalidBasis _ _ => "InvalidBasis"
  | _ => "MalformedInput"

/-- The message after the family. -/
def detail : Error → String
  | zeroRefactorInterval => "refactor interval must be positive"
  | wrongLength what length expected =>
    what.name ++ " has length " ++ toString length ++ ", expected " ++ toString expected
  | outOfRange what index count =>
    what.name ++ " index " ++ toString index ++ " out of range, there are " ++ toString count
  | startsNotAtZero => "row start vector must begin with 0"
  | startsNotAtEnd count => "row start vector must end with the number of values " ++ toString count
  | startsUnsorted => "row start vector is not sorted"
  | unknownStatus code => "unknown variable status " ++ toString code
  | ambiguousBound row => "cannot determine which bound of constraint " ++ toString row ++ " to set"
  | singularBasis remaining => "no pivot found with " ++ toString remaining ++ " rows remaining"
  | invalidBasis basic nonbasic =>
    toString basic ++ " basic and " ++ toString nonbasic ++ " nonbasic variables"

def message (e : Error) : String := e.kind ++ ": " ++ e.detail

end Error

/-- Why a computation has no result: it was refused, it met a division by zero or an index outside
of its data, it relied on something that is not so, or it used up its allowance of steps. -/
inductive Failure where
  | refused (cause : Error)
  | divisionByZero
  | outside
  | assertion
  | exhausted
  deriving DecidableEq, Repr

/-- The entries as a vector of the expected length. -/
def expectLength {α : Type} (what : Quantity) (expected : Nat) (xs : List α) :
    Except Error (Vector α expected) :=
  match tableOf? expected xs with
  | some table => .ok table
  | none => .error (.wrongLength what xs.length expected)

def expectIndex (what : Entity) (count index : Nat) : Except Error (Fin count) :=
  if h : index < count then .ok ⟨index, h⟩ else .error (.outOfRange what index count)

end ExactSimplex
