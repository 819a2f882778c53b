import ExactSimplex.Number.Text

/-! # Arithmetic on rationals

The operations that a caller can ask for on single numbers. Division by zero has no result.
-/
namespace ExactSimplex

inductive Operation where
  | add
  | sub
  | mul
  | div
  deriving DecidableEq, Repr

namespace Operation

def apply : Operation → Rat → Rat → Option Rat
  | add, a, b => some (a + b)
  | sub, a, b => some (a - b)
  | mul, a, b => some (a * b)
  | div, a, b => divide? a b

/-- The running results of applying operations one after the other with the same right operand. -/
def chain (b : Rat) : List Operation → Rat → Option (List Rat)
  | [], _ => some []
  | op :: rest, a => do
    let next ← op.apply a b
    let later ← chain b rest next
    return next :: later

end Operation

/-- The sign as a number. -/
def signum (r : Rat) : Rat := if 0 < r then 1 else if r < 0 then -1 else 0

def orderName (a b : Rat) : String :=
  if a < b then "less" else if b < a then "greater" else "equal"

def smaller (a b : Rat) : Rat := if b < a then b else a

def larger (a b : Rat) : Rat := if b < a then a else b

def total (xs : List Rat) : Rat := xs.foldl (· + ·) 0

end ExactSimplex
