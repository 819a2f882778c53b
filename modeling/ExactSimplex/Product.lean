import ExactSimplex.Problem

/-! # A row vector times the nonbasic columns

The product `yᵀ A_N` is added up by the rows of `[A I]`. The rows are divided between two accumulators,
the caller and its helper: each claims the next chunk of rows through a common cursor, adds these rows to
a total of its own and comes back for more, until it finds that there is nothing left. The two totals
together are the product.
-/
namespace ExactSimplex

inductive Accumulator where
  | caller
  | helper
  deriving DecidableEq

/-- What one accumulator has added up so far. -/
structure Share (n : Nat) where
  total : Vec n
  /-- It came back and found no row left. -/
  finished : Bool

/-- The rows before `nextRow` have been claimed. -/
structure Division (n : Nat) where
  nextRow : Nat
  caller : Share n
  helper : Share n

namespace Division

variable {n : Nat}

def start (n : Nat) : Division n := ⟨0, ⟨Vec.zero n, false⟩, ⟨Vec.zero n, false⟩⟩

def finished (d : Division n) : Bool := d.caller.finished && d.helper.finished

/-- The caller's total, to which the nonzero parts of the helper's are added. -/
def total (d : Division n) : Vec n :=
  Vector.zipWith (fun whole part => if part ≠ 0 then whole + part else whole)
    d.caller.total d.helper.total

end Division

namespace Problem

variable {n m : Nat}

/-- The entries of a row of `[A I]`. -/
def rowEntries (P : Problem n m) (i : Fin m) : List (Var n m × Rat) :=
  (P.matrix.rows.get i).map (fun e => (.structural e.1, e.2)) ++ [(.slack i, 1)]

/-- Add a value at the position of a nonbasic variable. -/
def addNonbasic (place : PerVar (Place n m) n m) (total : Vec n) (v : Var n m) (value : Rat) :
    Vec n :=
  match place.get v with
  | .nonbasic k => Vec.addAt total k value
  | .basic _ => total

/-- Add a multiple of a row of `[A I]`, restricted to the nonbasic columns. -/
def addNonbasicRow (P : Problem n m) (place : PerVar (Place n m) n m) (y : Vec m) (total : Vec n)
    (i : Fin m) : Vec n :=
  if y.get i = 0 then total
  else (P.rowEntries i).foldl (fun total e => addNonbasic place total e.1 (e.2 * y.get i)) total

/-- The number of rows claimed at once. -/
def chunkSize : Nat := 16

/-- The chunk of rows that begins at a row, cut off behind the last row. -/
def chunk (m start : Nat) : List (Fin m) := ((List.finRange m).drop start).take chunkSize

/-- An accumulator works on the chunk that it has claimed, or finds that there is none. -/
def accumulate (P : Problem n m) (place : PerVar (Place n m) n m) (y : Vec m) (start : Nat)
    (s : Share n) : Share n :=
  if m ≤ start then { s with finished := true }
  else { s with total := (chunk m start).foldl (P.addNonbasicRow place y) s.total }

/-- The next claim is that of the given accumulator; one that has finished makes no more claims. -/
def claim (P : Problem n m) (place : PerVar (Place n m) n m) (y : Vec m) (d : Division n) :
    Accumulator → Division n
  | .caller =>
    if d.caller.finished then d
    else { d with
      nextRow := d.nextRow + chunkSize
      caller := P.accumulate place y d.nextRow d.caller }
  | .helper =>
    if d.helper.finished then d
    else { d with
      nextRow := d.nextRow + chunkSize
      helper := P.accumulate place y d.nextRow d.helper }

/-- The division of the rows in which the accumulators make their claims in the given order. -/
def divide (P : Problem n m) (place : PerVar (Place n m) n m) (y : Vec m)
    (claims : List Accumulator) : Division n :=
  claims.foldl (P.claim place y) (Division.start n)

/-- Enough claims for an accumulator to finish, even if it gets all rows. -/
def claimLimit (m : Nat) : Nat := m / chunkSize + 2

/-- The product of a row vector with the nonbasic columns. Here the helper comes too late to get any
rows; every other order of claims in which both finish leads to the same product. -/
def nonbasicProduct (P : Problem n m) (place : PerVar (Place n m) n m) (y : Vec m) : Vec n :=
  let limit := claimLimit m
  (P.divide place y (List.replicate limit .caller ++ List.replicate limit .helper)).total

end Problem

end ExactSimplex
