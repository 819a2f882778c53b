import ExactSimplex.Machine.Basic

/-! # Multiplying on two threads

A row vector is multiplied with the nonbasic columns by the caller and its helper, who divide the rows
between them. The rows are those of the compressed matrix, and a position is looked up for every entry.
-/
namespace ExactSimplex

/-- What is needed to add up a part of a product. -/
structure Multiplication where
  matrix : CompressedMatrix
  positions : List (Option Nat)
  vector : List Rat

/-- What one accumulator has added up so far. -/
structure Portion where
  total : List Rat
  /-- It came back and found no row left. -/
  finished : Bool

/-- The rows before `nextRow` have been claimed. -/
structure Portions where
  nextRow : Nat
  caller : Portion
  helper : Portion

namespace Multiplication

/-- Add a value at the position of a variable, if it has one. -/
def addNonbasic (J : Multiplication) (total : List Rat) (j : Nat) (value : Rat) :
    Except Failure (List Rat) := do
  match ← read J.positions j with
  | some k => change total k (· + value)
  | none => return total

/-- Add a multiple of a row of `[A I]`, restricted to the nonbasic columns. -/
def addRow (J : Multiplication) (total : List Rat) (i : Nat) : Except Failure (List Rat) := do
  let factor ← read J.vector i
  if factor = 0 then return total
  else
    let entries ← J.matrix.row i
    let total ← entries.foldlM (fun total e => J.addNonbasic total e.1 (e.2 * factor)) total
    J.addNonbasic total (J.matrix.columnCount + i) factor

/-- An accumulator works on the chunk that it has claimed, or finds that there is none. -/
def accumulate (J : Multiplication) (start : Nat) (p : Portion) : Except Failure Portion := do
  let m := J.matrix.rowCount
  if m ≤ start then return { p with finished := true }
  else
    let stop := min (start + Problem.chunkSize) m
    let total ← (List.range' start (stop - start)).foldlM J.addRow p.total
    return { p with total := total }

/-- The next claim is that of the given accumulator; one that has finished makes no more claims. -/
def claim (J : Multiplication) (d : Portions) : Accumulator → Except Failure Portions
  | .caller =>
    if d.caller.finished then return d
    else do
      let caller ← J.accumulate d.nextRow d.caller
      return { d with nextRow := d.nextRow + Problem.chunkSize, caller := caller }
  | .helper =>
    if d.helper.finished then return d
    else do
      let helper ← J.accumulate d.nextRow d.helper
      return { d with nextRow := d.nextRow + Problem.chunkSize, helper := helper }

/-- The division of the rows in which the accumulators make their claims in the given order. -/
def divide (J : Multiplication) (claims : List Accumulator) : Except Failure Portions := do
  let size ← subtract J.positions.length J.matrix.rowCount
  let portion : Portion := ⟨List.replicate size 0, false⟩
  claims.foldlM J.claim ⟨0, portion, portion⟩

/-- The claims of both accumulators until they have finished. A job that the helper does not take has been
done before the caller begins. -/
def claims (J : Multiplication) (taken : Bool) (turn : Turn) : List Accumulator :=
  let limit := Problem.claimLimit J.matrix.rowCount
  if taken then turn.claims ++ (List.replicate limit .caller ++ List.replicate limit .helper)
  else List.replicate limit .helper ++ List.replicate limit .caller

/-- The nonzero entries of a part are added to a whole. -/
def addPart (whole part : List Rat) : Except Failure (List Rat) :=
  changeAlong (fun _ a b => .ok (if b = 0 then a else a + b)) 0 whole part

end Multiplication

namespace Machine

/-- The product of a row vector with the nonbasic columns. -/
def multiply (y : List Rat) : Action Machine (List Rat) := do
  let s ← get
  ensure (y.length = s.numRows)
  ensure (s.nonbasicPosition.length = s.numRows + s.numCols)
  ensure (s.nonbasicPosition.countP Option.isSome = s.numCols)
  let turn ← nextTurn
  let job : Multiplication := ⟨s.matrix, s.nonbasicPosition, y⟩
  let portions ← job.divide (job.claims (s.multiplier.takes turn) turn)
  let helper ← s.multiplier.submit turn (.ok portions.helper.total)
  let (part, helper) ← helper.wait
  modify fun s => { s with multiplier := helper }
  Multiplication.addPart portions.caller.total part

end Machine

end ExactSimplex
