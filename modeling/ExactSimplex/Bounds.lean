import ExactSimplex.Error
import ExactSimplex.Number.Text

/-! # Bounds and statuses

A bound is a rational or missing: a missing lower bound is minus infinity, a missing upper bound
is plus infinity. A row `lower ≤ a x ≤ upper` has the slack `s = - a x`, whose bounds are the
sides of the row, swapped and negated.
-/
namespace ExactSimplex

/-- One end of an interval, absent when infinite. -/
abbrev Bound := Option Rat

namespace Bound

def isAt (b : Bound) (x : Rat) : Bool := b == some x

def negated (b : Bound) : Bound := b.map fun v => -v

def text : Bound → String
  | some v => numberText v
  | none => "inf"

end Bound

inductive Side where
  | lower
  | upper
  deriving DecidableEq, Repr

def Side.opposite : Side → Side
  | lower => upper
  | upper => lower

@[simp] theorem Side.opposite_opposite (s : Side) : s.opposite.opposite = s := by
  cases s <;> rfl

/-- The interval of a variable or of a row. -/
structure Bounds where
  lower : Bound
  upper : Bound
  deriving DecidableEq, Repr

namespace Bounds

def get (b : Bounds) : Side → Bound
  | .lower => b.lower
  | .upper => b.upper

def set (b : Bounds) : Side → Bound → Bounds
  | .lower, v => { b with lower := v }
  | .upper, v => { b with upper := v }

/-- The bounds of the slack of a row with these sides; also the sides of the row of a slack with
these bounds. -/
def slack (b : Bounds) : Bounds := ⟨b.upper.negated, b.lower.negated⟩

@[simp] theorem slack_slack (b : Bounds) : b.slack.slack = b := by
  rcases b with ⟨_ | l, _ | u⟩ <;> simp [slack, Bound.negated]

def box? (b : Bounds) : Option (Rat × Rat) :=
  match b.lower, b.upper with
  | some l, some u => some (l, u)
  | _, _ => none

def isFixed (b : Bounds) : Bool :=
  match b.box? with
  | some (l, u) => decide (l = u)
  | none => false

/-- Both ends are finite and the lower one is the larger. -/
def isContradictory (b : Bounds) : Bool :=
  match b.box? with
  | some (l, u) => decide (u < l)
  | none => false

def isFree (b : Bounds) : Bool := b.lower.isNone && b.upper.isNone

/-- The value of a variable placed at a side: the bound there, else the other one, else zero. -/
def restingValue (b : Bounds) (side : Side) : Rat :=
  ((b.get side).or (b.get side.opposite)).getD 0

/-- Bounds under which every variable can rest at a finite bound: zero in place of a finite bound,
minus or plus one in place of an infinite one. -/
def surrogate (b : Bounds) : Bounds :=
  ⟨some (if b.lower.isSome then 0 else -1), some (if b.upper.isSome then 0 else 1)⟩

end Bounds

inductive Status where
  | atLower
  | basic
  | atUpper
  | free
  deriving DecidableEq, Repr

namespace Status

def code : Status → Int
  | atLower => 0
  | basic => 1
  | atUpper => 2
  | free => 3

def name : Status → String
  | atLower => "AtLower"
  | basic => "Basic"
  | atUpper => "AtUpper"
  | free => "Free"

def ofCode (code : Int) : Except Error Status :=
  if code = 0 then .ok atLower
  else if code = 1 then .ok basic
  else if code = 2 then .ok atUpper
  else if code = 3 then .ok free
  else .error (.unknownStatus code)

@[simp] theorem ofCode_code (s : Status) : ofCode s.code = .ok s := by
  cases s <;> rfl

end Status

end ExactSimplex
