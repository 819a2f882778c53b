import ExactSimplex.Number.Double

/-! # Ranges of numerators and denominators

All arithmetic is on unbounded rationals. The range of a problem decides how doubles and counts
are read: exactly, or as fractions whose numerator and denominator fit in a signed 64-bit word.
The second reading follows continued fractions, computed in double precision.
-/
namespace ExactSimplex

/-- How wide the numbers read from outside may be. -/
inductive NumberRange where
  | unbounded
  | word
  deriving DecidableEq, Repr

namespace NumberRange

/-- The largest signed 64-bit word. -/
def maxWord : Nat := Nat.pow 2 63 - 1

/-- The last two convergents of a continued fraction, the later one in `n₁ / d₁`. -/
structure Convergents where
  n₀ : Nat := 0
  d₀ : Nat := 1
  n₁ : Nat := 1
  d₁ : Nat := 0
  deriving Repr

/-- The nearest double to a nonnegative rational of the size of a word. -/
def rounded (r : Rat) : Rat := (Double.nearestMagnitude r).getD 0

/-- Distance of two nonnegative doubles, rounded. -/
def distance (a b : Rat) : Rat := rounded (if a < b then b - a else a - b)

/-- Whether the next convergent with partial quotient `a` would leave the words. -/
def overflows (a : Nat) (c : Convergents) : Bool :=
  a != 0 && (decide (maxWord / a < c.n₁) || decide (maxWord / a < c.d₁) ||
    decide (maxWord < a * c.n₁ + c.n₀) || decide (maxWord < a * c.d₁ + c.d₀))

/-- Follow the continued fraction of `value` from the quotient `q` for at most the given number of
steps, ending early once the convergent is as near as doubles can tell. -/
def expand (value : Rat) : Nat → Rat → Convergents → Convergents
  | 0, _, c => c
  | steps + 1, q, c =>
    let a := q.floor.toNat
    if Double.twoPower 63 ≤ q then c
    else if overflows a c then c
    else
      let n := a * c.n₁ + c.n₀
      let d := a * c.d₁ + c.d₀
      let g := Nat.gcd n d
      let next : Convergents :=
        { n₀ := c.n₁
          d₀ := c.d₁
          n₁ := if g = 0 then n else n / g
          d₁ := if g = 0 then d else d / g }
      let f := rounded (q - rounded (a : Nat))
      if distance (rounded (rounded (n : Nat) / rounded (d : Nat))) value <
          rounded (mkRat 1 (Nat.pow 10 19)) then next
      else if f < Double.twoPower (-63) then next
      else expand value steps (rounded (1 / f)) next

/-- A fraction of words close to a nonnegative double. -/
def wordFraction? (value : Rat) : Option Rat :=
  if Double.twoPower 63 < value then none
  else
    let c := expand value 30 value {}
    if c.d₁ = 0 then none else some (mkRat c.n₁ c.d₁)

/-- Read a double as a rational; infinities and what is no number have no reading. -/
def ofDouble? : NumberRange → Double → Option Rat
  | unbounded, x => x.value?
  | word, .finite negative magnitude =>
    (wordFraction? magnitude).map fun r => if negative then -r else r
  | word, _ => none

/-- Read a count as a rational. -/
def ofCount? : NumberRange → Nat → Option Rat
  | unbounded, k => some (k : Nat)
  | word, k => if k ≤ maxWord then some (k : Nat) else none

end NumberRange

end ExactSimplex
