import ExactSimplex.Number.Text

/-! # Double precision values

A double is kept as the exact rational that it stands for, so that no runtime floating point
operation is involved. Rounding goes to the nearest double, a half to the even neighbour.
-/
namespace ExactSimplex

/-- A double: a signed magnitude that is zero or `k * 2 ^ e` with `k < 2 ^ 53`, an infinity, or no
number. -/
inductive Double where
  | nan
  | infinite (negative : Bool)
  | finite (negative : Bool) (magnitude : Rat)
  deriving DecidableEq, Repr

namespace Double

/-- The power of two with the given exponent. -/
def twoPower (e : Int) : Rat :=
  if 0 ≤ e then (Nat.pow 2 e.toNat : Nat) else mkRat 1 (Nat.pow 2 (-e).toNat)

/-- The exponent `e` with `2 ^ e ≤ r < 2 ^ (e + 1)`, for a positive `r`. -/
def floorLog (r : Rat) : Int :=
  let e : Int := (r.num.natAbs.log2 : Int) - (r.den.log2 : Int)
  if twoPower e ≤ r then e else e - 1

/-- The exponent of the distance between the doubles around a positive `r`. -/
def spacing (r : Rat) : Int :=
  max (floorLog r - 52) (-1074)

/-- The nearest integer, a half going to the even one. -/
def roundHalfEven (r : Rat) : Int :=
  let below := r.floor
  let rest := r - (below : Rat)
  if rest < mkRat 1 2 then below
  else if mkRat 1 2 < rest then below + 1
  else if below % 2 = 0 then below else below + 1

/-- The double nearest to a nonnegative rational, `none` when it lies beyond the largest one. -/
def nearestMagnitude (r : Rat) : Option Rat :=
  if r ≤ 0 then some 0
  else
    let unit := twoPower (spacing r)
    let rounded := (roundHalfEven (r / unit) : Rat) * unit
    if rounded < twoPower 1024 then some rounded else none

/-- The double nearest to a signed magnitude. -/
def nearest (negative : Bool) (magnitude : Rat) : Double :=
  match nearestMagnitude magnitude with
  | some r => finite negative r
  | none => infinite negative

/-- The exact value of a finite double. -/
def value? : Double → Option Rat
  | nan => none
  | infinite _ => none
  | finite negative magnitude => some (if negative then -magnitude else magnitude)

/-- Whether the absolute value exceeds a limit; nothing exceeds a limit that is no number. -/
def exceeds : Double → Double → Bool
  | nan, _ => false
  | _, nan => false
  | _, infinite false => false
  | _, infinite true => true
  | infinite _, finite _ _ => true
  | finite _ magnitude, finite negative limit =>
    decide ((if negative then -limit else limit) < magnitude)

/-- The 64 bits of the interchange format. -/
def bits : Double → Nat
  | nan => 2047 * Nat.pow 2 52 + Nat.pow 2 51
  | infinite negative => (if negative then Nat.pow 2 63 else 0) + 2047 * Nat.pow 2 52
  | finite negative magnitude =>
    let sign := if negative then Nat.pow 2 63 else 0
    if magnitude ≤ 0 then sign
    else
      let e := spacing magnitude
      let k := (magnitude / twoPower e).floor.toNat
      if k < Nat.pow 2 52 then sign + k
      else sign + ((e + 1075).toNat * Nat.pow 2 52 + (k - Nat.pow 2 52))

/-- The bits as sixteen hexadecimal digits. -/
def hexText (d : Double) : String :=
  let digits := Nat.toDigits 16 d.bits
  "0x" ++ String.ofList (List.replicate (16 - digits.length) '0' ++ digits)

/-- The double nearest to `mantissa * 10 ^ exponent`. Decimals of more than 310 places before the
point are beyond every double, those that start after 330 zeros are nearest to zero. -/
def ofDecimal (negative : Bool) (mantissa : Nat) (exponent : Int) : Double :=
  let places : Int := (Nat.toDigits 10 mantissa).length + exponent
  if mantissa = 0 then finite negative 0
  else if 310 < places then infinite negative
  else if places < -330 then finite negative 0
  else if 0 ≤ exponent then nearest negative ((mantissa * Nat.pow 10 exponent.toNat : Nat) : Rat)
  else nearest negative (mkRat mantissa (Nat.pow 10 (-exponent).toNat))

/-- The exponent part of a decimal literal; nothing stands for zero. -/
def readExponent? : List Char → Option Int
  | [] => some 0
  | c :: cs =>
    if c = 'e' || c = 'E' then
      match cs with
      | '+' :: ds => (readDigits? ds).map fun k => (k : Int)
      | ds => readInteger? ds
    else none

/-- An unsigned decimal literal: digits, a fraction and an exponent, the last two optional. -/
def readUnsigned? (negative : Bool) (cs : List Char) : Option Double :=
  let whole := cs.takeWhile Char.isDigit
  let rest := cs.dropWhile Char.isDigit
  let (fraction, tail) := match rest with
    | '.' :: ds => (ds.takeWhile Char.isDigit, ds.dropWhile Char.isDigit)
    | ds => ([], ds)
  match readDigits? (whole ++ fraction), readExponent? tail with
  | some mantissa, some e => some (ofDecimal negative mantissa (e - fraction.length))
  | _, _ => none

/-- Read a decimal literal, `NaN`, `inf` or `-inf`. -/
def read? (text : String) : Option Double :=
  if text = "NaN" then some nan
  else
    let (negative, cs) := match text.toList with
      | '-' :: cs => (true, cs)
      | '+' :: cs => (false, cs)
      | cs => (false, cs)
    if cs = ['i', 'n', 'f'] then some (infinite negative) else readUnsigned? negative cs

end Double

end ExactSimplex
