/-! # Rational numbers as text

A number is written `p` or `p/q` in lowest terms with a positive denominator. Reading accepts any
nonzero denominator, reduced or not. Cells of a table are padded on the left.
-/
namespace ExactSimplex

/-- The reduced text of a rational, without a denominator when that is one. -/
def numberText (r : Rat) : String :=
  if r.den = 1 then toString r.num else toString r.num ++ "/" ++ toString r.den

/-- The value of a nonempty run of decimal digits. -/
def readDigits? (cs : List Char) : Option Nat :=
  if !cs.isEmpty && cs.all Char.isDigit then
    some (cs.foldl (fun value c => 10 * value + (c.toNat - '0'.toNat)) 0)
  else none

/-- A decimal integer with an optional minus sign. -/
def readInteger? : List Char → Option Int
  | '-' :: cs => (readDigits? cs).map fun k => -(k : Int)
  | cs => (readDigits? cs).map fun k => (k : Int)

/-- Read `p` or `p/q`; a zero denominator is no number. -/
def readNumber? (text : String) : Option Rat :=
  let cs := text.toList
  let top := cs.takeWhile (· ≠ '/')
  match cs.dropWhile (· ≠ '/') with
  | [] => (readInteger? top).map fun p => (p : Rat)
  | _ :: bottom =>
    match readInteger? top, readInteger? bottom with
    | some p, some q => if q = 0 then none else some (Rat.divInt p q)
    | _, _ => none

/-- Right-align a text in a cell; longer texts are kept whole. -/
def padLeft (width : Nat) (text : String) : String :=
  String.ofList (List.replicate (width - text.length) ' ') ++ text

/-- The quotient, when the divisor is not zero. -/
def divide? (a b : Rat) : Option Rat :=
  if b = 0 then none else some (a / b)

end ExactSimplex
