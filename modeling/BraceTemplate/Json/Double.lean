import BraceTemplate.Json.Basic

/-!
# Numbers of JSON as doubles

The digits of a numeral go into a coefficient as long as it fits into 64 bits. The coefficient is
rounded to a double, then multiplied or divided by a power of ten in double arithmetic. Long
numerals may therefore come out as a neighbour of the nearest double. Numbers out of range are
refused.
-/

namespace BraceTemplate

namespace Numeral

/-- Appends digits to a coefficient as long as it fits into 64 bits, and gives the digits that do
not fit. -/
def fill (coefficient : Nat) : List Digit → Nat × List Digit
  | [] => (coefficient, [])
  | digit :: digits =>
    if 10 * coefficient + digit.val < 2 ^ 64 then fill (10 * coefficient + digit.val) digits
    else (coefficient, digit :: digits)

/-- The double nearest to a power of ten. -/
def powerOfTen (n : Nat) : Float :=
  Binary64.nearest false (10 ^ n) 1

/-- Divides by a power of ten, in steps of the largest one that is a double. -/
def divideByPower (x : Float) (n : Nat) : Float :=
  if n ≤ 308 || x == 0 then x / powerOfTen (min n 308)
  else divideByPower (x / powerOfTen 308) (n - 308)
termination_by n
decreasing_by simp_all; omega

/-- Multiplies a coefficient by a power of ten; `none` if the result is infinite. -/
def scale? (coefficient : Nat) (power : Int) : Option Float :=
  let x := Binary64.nearest false coefficient 1
  if power < 0 then some (divideByPower x power.natAbs)
  else if coefficient = 0 then some 0
  else if power > 308 then none
  else
    let scaled := x * powerOfTen power.toNat
    if scaled.isInf then none else some scaled

/-- The double that a JSON numeral stands for, if it is in range. -/
def toDouble? (numeral : Numeral) : Option Float := do
  let (coefficient, dropped) := fill 0 numeral.whole
  let (coefficient, ignored) := fill coefficient numeral.fraction
  let point : Int := (dropped.length : Int) - (numeral.fraction.length - ignored.length : Nat)
  let power := (numeral.exponent.map Exponent.power).getD 0
  let x ← scale? coefficient (point + power)
  return if numeral.negative then -x else x

/-- The natural number below `2 ^ 64` that a JSON numeral stands for, if it has neither sign, point
nor exponent. -/
def toIndex? (numeral : Numeral) : Option Nat :=
  let n := Digit.value numeral.whole
  if numeral.negative || !numeral.fraction.isEmpty || numeral.exponent.isSome || 2 ^ 64 ≤ n then
    none
  else some n

end Numeral

end BraceTemplate
