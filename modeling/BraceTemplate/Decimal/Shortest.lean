import BraceTemplate.Decimal.Numeral

/-!
# The shortest decimal of a double

Every double is the nearest one to a whole interval of reals. Among the decimals in that interval
the shortest ones are chosen, and among those the one nearest to the double. Grids of powers of ten
are tried from coarse to fine; on each only the two neighbours of the value can be nearest. A
decimal is laid out in full or with an exponent.
-/

namespace BraceTemplate

/-- Which neighbour takes a tie between two equally near decimals. -/
inductive Tie where
  | up
  | toEven
  deriving DecidableEq, Repr

/-- The positive number `0.d₁d₂… * 10 ^ point`. -/
structure Decimal where
  digits : List Digit
  point : Int
  deriving DecidableEq, Repr

namespace Decimal

/-- The decimal `coefficient * 10 ^ power` without trailing zeros. -/
def ofScaled (coefficient : Nat) (power : Int) : Decimal :=
  let digits := Digit.ofNat coefficient
  ⟨(digits.reverse.dropWhile (· == 0)).reverse, power + digits.length⟩

/-- The reals that round to a double, in quarters of the unit of its significand. The lower half of
the interval is narrower when the significand is the smallest of its binade. -/
structure Interval where
  lower : Nat
  middle : Nat
  upper : Nat
  closed : Bool
  deriving DecidableEq, Repr

/-- The interval around a value of positive significand. -/
def Interval.around (value : Binary64) : Interval :=
  let middle := 4 * value.significand
  let narrow := value.significand = 2 ^ 52 ∧ value.exponent ≠ Binary64.minExponent
  ⟨middle - (if narrow then 1 else 2), middle, middle + 2, value.significand % 2 = 0⟩

/-- The multiple of `step` in the interval that is nearest to its middle, in units of `step`; all
bounds of the interval are stretched by `scale`. -/
def Interval.pick? (interval : Interval) (tie : Tie) (scale step : Nat) : Option Nat :=
  let inside (n : Nat) : Bool :=
    let x := n * step
    (interval.lower * scale < x && x < interval.upper * scale) ||
      (interval.closed && (x == interval.lower * scale || x == interval.upper * scale))
  let middle := interval.middle * scale
  let floor := middle / step
  match inside floor, inside (floor + 1) with
  | false, false => none
  | true, false => some floor
  | false, true => some (floor + 1)
  | true, true =>
    let rest := middle % step
    if 2 * rest < step then some floor
    else if 2 * rest > step then some (floor + 1)
    else
      match tie with
      | .up => some (floor + 1)
      | .toEven => some (if floor % 2 = 0 then floor else floor + 1)

/-- Tries the grids `10 ^ power`, `10 ^ (power - 1)`, … until one of them meets the interval, at
most `grids` of them. The unit of the interval is `2 ^ unit`. -/
def search (interval : Interval) (unit : Int) (tie : Tie) : (grids : Nat) → (power : Int) → Decimal
  | 0, power => ofScaled 0 power
  | grids + 1, power =>
    let (scale, step) := Binary64.scaleDown 1 1 (-unit)
    let (scale, step) :=
      if power < 0 then (scale * 10 ^ power.natAbs, step) else (scale, step * 10 ^ power.natAbs)
    match interval.pick? tie scale step with
    | some n => ofScaled n power
    | none => search interval unit tie grids (power - 1)

/-- The shortest decimal that rounds to a value of positive significand. The first grid tried is
coarser than the value; seventeen digits always suffice. -/
def shortest (tie : Tie) (value : Binary64) : Decimal :=
  let bits : Int := value.significand.log2 + value.exponent + 1
  search (.around value) (value.exponent - 2) tie 20 (bits * 30103 / 100000 + 1)

/-- The numeral that writes a decimal in full, with at least `places` digits behind the point. -/
def positional (negative : Bool) (places : Nat) (decimal : Decimal) : Numeral :=
  let digits := decimal.digits
  let (whole, fraction) :=
    if decimal.point ≤ 0 then ([0], List.replicate decimal.point.natAbs 0 ++ digits)
    else
      let point := decimal.point.toNat
      (digits.take point ++ List.replicate (point - digits.length) 0, digits.drop point)
  ⟨negative, whole, fraction ++ List.replicate (places - fraction.length) 0, none⟩

/-- The numeral that writes a decimal with one digit before the point and an exponent. -/
def scientific (negative : Bool) (decimal : Decimal) : Numeral :=
  let power := decimal.point - 1
  ⟨negative, decimal.digits.take 1, decimal.digits.drop 1,
    some ⟨power < 0, Digit.ofNat power.natAbs⟩⟩

end Decimal

/-- The numeral that writes a finite double in full with the shortest digits that read back. It
keeps the sign of zero, and a tie between two decimals goes up. -/
def Binary64.numeral (value : Binary64) : Numeral :=
  if value.significand = 0 then ⟨value.negative, [0], [], none⟩
  else (Decimal.shortest .up value).positional value.negative 0

/-- The text of a double: that of its numeral, or the name of what is no finite number. -/
def floatText (x : Float) : String :=
  match Binary64.ofFloat? x with
  | some value => String.ofList value.numeral.text
  | none => if x.isNaN then "NaN" else if x < 0 then "-inf" else "inf"

end BraceTemplate
