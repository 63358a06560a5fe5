/-!
# Doubles as scaled integers

A finite double is a sign, a natural significand and a power of two. Rounding, truncation and the
remainder are stated on that form, where they are exact integer arithmetic.
-/

namespace BraceTemplate

/-- The power of natural numbers is the one of the core library, whatever else is in scope. -/
@[default_instance 20000]
instance natPow : Pow Nat Nat := instPowNat

/-- The exact value of a finite double: `significand * 2 ^ exponent`, negated if `negative`. -/
structure Binary64 where
  negative : Bool
  significand : Nat
  exponent : Int
  deriving DecidableEq, Repr

namespace Binary64

/-- The exponent of the subnormal doubles, and the smallest one there is. -/
def minExponent : Int := -1074

/-- The exact value of a double; `none` for NaN and the infinities. -/
def ofFloat? (x : Float) : Option Binary64 :=
  let bits := x.toBits.toNat
  let negative := bits / 2 ^ 63 = 1
  let field : Nat := bits / 2 ^ 52 % 2 ^ 11
  let fraction := bits % 2 ^ 52
  if field = 2047 then none
  else if field = 0 then some ⟨negative, fraction, minExponent⟩
  else some ⟨negative, 2 ^ 52 + fraction, (field : Int) - 1075⟩

/-- The natural number nearest to `num / den`; a half goes to the even neighbour. -/
def roundToEven (num den : Nat) : Nat :=
  let floor := num / den
  let rest := num % den
  if 2 * rest > den || (2 * rest == den && floor % 2 == 1) then floor + 1 else floor

/-- The quotient of `num / den` by `2 ^ exponent`, as numerator and denominator. -/
def scaleDown (num den : Nat) (exponent : Int) : Nat × Nat :=
  if exponent < 0 then (num * 2 ^ exponent.natAbs, den) else (num, den * 2 ^ exponent.natAbs)

/-- The exponent at which `num / den` has a significand of 53 bits, but never less than the
subnormal one. -/
def fittingExponent (num den : Nat) : Int :=
  let guess : Int := (num.log2 : Int) - den.log2 - 53
  let (scaledNum, scaledDen) := scaleDown num den guess
  max minExponent (if scaledNum / scaledDen < 2 ^ 53 then guess else guess + 1)

/-- The double nearest to `num / den`, negated if `negative`. A tie goes to the even significand,
and what is too large for a finite double goes to infinity. -/
def nearest (negative : Bool) (num den : Nat) : Float :=
  let magnitude :=
    if num = 0 then 0
    else
      let exponent := fittingExponent num den
      let (scaledNum, scaledDen) := scaleDown num den exponent
      min ((exponent - minExponent).toNat * 2 ^ 52 + roundToEven scaledNum scaledDen)
        (2047 * 2 ^ 52)
  Float.ofBits (UInt64.ofNat (magnitude + if negative then 2 ^ 63 else 0))

/-- The double nearest to a value. -/
def toFloat (value : Binary64) : Float :=
  let (num, den) := scaleDown value.significand 1 (-value.exponent)
  nearest value.negative num den

/-- The double nearest to an integer. -/
def ofInt (n : Int) : Float :=
  nearest (n < 0) n.natAbs 1

/-- The value without its fraction. -/
def trunc (value : Binary64) : Binary64 :=
  if value.exponent < 0 then
    ⟨value.negative, value.significand / 2 ^ value.exponent.natAbs, 0⟩
  else value

/-- What is left of `a` when the largest multiple of `b` towards zero is taken away. It has the sign
of `a`. -/
def remainder (a b : Binary64) : Binary64 :=
  let exponent := min a.exponent b.exponent
  let left := a.significand * 2 ^ (a.exponent - exponent).natAbs
  let right := b.significand * 2 ^ (b.exponent - exponent).natAbs
  ⟨a.negative, left % right, exponent⟩

end Binary64

/-- A double without its fraction. NaN and the infinities stay what they are. -/
def truncate (x : Float) : Float :=
  match Binary64.ofFloat? x with
  | some value => value.trunc.toFloat
  | none => x

/-- The remainder of a division that truncates. It has the sign of the dividend; an infinite divisor
leaves the dividend as it is, and an infinite dividend has no remainder. -/
def remainder (x y : Float) : Float :=
  match Binary64.ofFloat? x, Binary64.ofFloat? y with
  | some a, some b => if b.significand = 0 then 0.0 / 0.0 else (a.remainder b).toFloat
  | some _, none => if y.isNaN then y else x
  | none, _ => 0.0 / 0.0

end BraceTemplate
