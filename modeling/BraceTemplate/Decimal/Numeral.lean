import BraceTemplate.Decimal.Binary64

/-!
# Decimal numerals

A numeral is what is written: a sign, the digits before and behind the point, and an exponent. Its
text and the double nearest to its value are functions of those parts.
-/

namespace BraceTemplate

/-- A decimal digit. -/
abbrev Digit := Fin 10

namespace Digit

/-- There is a digit zero. -/
instance neZero_ten : @NeZero Nat Zero.ofOfNat0 10 := ⟨by decide⟩

/-- The digit that a character stands for. -/
def ofChar? (c : Char) : Option Digit :=
  if h : '0' ≤ c ∧ c ≤ '9' then
    some ⟨c.toNat - 48, by
      have hlow : 48 ≤ c.toNat := h.1
      have hhigh : c.toNat ≤ 57 := h.2
      omega⟩
  else none

/-- The character of a digit. -/
def toChar (digit : Digit) : Char :=
  Char.ofNat (48 + digit.val)

/-- The number that a list of digits stands for. -/
def value (digits : List Digit) : Nat :=
  digits.foldl (fun value digit => 10 * value + digit.val) 0

/-- The digits of a number without leading zeros. Zero has one digit. -/
def ofNat (n : Nat) : List Digit :=
  if n < 10 then [Fin.ofNat 10 n] else ofNat (n / 10) ++ [Fin.ofNat 10 n]
termination_by n

/-- The longest run of digits in front of a text, and the rest of the text. -/
def span : List Char → List Digit × List Char
  | [] => ([], [])
  | c :: cs =>
    match ofChar? c with
    | some digit =>
      let (digits, rest) := span cs
      (digit :: digits, rest)
    | none => ([], c :: cs)

/-- The digits at the beginning of a text and what is behind them make up the text. -/
theorem length_span (cs : List Char) :
    (span cs).1.length + (span cs).2.length = cs.length := by
  induction cs with
  | nil => simp [span]
  | cons c cs ih =>
    unfold span
    split
    · simp only [List.length_cons]
      omega
    · simp

/-- Behind the digits no more is left than there was. -/
theorem length_span_le (cs : List Char) : (span cs).2.length ≤ cs.length := by
  have := length_span cs
  omega

/-- The character of a digit is read as the digit. -/
theorem ofChar?_toChar (digit : Digit) : ofChar? digit.toChar = some digit := by
  revert digit
  decide

end Digit

/-- The exponent of a numeral: its sign and its digits. -/
structure Exponent where
  negative : Bool
  digits : List Digit
  deriving DecidableEq, Repr

/-- The power of ten that an exponent stands for. -/
def Exponent.power (exponent : Exponent) : Int :=
  if exponent.negative then -(Digit.value exponent.digits) else Digit.value exponent.digits

/-- A decimal numeral as it is written. -/
structure Numeral where
  negative : Bool
  whole : List Digit
  fraction : List Digit
  exponent : Option Exponent
  deriving DecidableEq, Repr

namespace Numeral

/-- The numeral of a natural number. -/
def ofNat (n : Nat) : Numeral :=
  ⟨false, Digit.ofNat n, [], none⟩

/-- The text of a numeral. The point is left out when no digit follows it; the sign of an exponent
is always written. -/
def text (numeral : Numeral) : List Char :=
  (if numeral.negative then ['-'] else []) ++ numeral.whole.map Digit.toChar ++
    (if numeral.fraction.isEmpty then [] else '.' :: numeral.fraction.map Digit.toChar) ++
    match numeral.exponent with
    | none => []
    | some exponent =>
      'e' :: (if exponent.negative then '-' else '+') :: exponent.digits.map Digit.toChar

/-- Reads the exponent behind its mark: an optional sign and at least one digit. -/
def readPower? (cs : List Char) : Option (Exponent × List Char) :=
  let (negative, cs) :=
    match cs with
    | '-' :: cs => (true, cs)
    | '+' :: cs => (false, cs)
    | cs => (false, cs)
  match Digit.span cs with
  | ([], _) => none
  | (digits, rest) => some (⟨negative, digits⟩, rest)

/-- Reads an exponent if its mark is next. `none` means that the mark has no digits behind it. -/
def readExponent? : List Char → Option (Option Exponent × List Char)
  | 'e' :: cs => (readPower? cs).map fun (exponent, rest) => (some exponent, rest)
  | 'E' :: cs => (readPower? cs).map fun (exponent, rest) => (some exponent, rest)
  | cs => some (none, cs)

/-- Reading an exponent gives no characters back. -/
theorem length_readPower?_le {cs rest : List Char} {exponent : Exponent}
    (h : readPower? cs = some (exponent, rest)) : rest.length ≤ cs.length := by
  unfold readPower? at h
  split at h
  next negative after heq =>
    have hafter : after.length ≤ cs.length := by
      split at heq <;> cases heq <;> simp
    have := Digit.length_span_le after
    split at h
    · simp at h
    · next hspan =>
      cases h
      rw [hspan] at this
      simp only at this
      omega

/-- Reading an optional exponent gives no characters back. -/
theorem length_readExponent?_le {cs rest : List Char} {exponent : Option Exponent}
    (h : readExponent? cs = some (exponent, rest)) : rest.length ≤ cs.length := by
  unfold readExponent? at h
  split at h
  case h_3 =>
    cases h
    exact Nat.le_refl _
  all_goals
    obtain ⟨⟨power, left⟩, hread, heq⟩ := Option.map_eq_some_iff.1 h
    cases heq
    have := length_readPower?_le hread
    simp only [List.length_cons]
    omega

/-- Reads a whole text as a numeral: an optional sign, digits, an optional point that digits may
follow, and an optional exponent. -/
def read? (cs : List Char) : Option Numeral := do
  let (negative, cs) :=
    match cs with
    | '-' :: cs => (true, cs)
    | '+' :: cs => (false, cs)
    | cs => (false, cs)
  let (whole, cs) := Digit.span cs
  guard (!whole.isEmpty)
  let (fraction, cs) :=
    match cs with
    | '.' :: cs => Digit.span cs
    | cs => ([], cs)
  match ← readExponent? cs with
  | (exponent, []) => return ⟨negative, whole, fraction, exponent⟩
  | _ => none

/-- The double nearest to the value of a numeral. Powers of ten so far out that the result is zero
or infinite are not computed. -/
def toFloat (numeral : Numeral) : Float :=
  let coefficient := Digit.value (numeral.whole ++ numeral.fraction)
  let power := (numeral.exponent.map Exponent.power).getD 0 - numeral.fraction.length
  let places := power + (Digit.ofNat coefficient).length
  if coefficient = 0 || places < -400 then Binary64.nearest numeral.negative 0 1
  else if places > 400 then Binary64.nearest numeral.negative (2 ^ 1024) 1
  else if power < 0 then Binary64.nearest numeral.negative coefficient (10 ^ power.natAbs)
  else Binary64.nearest numeral.negative (coefficient * 10 ^ power.natAbs) 1

end Numeral

end BraceTemplate
