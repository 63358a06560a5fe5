import BraceTemplate.Json.Basic

/-!
# Tokens of JSON

Punctuation, literals, numerals and strings. Between them stand spaces, tabs, line feeds and
carriage returns, and nothing else.
-/

namespace BraceTemplate

namespace Json

/-- The tokens of a JSON text. -/
inductive Token where
  | openArray
  | closeArray
  | openObject
  | closeObject
  | comma
  | colon
  | null
  | bool (b : Bool)
  | number (numeral : Numeral)
  /-- A string with its text; `none` if it has an unpaired surrogate. -/
  | string (text : Option String)
  deriving DecidableEq, Repr

namespace Token

/-- The characters that may stand between tokens. -/
def isSpace (c : Char) : Bool :=
  c == ' ' || c == '\t' || c == '\n' || c == '\r'

/-- The value of a hexadecimal digit. -/
def hexValue? (c : Char) : Option Nat :=
  if '0' ≤ c ∧ c ≤ '9' then some (c.toNat - 48)
  else if 'a' ≤ c ∧ c ≤ 'f' then some (c.toNat - 87)
  else if 'A' ≤ c ∧ c ≤ 'F' then some (c.toNat - 55)
  else none

/-- Reads four hexadecimal digits. -/
def readUnit? : List Char → Option (Nat × List Char)
  | a :: b :: c :: d :: rest => do
    return (((← hexValue? a) * 16 + (← hexValue? b)) * 256 +
      ((← hexValue? c) * 16 + (← hexValue? d)), rest)
  | _ => none

/-- Whether a code unit is the first half of a pair. -/
def isHighSurrogate (unit : Nat) : Bool :=
  0xD800 ≤ unit && unit ≤ 0xDBFF

/-- Whether a code unit is the second half of a pair. -/
def isLowSurrogate (unit : Nat) : Bool :=
  0xDC00 ≤ unit && unit ≤ 0xDFFF

/-- Reads an escaped low surrogate if one is next. -/
def readLowSurrogate? : List Char → Option (Nat × List Char)
  | '\\' :: 'u' :: cs => (readUnit? cs).filter fun (unit, _) => isLowSurrogate unit
  | _ => none

/-- Reads the four digits of an escaped code unit. A high surrogate and an escaped low one behind it
are one code point; a surrogate that has no partner stands for itself. -/
def readCodePoint? (cs : List Char) : Option (Nat × List Char) := do
  let (unit, cs) ← readUnit? cs
  if isHighSurrogate unit then
    match readLowSurrogate? cs with
    | some (low, cs) => return (0x10000 + (unit - 0xD800) * 0x400 + (low - 0xDC00), cs)
    | none => return (unit, cs)
  else return (unit, cs)

/-- Reads what follows a backslash as a code point. -/
def readEscape? : List Char → Option (Nat × List Char)
  | '"' :: rest => some ('"'.toNat, rest)
  | '\\' :: rest => some ('\\'.toNat, rest)
  | '/' :: rest => some ('/'.toNat, rest)
  | 'b' :: rest => some (0x08, rest)
  | 'f' :: rest => some (0x0C, rest)
  | 'n' :: rest => some (0x0A, rest)
  | 'r' :: rest => some (0x0D, rest)
  | 't' :: rest => some (0x09, rest)
  | 'u' :: rest => readCodePoint? rest
  | _ => none

/-- Reading four hexadecimal digits takes up characters. -/
theorem length_readUnit?_lt {cs rest : List Char} {n : Nat} (h : readUnit? cs = some (n, rest)) :
    rest.length < cs.length := by
  unfold readUnit? at h
  split at h
  · simp only [Option.bind_eq_bind, Option.bind_eq_some_iff, Option.pure_def, Option.some.injEq,
      Prod.mk.injEq] at h
    obtain ⟨_, _, _, _, _, _, _, _, _, rfl⟩ := h
    simp only [List.length_cons]
    omega
  · simp at h

/-- Reading the second half of a surrogate pair takes up characters. -/
theorem length_readLowSurrogate?_lt {cs rest : List Char} {low : Nat}
    (h : readLowSurrogate? cs = some (low, rest)) : rest.length < cs.length := by
  unfold readLowSurrogate? at h
  split at h
  · have := length_readUnit?_lt (Option.filter_eq_some_iff.1 h).1
    simp only [List.length_cons]
    omega
  · simp at h

/-- Reading a code point in hexadecimal digits takes up characters. -/
theorem length_readCodePoint?_lt {cs rest : List Char} {point : Nat}
    (h : readCodePoint? cs = some (point, rest)) : rest.length < cs.length := by
  unfold readCodePoint? at h
  simp only [Option.bind_eq_bind, Option.bind_eq_some_iff] at h
  obtain ⟨⟨unit, after⟩, hunit, h⟩ := h
  have hshort := length_readUnit?_lt hunit
  split at h
  · split at h
    · next hlow =>
      simp only [Option.pure_def, Option.some.injEq, Prod.mk.injEq] at h
      obtain ⟨-, rfl⟩ := h
      exact Nat.lt_trans (length_readLowSurrogate?_lt hlow) hshort
    · cases h
      exact hshort
  · cases h
    exact hshort

/-- Reading an escape takes up characters. -/
theorem length_readEscape?_lt {cs rest : List Char} {point : Nat}
    (h : readEscape? cs = some (point, rest)) : rest.length < cs.length := by
  unfold readEscape? at h
  split at h
  case h_9 =>
    have := length_readCodePoint?_lt h
    simp only [List.length_cons]
    omega
  case h_10 => simp at h
  all_goals
    simp only [Option.some.injEq, Prod.mk.injEq] at h
    obtain ⟨-, rfl⟩ := h
    simp

/-- Reads the code points of a string up to its closing quote. Control characters have to be
escaped. -/
def readString? (cs : List Char) : Option (List Nat × List Char) :=
  match cs with
  | [] => none
  | c :: cs =>
    if c = '"' then some ([], cs)
    else if c = '\\' then
      match _ : readEscape? cs with
      | none => none
      | some (point, rest) => (readString? rest).map fun (points, rest) => (point :: points, rest)
    else if c.toNat < 32 then none
    else (readString? cs).map fun (points, rest) => (c.toNat :: points, rest)
termination_by cs.length
decreasing_by
  · have := length_readEscape?_lt (by assumption)
    simp only [List.length_cons]
    omega
  · simp

/-- The text of code points; `none` if a surrogate is among them. -/
def textOf? (points : List Nat) : Option String :=
  (points.mapM fun point : Nat => if point.isValidChar then some (Char.ofNat point) else none).map
    String.ofList

/-- Reading a string takes up characters. -/
theorem length_readString?_lt {cs rest : List Char} {points : List Nat}
    (h : readString? cs = some (points, rest)) : rest.length < cs.length := by
  fun_induction readString? cs generalizing points rest with
  | case1 => simp at h
  | case2 =>
    cases h
    simp
  | case3 => simp at h
  | case4 cs c after hescape _ ih =>
    obtain ⟨⟨inner, left⟩, hread, heq⟩ := Option.map_eq_some_iff.1 h
    cases heq
    have := ih hread
    have := length_readEscape?_lt hescape
    simp only [List.length_cons]
    omega
  | case5 => simp at h
  | case6 c cs hquote hslash hcontrol ih =>
    obtain ⟨⟨inner, left⟩, hread, heq⟩ := Option.map_eq_some_iff.1 h
    cases heq
    have := ih hread
    simp only [List.length_cons]
    omega

/-- Reads the digits behind a point if a point is next. At least one digit has to follow it. -/
def readFraction? : List Char → Option (List Digit × List Char)
  | '.' :: cs =>
    match Digit.span cs with
    | ([], _) => none
    | (digits, rest) => some (digits, rest)
  | cs => some ([], cs)

/-- Reads a numeral without its sign. It has no leading zeros. -/
def readUnsigned? (negative : Bool) (cs : List Char) : Option (Numeral × List Char) := do
  let (whole, cs) := Digit.span cs
  if whole.isEmpty || (whole.head? == some 0 && whole.length != 1) then none
  else
    let (fraction, cs) ← readFraction? cs
    let (exponent, cs) ← Numeral.readExponent? cs
    return (⟨negative, whole, fraction, exponent⟩, cs)

/-- Reads one token. -/
def read? : List Char → Option (Token × List Char)
  | '[' :: cs => some (openArray, cs)
  | ']' :: cs => some (closeArray, cs)
  | '\x7b' :: cs => some (openObject, cs)
  | '\x7d' :: cs => some (closeObject, cs)
  | ',' :: cs => some (comma, cs)
  | ':' :: cs => some (colon, cs)
  | 'n' :: 'u' :: 'l' :: 'l' :: cs => some (null, cs)
  | 't' :: 'r' :: 'u' :: 'e' :: cs => some (bool true, cs)
  | 'f' :: 'a' :: 'l' :: 's' :: 'e' :: cs => some (bool false, cs)
  | '"' :: cs => (readString? cs).map fun (points, rest) => (string (textOf? points), rest)
  | '-' :: cs => (readUnsigned? true cs).map fun (numeral, rest) => (number numeral, rest)
  | cs => (readUnsigned? false cs).map fun (numeral, rest) => (number numeral, rest)

/-- Reading a fraction gives no characters back. -/
theorem length_readFraction?_le {cs rest : List Char} {digits : List Digit}
    (h : readFraction? cs = some (digits, rest)) : rest.length ≤ cs.length := by
  unfold readFraction? at h
  split at h
  · next cs =>
    have := Digit.length_span_le cs
    split at h
    · simp at h
    · next hspan =>
      cases h
      simp only [hspan] at this
      simp only [List.length_cons]
      omega
  · cases h
    exact Nat.le_refl _

/-- Reading a numeral takes up characters. -/
theorem length_readUnsigned?_lt {negative : Bool} {cs rest : List Char} {numeral : Numeral}
    (h : readUnsigned? negative cs = some (numeral, rest)) : rest.length < cs.length := by
  unfold readUnsigned? at h
  have hspan := Digit.length_span cs
  generalize Digit.span cs = digits at h hspan
  obtain ⟨whole, after⟩ := digits
  simp only [Option.bind_eq_bind] at h
  split at h
  · simp at h
  rename_i hwhole
  simp only [Option.bind_eq_some_iff] at h
  obtain ⟨⟨fraction, afterFraction⟩, hfraction, ⟨exponent, left⟩, hexponent, heq⟩ := h
  cases heq
  have hfractionLength := length_readFraction?_le hfraction
  have hexponentLength := Numeral.length_readExponent?_le hexponent
  dsimp only at hspan hfractionLength hexponentLength
  cases whole with
  | nil => simp at hwhole
  | cons digit digits =>
    simp only [List.length_cons] at hspan
    show left.length < cs.length
    omega

/-- Reading a token takes up characters. -/
theorem length_read?_lt {cs rest : List Char} {token : Token}
    (h : read? cs = some (token, rest)) : rest.length < cs.length := by
  unfold read? at h
  split at h
  case h_10 =>
    obtain ⟨⟨text, left⟩, hread, heq⟩ := Option.map_eq_some_iff.1 h
    cases heq
    have := length_readString?_lt hread
    simp only [List.length_cons]
    omega
  case h_11 =>
    obtain ⟨⟨numeral, left⟩, hread, heq⟩ := Option.map_eq_some_iff.1 h
    cases heq
    have := length_readUnsigned?_lt hread
    simp only [List.length_cons]
    omega
  case h_12 =>
    obtain ⟨⟨numeral, left⟩, hread, heq⟩ := Option.map_eq_some_iff.1 h
    cases heq
    exact length_readUnsigned?_lt hread
  all_goals
    cases h
    simp only [List.length_cons]
    omega

/-- The tokens of a text without its leading spaces. `none` if something is no token. -/
def tokens? (cs : List Char) : Option (List Token) :=
  match cs with
  | [] => some []
  | c :: cs =>
    if isSpace c then tokens? cs
    else
      match _ : read? (c :: cs) with
      | none => none
      | some (token, rest) => (tokens? rest).map (token :: ·)
termination_by cs.length
decreasing_by
  · simp
  · exact length_read?_lt (by assumption)

end Token

end Json

end BraceTemplate
