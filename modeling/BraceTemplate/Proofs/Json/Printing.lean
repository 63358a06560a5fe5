import Mathlib.Data.Bool.AllAny
import BraceTemplate.Json.Token
import BraceTemplate.Proofs.Decimal.Digits

/-!
# Reading back what is printed, token by token

Numerals and strings are read back from their printed form in front of any text that cannot be taken
for a part of them. A numeral can be read back exactly if it is well-formed: it has a digit before
the point, no leading zeros, and no exponent without digits.
-/

namespace BraceTemplate

/-! ### Numerals -/

namespace Numeral

/-- What JSON asks of a numeral: there is a digit before the point, a zero only stands there alone,
and an exponent has digits. -/
structure WellFormed (numeral : Numeral) : Prop where
  whole_ne_nil : numeral.whole ≠ []
  no_leading_zero : numeral.whole.head? = some 0 → numeral.whole.length = 1
  exponent_ne_nil : ∀ exponent, numeral.exponent = some exponent → exponent.digits ≠ []

/-- A text that cannot be taken for a part of a numeral in front of it. -/
def Ends (cs : List Char) : Prop :=
  ∀ c ∈ cs.head?, c ∈ [',', ']', '\x7d']

/-- Where a numeral ends no digit follows. -/
theorem Ends.noDigit {cs : List Char} (h : Ends cs) : NoDigit cs := by
  intro c hc
  have hall : ∀ c ∈ [',', ']', '\x7d'], Digit.ofChar? c = none :=
    List.all_iff_forall_prop.1 (by decide)
  exact hall c (h c hc)

/-- The text of an optional exponent. -/
def exponentText : Option Exponent → List Char
  | none => []
  | some exponent =>
    'e' :: (if exponent.negative then '-' else '+') :: exponent.digits.map Digit.toChar

/-- The point of a numeral and the digits behind it, unless there are none. -/
def fractionText (fraction : List Digit) : List Char :=
  if fraction.isEmpty then [] else '.' :: fraction.map Digit.toChar

/-- The text of a numeral without its sign. -/
def unsignedText (numeral : Numeral) : List Char :=
  numeral.whole.map Digit.toChar ++ (fractionText numeral.fraction ++ exponentText numeral.exponent)

/-- A numeral is its sign in front of the text of its size. -/
theorem text_eq (numeral : Numeral) :
    numeral.text = (if numeral.negative then ['-'] else []) ++ numeral.unsignedText := by
  obtain ⟨negative, whole, fraction, exponent⟩ := numeral
  cases exponent <;> simp [text, unsignedText, fractionText, exponentText]

/-- An exponent does not begin with a digit. -/
theorem noDigit_exponentText (exponent : Option Exponent) {rest : List Char} (hrest : Ends rest) :
    NoDigit (exponentText exponent ++ rest) := by
  cases exponent with
  | none => exact hrest.noDigit
  | some exponent =>
    intro c hc
    obtain rfl : 'e' = c := by simpa [exponentText] using hc
    decide

/-- The text of an exponent is read back if the exponent has digits. -/
theorem readExponent?_text (exponent : Option Exponent) {rest : List Char} (hrest : Ends rest) :
    readExponent? (exponentText exponent ++ rest) =
      if ∀ e, exponent = some e → e.digits ≠ [] then some (exponent, rest) else none := by
  cases exponent with
  | none =>
    rw [if_pos (by simp)]
    cases rest with
    | nil => rfl
    | cons c cs =>
      have hmem := hrest c (by simp)
      simp only [List.mem_cons, List.not_mem_nil, or_false] at hmem
      rcases hmem with rfl | rfl | rfl <;> rfl
  | some exponent =>
    obtain ⟨negative, digits⟩ := exponent
    have hspan := Digit.span_map_toChar digits hrest.noDigit
    cases digits with
    | nil =>
      rw [if_neg (by simp)]
      cases negative <;> simp_all [exponentText, readExponent?, readPower?]
    | cons digit digits =>
      rw [if_pos (by simp)]
      cases negative <;>
        simp only [exponentText, List.cons_append, readExponent?, readPower?, hspan, if_true,
          Bool.false_eq_true, if_false] <;>
        rfl

/-- The text of a fraction is read back up to where its digits end. -/
theorem readFraction?_text (fraction : List Digit) {rest : List Char} (hrest : NoDigit rest)
    (hpoint : ∀ c ∈ rest.head?, c ≠ '.') :
    Json.Token.readFraction? (fractionText fraction ++ rest) = some (fraction, rest) := by
  cases fraction with
  | nil =>
    cases rest with
    | nil => rfl
    | cons c cs =>
      have hc : c ≠ '.' := hpoint c (by simp)
      simp only [fractionText, List.isEmpty_nil, if_true, List.nil_append,
        Json.Token.readFraction?]
      split
      · next heq => exact absurd (List.cons.inj heq).1 hc
      · rfl
  | cons digit digits =>
    have hspan := Digit.span_map_toChar (digit :: digits) hrest
    simp only [fractionText, List.isEmpty_cons, Bool.false_eq_true, if_false, List.cons_append,
      Json.Token.readFraction?, hspan]

/-- An exponent does not begin with a point. -/
theorem head_exponentText_ne_point (exponent : Option Exponent) {rest : List Char}
    (hrest : Ends rest) : ∀ c ∈ (exponentText exponent ++ rest).head?, c ≠ '.' := by
  intro c hc
  cases exponent with
  | none =>
    have hall : ∀ c ∈ [',', ']', '\x7d'], c ≠ '.' := List.all_iff_forall_prop.1 (by decide)
    exact hall c (hrest c hc)
  | some exponent =>
    obtain rfl : 'e' = c := by simpa [exponentText] using hc
    decide

/-- A fraction does not begin with a digit. -/
theorem noDigit_fractionText (fraction : List Digit) {rest : List Char} (hrest : NoDigit rest) :
    NoDigit (fractionText fraction ++ rest) := by
  cases fraction with
  | nil => exact hrest
  | cons digit digits =>
    intro c hc
    obtain rfl : '.' = c := by simpa [fractionText] using hc
    decide

/-- Reading the text of a numeral without its sign comes down to the checks on its digits. -/
theorem readUnsigned?_text (numeral : Numeral) {rest : List Char} (hrest : Ends rest) :
    Json.Token.readUnsigned? numeral.negative (numeral.unsignedText ++ rest) =
      if numeral.whole.isEmpty || (numeral.whole.head? == some 0 && numeral.whole.length != 1) then
        none
      else if ∀ e, numeral.exponent = some e → e.digits ≠ [] then some (numeral, rest)
      else none := by
  have hexponent := noDigit_exponentText numeral.exponent hrest
  have hspan :=
    Digit.span_map_toChar numeral.whole (noDigit_fractionText numeral.fraction hexponent)
  have hfraction := readFraction?_text numeral.fraction hexponent
    (head_exponentText_ne_point numeral.exponent hrest)
  simp only [unsignedText, List.append_assoc, Json.Token.readUnsigned?, hspan]
  split
  · rfl
  · simp only [hfraction, Option.bind_eq_bind, Option.bind_some,
      readExponent?_text numeral.exponent hrest]
    split <;> rfl

/-- A well-formed numeral is read back from its text, sign aside. -/
theorem WellFormed.readUnsigned? {numeral : Numeral} (h : numeral.WellFormed) {rest : List Char}
    (hrest : Ends rest) :
    Json.Token.readUnsigned? numeral.negative (numeral.unsignedText ++ rest) =
      some (numeral, rest) := by
  rw [readUnsigned?_text numeral hrest, if_neg, if_pos h.exponent_ne_nil]
  simp only [Bool.or_eq_true, List.isEmpty_iff, Bool.and_eq_true, beq_iff_eq, bne_iff_ne, ne_eq,
    not_or, not_and, Decidable.not_not]
  exact ⟨h.whole_ne_nil, h.no_leading_zero⟩

/-- A numeral is well-formed if anything at all is read from its text. -/
theorem wellFormed_of_readUnsigned? {numeral : Numeral}
    (h : (Json.Token.readUnsigned? numeral.negative numeral.unsignedText).isSome) :
    numeral.WellFormed := by
  have hread := readUnsigned?_text numeral (show Ends [] by simp [Ends])
  rw [List.append_nil] at hread
  rw [hread] at h
  split at h
  · simp at h
  next hwhole =>
    split at h
    · next hexponent =>
      simp only [Bool.or_eq_true, List.isEmpty_iff, Bool.and_eq_true, beq_iff_eq, bne_iff_ne, ne_eq,
        not_or, not_and, Decidable.not_not] at hwhole
      exact ⟨hwhole.1, hwhole.2, hexponent⟩
    · simp at h

/-- The text of a numeral without its sign begins with a digit, a point or an exponent. -/
theorem head_unsignedText (numeral : Numeral) : ∀ c ∈ numeral.unsignedText.head?,
    Json.Token.isSpace c = false ∧
      c ∉ ['[', ']', '\x7b', '\x7d', ',', ':', 'n', 't', 'f', '"', '-'] := by
  intro c hc
  obtain ⟨negative, whole, fraction, exponent⟩ := numeral
  cases whole with
  | cons digit digits =>
    obtain rfl : digit.toChar = c := by simpa [unsignedText] using hc
    have hall : ∀ digit : Digit, Json.Token.isSpace digit.toChar = false ∧
        digit.toChar ∉ ['[', ']', '\x7b', '\x7d', ',', ':', 'n', 't', 'f', '"', '-'] := by decide
    exact hall digit
  | nil =>
    cases fraction with
    | cons digit digits =>
      obtain rfl : '.' = c := by simpa [unsignedText, fractionText] using hc
      decide
    | nil =>
      cases exponent with
      | none => simp [unsignedText, fractionText, exponentText] at hc
      | some exponent =>
        obtain rfl : 'e' = c := by simpa [unsignedText, fractionText, exponentText] using hc
        decide

/-- The numeral of a natural number is well-formed. -/
theorem wellFormed_ofNat (n : Nat) : (ofNat n).WellFormed :=
  ⟨Digit.ofNat_ne_nil n, Digit.length_ofNat_of_head_zero, by simp [ofNat]⟩

end Numeral

namespace Json

namespace Token

/-- A text that begins neither like another token nor with a sign can only be read as a numeral. -/
theorem read?_unsigned {c : Char} (cs : List Char)
    (h : c ∉ ['[', ']', '\x7b', '\x7d', ',', ':', 'n', 't', 'f', '"', '-']) :
    read? (c :: cs) =
      (readUnsigned? false (c :: cs)).map fun (numeral, rest) => (number numeral, rest) := by
  simp only [List.mem_cons, List.not_mem_nil, or_false, not_or] at h
  rw [read?.eq_def]
  split <;> simp_all

/-- The text of a well-formed numeral is one token. -/
theorem read?_numeral {numeral : Numeral} (h : numeral.WellFormed) {rest : List Char}
    (hrest : Numeral.Ends rest) : read? (numeral.text ++ rest) = some (number numeral, rest) := by
  have hread := h.readUnsigned? hrest
  rw [Numeral.text_eq]
  cases hnegative : numeral.negative with
  | true =>
    rw [hnegative] at hread
    simp only [if_true, List.cons_append, List.nil_append, read?, hread, Option.map_some]
  | false =>
    rw [hnegative] at hread
    simp only [Bool.false_eq_true, if_false, List.nil_append]
    obtain ⟨digit, digits, hwhole⟩ := List.exists_cons_of_ne_nil h.whole_ne_nil
    simp only [Numeral.unsignedText, hwhole, List.map_cons, List.cons_append] at hread ⊢
    have hall : ∀ digit : Digit, digit.toChar ∉
        ['[', ']', '\x7b', '\x7d', ',', ':', 'n', 't', 'f', '"', '-'] := by decide
    rw [read?_unsigned _ (hall digit), hread, Option.map_some]

/-! ### Strings -/

/-- A hexadecimal digit has its value. -/
theorem hexValue?_hexDigit {n : Nat} (h : n < 16) : hexValue? (hexDigit n) = some n := by
  have hall : ∀ n < 16, hexValue? (hexDigit n) = some n := by decide
  exact hall n h

/-- A quote ends a string. -/
theorem readString?_quote (rest : List Char) : readString? ('"' :: rest) = some ([], rest) := by
  rw [readString?, if_pos rfl]

/-- An escape in a string is read as one code point. -/
theorem readString?_of_readEscape? {cs rest : List Char} {point : Nat}
    (h : readEscape? cs = some (point, rest)) :
    readString? ('\\' :: cs) =
      (readString? rest).map fun (points, left) => (point :: points, left) := by
  rw [readString?, if_neg (by decide), if_pos rfl]
  split
  · next hnone => simp [h] at hnone
  · next hsome =>
    rw [h] at hsome
    cases hsome
    rfl

/-- A character that needs no escape is read as itself. -/
theorem readString?_of_plain {c : Char} (rest : List Char) (hquote : c ≠ '"') (hslash : c ≠ '\\')
    (hcontrol : ¬c.toNat < 32) :
    readString? (c :: rest) =
      (readString? rest).map fun (points, left) => (c.toNat :: points, left) := by
  rw [readString?, if_neg hquote, if_neg hslash, if_neg hcontrol]

/-- A control character is read back from its four hexadecimal digits. -/
theorem readEscape?_control {n : Nat} (h : n < 32) (rest : List Char) :
    readEscape? ('u' :: '0' :: '0' :: hexDigit (n / 16) :: hexDigit (n % 16) :: rest) =
      some (n, rest) := by
  have hzero : hexValue? '0' = some 0 := by decide
  have hhigh := hexValue?_hexDigit (show n / 16 < 16 by omega)
  have hlow := hexValue?_hexDigit (show n % 16 < 16 by omega)
  have hunit : readUnit? ('0' :: '0' :: hexDigit (n / 16) :: hexDigit (n % 16) :: rest) =
      some (n, rest) := by
    simp only [readUnit?, hzero, hhigh, hlow, Option.bind_eq_bind, Option.bind_some,
      Option.pure_def, Option.some.injEq, Prod.mk.injEq, and_true]
    omega
  have hplain : isHighSurrogate n = false := by
    simp only [isHighSurrogate, Bool.and_eq_false_iff, decide_eq_false_iff_not]
    omega
  simp [readEscape?, readCodePoint?, hunit, hplain]

/-- Every character is read back from the way it is written inside a string. -/
theorem readString?_escape (c : Char) (rest : List Char) :
    readString? (escape c ++ rest) =
      (readString? rest).map fun (points, left) => (c.toNat :: points, left) := by
  unfold escape
  split
  · next h => subst h; exact readString?_of_readEscape? rfl
  split
  · next h => subst h; exact readString?_of_readEscape? rfl
  split
  · next h => subst h; exact readString?_of_readEscape? rfl
  split
  · next h => subst h; exact readString?_of_readEscape? rfl
  split
  · next h => subst h; exact readString?_of_readEscape? rfl
  split
  · next h => subst h; exact readString?_of_readEscape? rfl
  split
  · next h => subst h; exact readString?_of_readEscape? rfl
  split
  · next hcontrol => exact readString?_of_readEscape? (readEscape?_control hcontrol rest)
  · next hquote hslash _ _ _ _ _ hcontrol =>
    exact readString?_of_plain rest hquote hslash hcontrol

/-- Escaped characters up to a quote are read as the code points of the characters. -/
theorem readString?_flatMap_escape (cs rest : List Char) :
    readString? (cs.flatMap escape ++ '"' :: rest) = some (cs.map Char.toNat, rest) := by
  induction cs with
  | nil => exact readString?_quote rest
  | cons c cs ih =>
    rw [List.flatMap_cons, List.append_assoc, readString?_escape, ih]
    rfl

/-- The code points of a text make up the text again. -/
theorem textOf?_map_toNat (cs : List Char) :
    textOf? (cs.map Char.toNat) = some (String.ofList cs) := by
  have hchar : ∀ c : Char, (if c.toNat.isValidChar then some (Char.ofNat c.toNat) else none) =
      some c := by
    intro c
    rw [if_pos (show c.toNat.isValidChar from c.valid), Char.ofNat_toNat]
  have hall : ((cs.map Char.toNat).mapM fun point : Nat =>
      if point.isValidChar then some (Char.ofNat point) else none) = some cs := by
    induction cs with
    | nil => rfl
    | cons c cs ih =>
      rw [List.map_cons, List.mapM_cons, hchar, ih]
      rfl
  rw [textOf?, hall]
  rfl

/-- The quoted form of a text is one token. -/
theorem read?_quote (text : String) (rest : List Char) :
    read? (quote text ++ rest) = some (string (some text), rest) := by
  simp only [quote, List.cons_append, List.append_assoc, List.nil_append, read?,
    readString?_flatMap_escape, Option.map_some, textOf?_map_toNat, String.ofList_toList]

end Token

end Json

end BraceTemplate
