import Mathlib.Data.List.Induction
import BraceTemplate.Decimal.Numeral

/-!
# Decimal digits of natural numbers

The digits of a number have that number as their value, and they have no leading zero: any digits of
that value are these with zeros in front of them. A run of digits is read back from its characters
in front of anything but a further digit.
-/

namespace BraceTemplate

/-- A text that does not go on with a digit. -/
def NoDigit (cs : List Char) : Prop :=
  ∀ c ∈ cs.head?, Digit.ofChar? c = none

namespace Digit

/-- One more digit multiplies the value by ten and adds to it. -/
theorem value_append_singleton (digits : List Digit) (digit : Digit) :
    value (digits ++ [digit]) = 10 * value digits + digit.val := by
  simp [value, List.foldl_append]

/-- The digits of a number have that number as their value. -/
@[simp] theorem value_ofNat (n : Nat) : value (ofNat n) = n := by
  induction n using Nat.strongRecOn with
  | ind n ih =>
    rw [ofNat]
    split
    · simp only [value, List.foldl_cons, List.foldl_nil, Fin.val_ofNat]
      omega
    · rw [value_append_singleton, ih (n / 10) (by omega), Fin.val_ofNat]
      omega

/-- Every number has a digit. -/
theorem ofNat_ne_nil (n : Nat) : ofNat n ≠ [] := by
  rw [ofNat]
  split <;> simp

/-- Zero is the only number whose digits begin with a zero. -/
theorem length_ofNat_of_head_zero {n : Nat} (h : (ofNat n).head? = some 0) :
    (ofNat n).length = 1 := by
  induction n using Nat.strongRecOn with
  | ind n ih =>
    rw [ofNat] at h ⊢
    split
    · rfl
    · next hlarge =>
      obtain ⟨first, others, hfirst⟩ := List.exists_cons_of_ne_nil (ofNat_ne_nil (n / 10))
      have hhead : (ofNat (n / 10)).head? = some 0 := by simpa [if_neg hlarge, hfirst] using h
      have hlength := ih (n / 10) (by omega) hhead
      obtain ⟨digit, hdigit⟩ := List.length_eq_one_iff.mp hlength
      have hzero : digit = 0 := by simpa [hdigit] using hhead
      have hvalue := value_ofNat (n / 10)
      rw [hdigit, hzero] at hvalue
      simp only [value, List.foldl_cons, List.foldl_nil, Fin.val_zero] at hvalue
      omega

/-- Leading zeros do not change the value. -/
theorem value_replicate_zero_append (zeros : Nat) (digits : List Digit) :
    value (List.replicate zeros 0 ++ digits) = value digits := by
  induction zeros with
  | zero => rfl
  | succ zeros ih =>
    rw [← ih, List.replicate_succ, List.cons_append, value, List.foldl_cons]
    rfl

/-- Digits are those of their value behind leading zeros. -/
theorem exists_eq_replicate_append_ofNat {digits : List Digit} (h : digits ≠ []) :
    ∃ zeros, digits = List.replicate zeros 0 ++ ofNat (value digits) := by
  induction digits using List.reverseRecOn with
  | nil => exact absurd rfl h
  | append_singleton digits digit ih =>
    have hlast : Fin.ofNat 10 (10 * value digits + digit.val) = digit := by
      apply Fin.ext
      rw [Fin.val_ofNat]
      omega
    rw [value_append_singleton, ofNat, hlast]
    by_cases hempty : digits = []
    · subst hempty
      have hsmall : 10 * value [] + digit.val < 10 := by
        rw [value, List.foldl_nil]
        omega
      exact ⟨0, by rw [if_pos hsmall]; rfl⟩
    · obtain ⟨zeros, hzeros⟩ := ih hempty
      split
      · -- The value of the digits in front is zero, so these are zeros themselves.
        have hzero : value digits = 0 := by omega
        have hdigits : ofNat 0 = [0] := by rw [ofNat, if_pos (by omega)]; rfl
        rw [hzero, hdigits, ← List.replicate_succ'] at hzeros
        exact ⟨zeros + 1, by rw [hzeros]⟩
      · have hfront : (10 * value digits + digit.val) / 10 = value digits := by omega
        exact ⟨zeros, by rw [hfront, ← List.append_assoc, ← hzeros]⟩

/-- The character of a digit is the one that the core library prints. -/
theorem toChar_eq_digitChar (digit : Digit) : digit.toChar = Nat.digitChar digit.val := by
  revert digit
  decide

/-- The characters of the digits of a number are its decimal text. -/
theorem map_toChar_ofNat (n : Nat) : (ofNat n).map toChar = n.repr.toList := by
  rw [Nat.toList_repr]
  induction n using Nat.strongRecOn with
  | ind n ih =>
    rw [ofNat, Nat.toDigits_eq_if (by omega)]
    split
    · next hsmall => simp [toChar_eq_digitChar, Nat.mod_eq_of_lt hsmall]
    · rw [List.map_append, ih (n / 10) (by omega)]
      simp [toChar_eq_digitChar]

/-- A character that is read as a digit is the character of that digit. -/
theorem toChar_of_ofChar? {c : Char} {digit : Digit} (h : ofChar? c = some digit) :
    digit.toChar = c := by
  unfold ofChar? at h
  split at h
  · next hrange =>
    cases h
    have hlow : 48 ≤ c.toNat := hrange.1
    rw [toChar, Nat.add_sub_cancel' hlow, Char.ofNat_toNat]
  · simp at h

/-- Digits that are read are the beginning of the text. -/
theorem eq_of_span {cs rest : List Char} {digits : List Digit} (h : span cs = (digits, rest)) :
    cs = digits.map toChar ++ rest := by
  induction cs generalizing digits with
  | nil =>
    cases h
    rfl
  | cons c cs ih =>
    unfold span at h
    split at h
    · next digit hdigit =>
      cases h
      rw [List.map_cons, List.cons_append, toChar_of_ofChar? hdigit, ← ih rfl]
    · cases h
      rfl

/-- Digits are read up to where none follows. -/
theorem span_map_toChar (digits : List Digit) {rest : List Char} (hrest : NoDigit rest) :
    span (digits.map toChar ++ rest) = (digits, rest) := by
  induction digits with
  | nil =>
    cases rest with
    | nil => rfl
    | cons c cs =>
      have hc : ofChar? c = none := hrest c (by simp)
      simp [span, hc]
  | cons digit digits ih =>
    simp only [List.map_cons, List.cons_append, span, ofChar?_toChar, ih]

end Digit

end BraceTemplate
