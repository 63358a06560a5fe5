import Mathlib
import BraceTemplate.Value.Compare

/-!
# The order of doubles

Two doubles are smaller, equal, greater, or one of them is NaN and they are not ordered at all.
Which of it is the case is read off the parts of the doubles, so that it turns around when the two
are exchanged. A double that is the nearest one to a value is never NaN.
-/

namespace BraceTemplate

open Float.Model

/-! ### Comparing -/

/-- How two doubles compare by sign, exponent and significand. -/
def compareParts (x y : Float) : Option Ordering :=
  x.toModel.unpack.compare y.toModel.unpack

section Parts

variable (a b : UnpackedFloat)

/-- To exchange two doubles exchanges their order. -/
theorem compare_swap_unpacked : b.compare a = (a.compare b).map Ordering.swap := by
  cases a with
  | notANumber => cases b <;> rfl
  | infinity s =>
    cases b with
    | infinity t => cases s <;> cases t <;> rfl
    | notANumber => rfl
    | zero t => cases s <;> rfl
    | finite t m e hm => cases s <;> rfl
  | zero s =>
    cases b with
    | infinity t => cases t <;> rfl
    | notANumber => rfl
    | zero t => rfl
    | finite t m e hm => cases t <;> rfl
  | finite s m e hm =>
    cases b with
    | infinity t => cases t <;> rfl
    | notANumber => rfl
    | zero t => cases s <;> rfl
    | finite t n f hn =>
      have hexponent : compare f e = (compare e f).swap := Std.OrientedCmp.eq_swap
      have hsignificand : compare n m = (compare m n).swap := Std.OrientedCmp.eq_swap
      cases s <;> cases t <;>
        simp [UnpackedFloat.compare, hexponent, hsignificand, Ordering.swap_then]

/-- NaN is what nothing compares with. -/
theorem compare_eq_none_iff_unpacked : a.compare b = none ↔ a.isNaN = true ∨ b.isNaN = true := by
  cases a with
  | notANumber => cases b <;> simp [UnpackedFloat.compare, UnpackedFloat.isNaN]
  | infinity s => cases b <;> cases s <;> simp [UnpackedFloat.compare, UnpackedFloat.isNaN]
  | zero s =>
    cases b with
    | finite t => cases t <;> simp [UnpackedFloat.compare, UnpackedFloat.isNaN]
    | infinity t => cases t <;> simp [UnpackedFloat.compare, UnpackedFloat.isNaN]
    | zero t => simp [UnpackedFloat.compare, UnpackedFloat.isNaN]
    | notANumber => simp [UnpackedFloat.compare, UnpackedFloat.isNaN]
  | finite s =>
    cases b with
    | infinity t => cases t <;> simp [UnpackedFloat.compare, UnpackedFloat.isNaN]
    | finite t => cases s <;> cases t <;> simp [UnpackedFloat.compare, UnpackedFloat.isNaN]
    | zero t => cases s <;> simp [UnpackedFloat.compare, UnpackedFloat.isNaN]
    | notANumber => cases s <;> simp [UnpackedFloat.compare, UnpackedFloat.isNaN]

end Parts

section Doubles

variable {x y : Float}

/-- A double is less than another one if its parts are. -/
theorem lt_iff_compareParts : x < y ↔ compareParts x y = some .lt := by
  have hbool : x < y ↔ (compareParts x y == some .lt) = true := by
    change decide (x.toModel < y.toModel) = true ↔ _
    rw [decide_eq_true_iff]
    exact Iff.rfl
  rw [hbool, beq_iff_eq]

/-- Two doubles are equal if their parts are. -/
theorem beq_iff_compareParts : (x == y) = true ↔ compareParts x y = some .eq := by
  have hbool : (x == y) = (compareParts x y == some .eq) := rfl
  rw [hbool, beq_iff_eq]

variable (x y)

/-- To exchange two doubles exchanges the order of their parts. -/
theorem compareParts_swap : compareParts y x = (compareParts x y).map Ordering.swap :=
  compare_swap_unpacked _ _

/-- The parts of two doubles have an order unless one of them is NaN. -/
theorem compareParts_eq_none_iff : compareParts x y = none ↔ x.isNaN = true ∨ y.isNaN = true :=
  compare_eq_none_iff_unpacked _ _

/-- The three comparisons of doubles together tell how their parts compare. -/
theorem orderNumbers?_eq_compareParts : Value.orderNumbers? x y = compareParts x y := by
  have hgreater : y < x ↔ compareParts x y = some .gt := by
    rw [lt_iff_compareParts, compareParts_swap]
    cases compareParts x y with
    | none => simp
    | some ordering => cases ordering <;> simp
  simp only [Value.orderNumbers?, lt_iff_compareParts (x := x), beq_iff_compareParts, hgreater]
  cases compareParts x y with
  | none => simp
  | some ordering => cases ordering <;> simp

/-- To exchange two numbers exchanges their order. -/
theorem orderNumbers?_swap :
    Value.orderNumbers? y x = (Value.orderNumbers? x y).map Ordering.swap := by
  rw [orderNumbers?_eq_compareParts, orderNumbers?_eq_compareParts, compareParts_swap]

/-- Two numbers have an order unless one of them is NaN. -/
theorem orderNumbers?_eq_none_iff :
    Value.orderNumbers? x y = none ↔ x.isNaN = true ∨ y.isNaN = true := by
  rw [orderNumbers?_eq_compareParts, compareParts_eq_none_iff]

/-- It does not matter in which order two doubles are tested for equality. -/
theorem beq_comm_double : (x == y) = (y == x) := by
  rw [Bool.eq_iff_iff, beq_iff_compareParts, beq_iff_compareParts, compareParts_swap]
  cases compareParts y x with
  | none => simp
  | some ordering => cases ordering <;> simp

variable {x}

/-- Every double but NaN is equal to itself. -/
theorem beq_self_of_isNaN_eq_false (h : x.isNaN = false) : (x == x) = true := by
  rw [Float.beq_self_iff]
  rintro rfl
  rw [Float.isNaN_eq_decide_eq_nan] at h
  simp at h

end Doubles

/-! ### Nearest doubles -/

/-- The bits of a NaN have all bits of the exponent set, and one of the significand. -/
theorem isNaNBits_eq (bits : UInt64) :
    @UnpackedFloat.isNaNBits Format.binary64 bits.toBitVec =
      decide (bits.toNat / 2 ^ 52 % 2 ^ 11 = 2047 ∧ bits.toNat % 2 ^ 52 ≠ 0) := by
  have hexponent : (@UnpackedFloat.unpackExponent Format.binary64 bits.toBitVec).toNat =
      bits.toNat / 2 ^ 52 % 2 ^ 11 := by
    rw [UnpackedFloat.unpackExponent_def, BitVec.extractLsb'_toNat, Nat.shiftRight_eq_div_pow]
    rfl
  have hsignificand : (@UnpackedFloat.unpackMantissa Format.binary64 bits.toBitVec).toNat =
      bits.toNat % 2 ^ 52 := by
    rw [UnpackedFloat.unpackMantissa_def, BitVec.extractLsb'_toNat, Nat.shiftRight_zero]
    rfl
  rw [UnpackedFloat.isNaNBits, decide_eq_decide, ne_eq, ← BitVec.toNat_inj,
    ← BitVec.toNat_inj, hexponent, hsignificand]
  rfl

/-- A double that is made of bits is NaN only if the bits are those of a NaN. -/
theorem isNaN_ofBits {bits : UInt64}
    (h : @UnpackedFloat.isNaNBits Format.binary64 bits.toBitVec = false) :
    (Float.ofBits bits).isNaN = false := by
  have hpack :
      UnpackedFloat.pack Format.binary64 (UnpackedFloat.unpack Format.binary64 bits.toBitVec) =
      bits.toBitVec := by
    rw [UnpackedFloat.pack_unpack, if_neg (by simp [h])]
  have hvalid : Format.binary64.Valid bits.toBitVec := by
    rw [← hpack]
    exact UnpackedFloat.valid_pack
  have hbits : (Float.Model.ofBits bits).toBits.toBitVec = bits.toBitVec := hpack
  change
    (UnpackedFloat.unpack Format.binary64 (Float.Model.ofBits bits).toBits.toBitVec).isNaN = false
  rw [hbits, Bool.eq_false_iff, ne_eq, UnpackedFloat.isNaN_unpack_iff_of_valid hvalid]
  intro hnan
  rw [hnan, UnpackedFloat.isNaNBits_packedNaN] at h
  cases h

namespace Binary64

/-- The nearest double is finite or infinite. -/
theorem isNaN_nearest (negative : Bool) (num den : Nat) :
    (nearest negative num den).isNaN = false := by
  have hbits : ∀ magnitude ≤ 2047 * 2 ^ 52, ∀ sign : Nat, sign = 0 ∨ sign = 2 ^ 63 →
      (Float.ofBits (UInt64.ofNat (magnitude + sign))).isNaN = false := by
    intro magnitude hmagnitude sign hsign
    refine isNaN_ofBits ?_
    rw [isNaNBits_eq, UInt64.toNat_ofNat', decide_eq_false_iff_not]
    omega
  refine hbits _ ?_ _ ?_
  · dsimp only
    split
    · exact Nat.zero_le _
    · exact Nat.min_le_right _ _
  · cases negative with
    | false => exact .inl rfl
    | true => exact .inr rfl

/-- No integer is converted to NaN. -/
theorem isNaN_ofInt (n : Int) : (ofInt n).isNaN = false :=
  isNaN_nearest _ _ _

end Binary64

/-- What a numeral stands for is never NaN. -/
theorem Numeral.isNaN_toFloat (numeral : Numeral) : numeral.toFloat.isNaN = false := by
  unfold toFloat
  dsimp only
  split
  · exact Binary64.isNaN_nearest _ _ _
  · split
    · exact Binary64.isNaN_nearest _ _ _
    · split <;> exact Binary64.isNaN_nearest _ _ _

end BraceTemplate
