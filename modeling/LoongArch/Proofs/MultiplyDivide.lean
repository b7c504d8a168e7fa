import LoongArch.Arithmetic
import LoongArch.Proofs.BitFields
import Mathlib.Algebra.Order.Ring.Abs
import Mathlib.Data.Nat.ModEq

/-!
# Multiplication and division are exact

The two halves of a product, and the quotient and remainder of a division, are compared with the
integers that their operands stand for. A product never leaves the width in which it is formed, and of
all signed quotients only one does not fit into a word.
-/

set_option autoImplicit false

namespace LoongArch

namespace MulDivOperation

section Products

variable (first second : Word)

theorem signed_product_bounds :
    -2 ^ 62 ≤ first.toInt32.toInt * second.toInt32.toInt ∧
      first.toInt32.toInt * second.toInt32.toInt ≤ 2 ^ 62 := by
  have bounded (word : Word) : |word.toInt32.toInt| ≤ 2 ^ 31 := by
    have least := word.toInt32.le_toInt
    have greatest := word.toInt32.toInt_lt
    exact abs_le.mpr ⟨least, greatest.le⟩
  apply abs_le.mp
  calc |first.toInt32.toInt * second.toInt32.toInt|
      = |first.toInt32.toInt| * |second.toInt32.toInt| := abs_mul ..
    _ ≤ 2 ^ 31 * 2 ^ 31 := mul_le_mul (bounded first) (bounded second) (abs_nonneg _) (by decide)
    _ = 2 ^ 62 := by decide

theorem to_int_signed_product :
    (signedProduct first second).toInt = first.toInt32.toInt * second.toInt32.toInt := by
  have bounds := signed_product_bounds first second
  rw [signedProduct, Int64.toInt_mul, Int32.toInt_toInt64, Int32.toInt_toInt64]
  apply Int.bmod_eq_of_le
  · omega
  · omega

theorem to_nat_unsigned_product :
    (unsignedProduct first second).toNat = first.toNat * second.toNat := by
  have bounded : first.toNat * second.toNat < 2 ^ 32 * 2 ^ 32 :=
    Nat.mul_lt_mul'' first.toNat_lt second.toNat_lt
  rw [unsignedProduct, UInt64.toNat_mul, UInt32.toNat_toUInt64, UInt32.toNat_toUInt64]
  exact Nat.mod_eq_of_lt bounded

theorem to_int_high_half :
    (value mulhW first second).toInt32.toInt =
      first.toInt32.toInt * second.toInt32.toInt / 2 ^ 32 := by
  have bounds := signed_product_bounds first second
  have shifted : (signedProduct first second >>> 32).toInt =
      first.toInt32.toInt * second.toInt32.toInt / 2 ^ 32 := by
    rw [← to_int_signed_product, ← Int64.toInt_toBitVec, Int64.toBitVec_shiftRight,
      BitVec.sshiftRight_eq', BitVec.toInt_sshiftRight, Int.shiftRight_eq_div_pow]
    rfl
  rw [value, Int32.toInt32_toUInt32, Int64.toInt_toInt32, shifted]
  apply Int.bmod_eq_of_le
  · omega
  · omega

theorem to_nat_high_half :
    (value mulhWu first second).toNat = first.toNat * second.toNat / 2 ^ 32 := by
  have bounded : first.toNat * second.toNat / 2 ^ 32 < 2 ^ 32 :=
    Nat.div_lt_of_lt_mul (Nat.mul_lt_mul'' first.toNat_lt second.toNat_lt)
  rw [value, UInt64.toNat_toUInt32, UInt64.toNat_shiftRight, to_nat_unsigned_product,
    Nat.shiftRight_eq_div_pow]
  exact Nat.mod_eq_of_lt bounded

theorem to_nat_low_half :
    ((value mulW first second).toNat : Int) =
      first.toInt32.toInt * second.toInt32.toInt % 2 ^ 32 := by
  rw [← Word.to_nat_of_int, UInt32.ofInt_mul, Word.of_int_to_int32, Word.of_int_to_int32]
  rfl

theorem signed_halves :
    (value mulhW first second).toInt32.toInt * 2 ^ 32 + (value mulW first second).toNat =
      first.toInt32.toInt * second.toInt32.toInt := by
  rw [to_int_high_half, to_nat_low_half]
  exact Int.ediv_mul_add_emod ..

theorem unsigned_halves :
    (value mulhWu first second).toNat * 2 ^ 32 + (value mulW first second).toNat =
      first.toNat * second.toNat := by
  have low : (value mulW first second).toNat = first.toNat * second.toNat % 2 ^ 32 :=
    UInt32.toNat_mul ..
  rw [to_nat_high_half, low]
  exact Nat.div_add_mod' ..

end Products

section Quotients

variable (first second : Word)

/-- Only the least word divided by minus one has a quotient that does not fit. -/
theorem to_int_quotient
    (fits : ¬(first.toInt32.toInt = -2 ^ 31 ∧ second.toInt32.toInt = -1)) :
    (value divW first second).toInt32.toInt = first.toInt32.toInt.tdiv second.toInt32.toInt := by
  rw [value, Int32.toInt32_toUInt32]
  -- It is enough that one of the two operands rules the overflow out.
  by_cases least : first.toInt32 = Int32.minValue
  · apply Int32.toInt_div_of_ne_right
    intro minus
    exact fits ⟨by rw [least]; rfl, by rw [minus]; rfl⟩
  · exact Int32.toInt_div_of_ne_left _ _ least

theorem to_int_remainder :
    (value modW first second).toInt32.toInt = first.toInt32.toInt.tmod second.toInt32.toInt := by
  rw [value, Int32.toInt32_toUInt32, Int32.toInt_mod]

theorem overflowing_quotient (least : first.toInt32.toInt = -2 ^ 31)
    (minus : second.toInt32.toInt = -1) :
    (value divW first second).toInt32.toInt = -2 ^ 31 ∧
      (value modW first second).toInt32.toInt = 0 := by
  rw [to_int_remainder, value, Int32.toInt32_toUInt32, Int32.toInt_div, least, minus]
  decide

theorem signed_recomposition :
    value divW first second * second + value modW first second = first := by
  -- The quotient is congruent to the true one also where it wraps, so this needs no case split.
  have quotient : value divW first second =
      UInt32.ofInt (first.toInt32.toInt.tdiv second.toInt32.toInt) := by
    rw [← Word.of_int_bmod, ← Int32.toInt_div, ← Word.of_int_to_int32 (value divW first second)]
    rfl
  have remainder : value modW first second =
      UInt32.ofInt (first.toInt32.toInt.tmod second.toInt32.toInt) := by
    rw [← to_int_remainder, Word.of_int_to_int32]
  have product : UInt32.ofInt (first.toInt32.toInt.tdiv second.toInt32.toInt) * second =
      UInt32.ofInt (first.toInt32.toInt.tdiv second.toInt32.toInt * second.toInt32.toInt) := by
    rw [UInt32.ofInt_mul, Word.of_int_to_int32]
  rw [quotient, remainder, product, ← UInt32.ofInt_add, Int.tdiv_mul_add_tmod,
    Word.of_int_to_int32]

theorem unsigned_recomposition :
    value divWu first second * second + value modWu first second = first := by
  have divided : first.toNat / second.toNat * second.toNat + first.toNat % second.toNat =
      first.toNat := Nat.div_add_mod' ..
  apply UInt32.toNat_inj.mp
  rw [UInt32.toNat_add, UInt32.toNat_mul, Nat.mod_add_mod]
  change (first.toNat / second.toNat * second.toNat + first.toNat % second.toNat) % 2 ^ 32 = _
  rw [divided, Nat.mod_eq_of_lt first.toNat_lt]

end Quotients

section Apply

variable (first second : Word) (policy : DivideByZeroPolicy)

theorem apply_of_defined {operation : MulDivOperation}
    (defined : operation.divides = true → second ≠ 0) :
    operation.apply first second policy = some (operation.value first second) :=
  if_neg fun undefined => defined undefined.1 undefined.2

theorem apply_zero {operation : MulDivOperation} (divides : operation.divides = true) :
    operation.apply first 0 policy =
      if policy = .trap then none else some (operation.saturated first) := by
  unfold apply
  rw [if_pos ⟨divides, rfl⟩]
  cases policy <;> rfl

theorem recomposition {quotient remainder : MulDivOperation}
    (divides : quotient.divides = true ∧ remainder.divides = true)
    (values : quotient.value first second * second + remainder.value first second = first)
    (saturated : remainder.saturated first = first) {left right : Word}
    (quotients : quotient.apply first second policy = some left)
    (remainders : remainder.apply first second policy = some right) :
    left.toNat * second.toNat + right.toNat ≡ first.toNat [MOD 2 ^ 32] := by
  have recomposed : left * second + right = first := by
    by_cases zero : second = 0
    · subst zero
      rw [apply_zero _ _ divides.1] at quotients
      rw [apply_zero _ _ divides.2, saturated] at remainders
      split at remainders
      · cases remainders
      · cases remainders
        rw [UInt32.mul_zero, UInt32.zero_add]
    · rw [apply_of_defined _ _ _ fun _ => zero] at quotients remainders
      cases quotients
      cases remainders
      exact values
  have sum := congrArg UInt32.toNat recomposed
  rw [UInt32.toNat_add, UInt32.toNat_mul, Nat.mod_add_mod] at sum
  rw [Nat.ModEq, sum, Nat.mod_eq_of_lt first.toNat_lt]

end Apply

/-- What the multiplications and divisions of two words yield, compared with the integers that the
words stand for. -/
structure Exact (first second : Word) (policy : DivideByZeroPolicy) : Prop where
  signedHalves : ∃ high low,
    mulhW.apply first second policy = some high ∧ mulW.apply first second policy = some low ∧
    high.toInt32.toInt * 2 ^ 32 + low.toNat = first.toInt32.toInt * second.toInt32.toInt
  unsignedHalves : ∃ high low,
    mulhWu.apply first second policy = some high ∧ mulW.apply first second policy = some low ∧
    high.toNat * 2 ^ 32 + low.toNat = first.toNat * second.toNat
  /-- The quotient is rounded toward zero. One quotient does not fit, and wraps around. -/
  signedDivision : second ≠ 0 → ∃ quotient remainder,
    divW.apply first second policy = some quotient ∧
    modW.apply first second policy = some remainder ∧
    if first.toInt32.toInt = -2 ^ 31 ∧ second.toInt32.toInt = -1 then
      quotient.toInt32.toInt = -2 ^ 31 ∧ remainder.toInt32.toInt = 0
    else
      quotient.toInt32.toInt = first.toInt32.toInt.tdiv second.toInt32.toInt ∧
      remainder.toInt32.toInt = first.toInt32.toInt.tmod second.toInt32.toInt
  unsignedDivision : second ≠ 0 → ∃ quotient remainder,
    divWu.apply first second policy = some quotient ∧
    modWu.apply first second policy = some remainder ∧
    quotient.toNat = first.toNat / second.toNat ∧ remainder.toNat = first.toNat % second.toNat
  zeroDivisor : second = 0 → ∀ operation ∈ [divW, modW, divWu, modWu],
    (operation.apply first second policy = none ↔ policy = .trap)
  saturation : second = 0 → policy = .saturate →
    (∀ operation ∈ [divW, divWu],
      operation.apply first second policy = some (.ofNat (2 ^ 32 - 1))) ∧
    ∀ operation ∈ [modW, modWu], operation.apply first second policy = some first
  recomposition : ∀ pair ∈ [(divW, modW), (divWu, modWu)], ∀ quotient remainder,
    pair.1.apply first second policy = some quotient →
    pair.2.apply first second policy = some remainder →
    quotient.toNat * second.toNat + remainder.toNat ≡ first.toNat [MOD 2 ^ 32]
  wideProducts :
    (signedProduct first second).toInt = first.toInt32.toInt * second.toInt32.toInt ∧
    (unsignedProduct first second).toNat = first.toNat * second.toNat

/-- Multiplication and division of words are exact under both policies. -/
theorem apply_exact (first second : Word) (policy : DivideByZeroPolicy) :
    Exact first second policy where
  signedHalves :=
    ⟨_, _, apply_of_defined _ _ _ nofun, apply_of_defined _ _ _ nofun, signed_halves first second⟩
  unsignedHalves :=
    ⟨_, _, apply_of_defined _ _ _ nofun, apply_of_defined _ _ _ nofun,
      unsigned_halves first second⟩
  signedDivision := by
    intro nonzero
    refine ⟨_, _, apply_of_defined _ _ _ fun _ => nonzero, apply_of_defined _ _ _ fun _ => nonzero,
      ?_⟩
    split
    next overflow => exact overflowing_quotient first second overflow.1 overflow.2
    next fits => exact ⟨to_int_quotient first second fits, to_int_remainder first second⟩
  unsignedDivision := by
    intro nonzero
    exact ⟨_, _, apply_of_defined _ _ _ fun _ => nonzero, apply_of_defined _ _ _ fun _ => nonzero,
      UInt32.toNat_div .., UInt32.toNat_mod ..⟩
  zeroDivisor := by
    rintro rfl operation listed
    have divides : operation.divides = true := by
      revert operation
      decide
    rw [apply_zero _ _ divides]
    split <;> simp_all
  saturation := by
    rintro rfl rfl
    constructor
    · intro operation listed
      simp only [List.mem_cons, List.not_mem_nil, or_false] at listed
      rcases listed with rfl | rfl <;> rfl
    · intro operation listed
      simp only [List.mem_cons, List.not_mem_nil, or_false] at listed
      rcases listed with rfl | rfl <;> rfl
  recomposition := by
    intro pair listed quotient remainder quotients remainders
    simp only [List.mem_cons, List.not_mem_nil, or_false] at listed
    rcases listed with rfl | rfl
    · exact MulDivOperation.recomposition first second policy ⟨rfl, rfl⟩
        (signed_recomposition first second) rfl quotients remainders
    · exact MulDivOperation.recomposition first second policy ⟨rfl, rfl⟩
        (unsigned_recomposition first second) rfl quotients remainders
  wideProducts := ⟨to_int_signed_product first second, to_nat_unsigned_product first second⟩

end MulDivOperation
end LoongArch
