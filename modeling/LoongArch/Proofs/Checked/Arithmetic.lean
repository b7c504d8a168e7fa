import LoongArch.Proofs.Checked.Operators
import LoongArch.Proofs.MultiplyDivide

/-!
# Arithmetic, checked

Shift amounts are masked before they are used, products are formed in twice the width of their factors,
and a divisor is compared with zero before anything is divided by it. So the arithmetic of instructions
is defined for all operands, also for the one quotient of signed words that does not fit.
-/

set_option autoImplicit false

namespace LoongArch

namespace Checked

/-- Only shifts can be undefined: the other operations wrap, compare or combine bits. -/
def compute (operation : AluOperation) (first second immediate : Word) : Checked Word :=
  match operation with
  | .sllW => shiftLeft first (second &&& 0x1F)
  | .srlW => shiftRight first (second &&& 0x1F)
  | .sraW => shiftRightSigned first (second &&& 0x1F)
  | .slliW => shiftLeft first (immediate &&& 0x1F)
  | .srliW => shiftRight first (immediate &&& 0x1F)
  | .sraiW => shiftRightSigned first (immediate &&& 0x1F)
  | _ => return operation.apply first second immediate

def unlessZero (operation : MulDivOperation) (first second : Word) (policy : DivideByZeroPolicy)
    (quotient : Checked Word) : Checked (Option Word) :=
  if second = 0 then
    match policy with
    | .trap => return none
    | .saturate => return some (operation.saturated first)
  else some <$> quotient

def mulDiv (operation : MulDivOperation) (first second : Word) (policy : DivideByZeroPolicy) :
    Checked (Option Word) :=
  match operation with
  | .mulW => return some (first * second)
  | .mulhW => do
    let product ← multiplySigned first.toInt32.toInt64 second.toInt32.toInt64
    return some (← shiftRightSignedWide product 32).toInt32.toUInt32
  | .mulhWu => do
    let product ← multiplyUnsigned first.toUInt64 second.toUInt64
    return some (← shiftRightUnsignedWide product 32).toUInt32
  | .divW =>
    unlessZero operation first second policy
      (Int32.toUInt32 <$>
        divideWrapping first.toInt32 second.toInt32 Int32.minValue (first.toInt32 / second.toInt32))
  | .modW =>
    unlessZero operation first second policy
      (Int32.toUInt32 <$>
        divideWrapping first.toInt32 second.toInt32 0 (first.toInt32 % second.toInt32))
  | .divWu => unlessZero operation first second policy (divide first second)
  | .modWu => unlessZero operation first second policy (remainder first second)

section Shifts

theorem shift_amount_eq (word : Word) : word &&& 0x1F = word % 32 := by
  apply UInt32.toNat_inj.mp
  rw [UInt32.toNat_and, UInt32.toNat_mod]
  exact Nat.and_two_pow_sub_one_eq_mod _ 5

theorem shift_amount_lt (word : Word) : word % 32 < 32 := by
  apply lt_of_to_nat_lt
  rw [UInt32.toNat_mod]
  exact Nat.mod_lt _ (by decide)

theorem compute_eq (operation : AluOperation) (first second immediate : Word) :
    compute operation first second immediate = .ok (operation.apply first second immediate) := by
  cases operation with
  | sllW | srlW | sraW | slliW | srliW | sraiW =>
    simp only [compute, shiftLeft, shiftRight, shiftRightSigned, shift_amount_eq,
      guarded_eq (shift_amount_lt _), AluOperation.apply]
  | _ => rfl

end Shifts

section Divisions

variable {first second : Word}

theorem unless_zero_eq {operation : MulDivOperation} (divides : operation.divides = true)
    (policy : DivideByZeroPolicy) {quotient : Checked Word}
    (defined : second ≠ 0 → quotient = .ok (operation.value first second)) :
    unlessZero operation first second policy quotient =
      .ok (operation.apply first second policy) := by
  unfold unlessZero
  split
  next zero =>
    subst zero
    rw [MulDivOperation.apply_zero _ _ divides]
    cases policy <;> rfl
  next nonzero =>
    rw [defined nonzero, MulDivOperation.apply_of_defined _ _ _ fun _ => nonzero]
    rfl

theorem to_int32_ne_zero (nonzero : second ≠ 0) : second.toInt32 ≠ 0 := by
  intro zero
  apply nonzero
  have same := congrArg Int32.toUInt32 zero
  rwa [UInt32.toUInt32_toInt32] at same

theorem divide_overflowing {dividend divisor : Int32}
    (overflows : QuotientOverflows dividend divisor) :
    Int32.minValue = dividend / divisor ∧ 0 = dividend % divisor := by
  obtain ⟨rfl, rfl⟩ := overflows
  refine ⟨Int32.minValue_div_neg_one.symm, ?_⟩
  rw [← Int32.toInt_inj, Int32.toInt_mod]
  rfl

theorem mul_div_eq (operation : MulDivOperation) (first second : Word)
    (policy : DivideByZeroPolicy) :
    mulDiv operation first second policy = .ok (operation.apply first second policy) := by
  cases operation with
  | mulW => rfl
  | mulhW =>
    have bounds := MulDivOperation.signed_product_bounds first second
    have fits : -2 ^ 63 ≤ first.toInt32.toInt64.toInt * second.toInt32.toInt64.toInt ∧
        first.toInt32.toInt64.toInt * second.toInt32.toInt64.toInt < 2 ^ 63 := by
      rw [Int32.toInt_toInt64, Int32.toInt_toInt64]
      omega
    have halved (product : Int64) : shiftRightSignedWide product 32 = .ok (product >>> 32) :=
      guarded_eq (by decide) ..
    have undivided : MulDivOperation.mulhW.divides = true → second ≠ 0 := nofun
    simp only [mulDiv, multiplySigned, guarded_eq fits, halved, ok_bind, pure_eq,
      MulDivOperation.apply_of_defined _ _ _ undivided]
    rfl
  | mulhWu =>
    have bounded : first.toNat * second.toNat < 2 ^ 32 * 2 ^ 32 :=
      Nat.mul_lt_mul'' first.toNat_lt second.toNat_lt
    have fits : first.toUInt64.toNat * second.toUInt64.toNat < 2 ^ 64 := by
      rw [UInt32.toNat_toUInt64, UInt32.toNat_toUInt64]
      exact bounded
    have halved (product : UInt64) : shiftRightUnsignedWide product 32 = .ok (product >>> 32) :=
      guarded_eq (by decide) ..
    have undivided : MulDivOperation.mulhWu.divides = true → second ≠ 0 := nofun
    simp only [mulDiv, multiplyUnsigned, guarded_eq fits, halved, ok_bind, pure_eq,
      MulDivOperation.apply_of_defined _ _ _ undivided]
    rfl
  | divW =>
    refine unless_zero_eq rfl policy fun nonzero => ?_
    rw [divide_wrapping_eq (to_int32_ne_zero nonzero) fun overflows =>
      (divide_overflowing overflows).1]
    rfl
  | modW =>
    refine unless_zero_eq rfl policy fun nonzero => ?_
    rw [divide_wrapping_eq (to_int32_ne_zero nonzero) fun overflows =>
      (divide_overflowing overflows).2]
    rfl
  | divWu => exact unless_zero_eq rfl policy fun nonzero => guarded_eq nonzero ..
  | modWu => exact unless_zero_eq rfl policy fun nonzero => guarded_eq nonzero ..

end Divisions
end Checked
end LoongArch
