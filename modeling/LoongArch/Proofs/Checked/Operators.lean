import LoongArch.Memory
import Mathlib.Algebra.Order.Ring.Int

/-!
# Operators with their conditions

An operator of machine arithmetic is defined only for some operands: a shift only by less than the width
of what it shifts, a difference only if it is not negative, an element only inside its table. Here every
operator tests its condition and names the violation, instead of giving some value. Operators that wrap
by definition have no condition and stay as they are.
-/

set_option autoImplicit false

namespace LoongArch

/-- What makes an operator undefined. -/
inductive Violation where
  | index
  | shift
  | overflow
  | zeroDivisor
  /-- A range of bytes that ends before it begins, or past the end of its block. -/
  | range
  | length
deriving DecidableEq, Repr

abbrev Checked := Except Violation

namespace Checked

section Evaluation

variable {α β : Type}

def guarded (condition : Prop) [Decidable condition] (violation : Violation) (value : α) :
    Checked α :=
  if condition then .ok value else .error violation

theorem guarded_eq {condition : Prop} [Decidable condition] (holds : condition)
    (violation : Violation) (value : α) : guarded condition violation value = .ok value :=
  if_pos holds

def indexed : Option α → Checked α
  | some value => .ok value
  | none => .error .index

@[simp] theorem indexed_some (value : α) : indexed (some value) = .ok value := rfl

@[simp] theorem pure_eq (value : α) : (pure value : Checked α) = .ok value := rfl

@[simp] theorem ok_bind (value : α) (next : α → Checked β) :
    ((.ok value : Checked α) >>= next) = next value := rfl

end Evaluation

section Words

def subtract (first second : Word) : Checked Word :=
  guarded (second ≤ first) .overflow (first - second)

def multiply (first second : Word) : Checked Word :=
  guarded (first.toNat * second.toNat < 2 ^ 32) .overflow (first * second)

def shiftLeft (word amount : Word) : Checked Word :=
  guarded (amount < 32) .shift (word <<< amount)

def shiftRight (word amount : Word) : Checked Word :=
  guarded (amount < 32) .shift (word >>> amount)

def shiftRightSigned (word amount : Word) : Checked Word :=
  guarded (amount < 32) .shift (word.shiftRightSigned amount)

theorem lt_of_to_nat_lt {amount : Word} (small : amount.toNat < 32) : amount < 32 :=
  UInt32.lt_iff_toNat_lt.mpr small

def divide (dividend divisor : Word) : Checked Word :=
  guarded (divisor ≠ 0) .zeroDivisor (dividend / divisor)

def remainder (dividend divisor : Word) : Checked Word :=
  guarded (divisor ≠ 0) .zeroDivisor (dividend % divisor)

end Words

section DoubleWidth

def multiplyUnsigned (first second : UInt64) : Checked UInt64 :=
  guarded (first.toNat * second.toNat < 2 ^ 64) .overflow (first * second)

def multiplySigned (first second : Int64) : Checked Int64 :=
  guarded (-2 ^ 63 ≤ first.toInt * second.toInt ∧ first.toInt * second.toInt < 2 ^ 63) .overflow
    (first * second)

def shiftRightUnsignedWide (value amount : UInt64) : Checked UInt64 :=
  guarded (amount < 64) .shift (value >>> amount)

def shiftRightSignedWide (value : Int64) (amount : UInt64) : Checked Int64 :=
  guarded (amount < 64) .shift (value >>> amount.toInt64)

def add (first second : Nat) : Checked Nat :=
  guarded (first + second < 2 ^ 64) .overflow (first + second)

end DoubleWidth

section SignedDivision

/-- The one division whose quotient has no place among the signed words. -/
def QuotientOverflows (dividend divisor : Int32) : Prop :=
  dividend = Int32.minValue ∧ divisor = -1

instance (dividend divisor : Int32) : Decidable (QuotientOverflows dividend divisor) :=
  inferInstanceAs (Decidable (_ ∧ _))

def divideSigned (dividend divisor result : Int32) : Checked Int32 :=
  if divisor = 0 then .error .zeroDivisor
  else guarded (¬QuotientOverflows dividend divisor) .overflow result

/-- A signed division that looks for the overflowing case first and has its own result there. -/
def divideWrapping (dividend divisor wrapped result : Int32) : Checked Int32 :=
  if QuotientOverflows dividend divisor then .ok wrapped else divideSigned dividend divisor result

theorem divide_wrapping_eq {dividend divisor wrapped result : Int32} (nonzero : divisor ≠ 0)
    (wraps : QuotientOverflows dividend divisor → wrapped = result) :
    divideWrapping dividend divisor wrapped result = .ok result := by
  unfold divideWrapping
  split
  next overflows => rw [wraps overflows]
  next fits => rw [divideSigned, if_neg nonzero, guarded_eq fits]

/-- Without that look the least word divided by minus one is an overflow. -/
example : divideSigned Int32.minValue (-1) Int32.minValue = .error .overflow := rfl

end SignedDivision

section Bytes

def bytesBetween (bytes : ByteArray) (start stop : Nat) : Checked (List UInt8) :=
  guarded (start ≤ stop ∧ stop ≤ bytes.size) .range (Memory.slice bytes start (stop - start))

def copiedInto (length : Nat) (contents : List UInt8) : Checked (List UInt8) :=
  guarded (contents.length = length) .length contents

def overwrite (bytes : ByteArray) (start stop : Nat) (contents : List UInt8) : Checked ByteArray := do
  let target ← bytesBetween bytes start stop
  guarded (contents.length = target.length) .length (Memory.replace bytes start contents)

end Bytes

end Checked
end LoongArch
