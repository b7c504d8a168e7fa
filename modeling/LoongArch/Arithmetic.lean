import LoongArch.Operation

/-!
# Arithmetic

The values that operations compute. Sums, differences and shifts wrap at 32 bits. Immediates arrive
sign-extended; the logical operations use their low twelve bits and the shifts their low five.
-/

set_option autoImplicit false

namespace LoongArch

namespace AluOperation

def apply (operation : AluOperation) (first second immediate : Word) : Word :=
  match operation with
  | addW => first + second
  | subW => first - second
  | slt => Word.ofBool (first.toInt32 < second.toInt32)
  | sltu => Word.ofBool (first < second)
  | nor => ~~~(first ||| second)
  | and => first &&& second
  | or => first ||| second
  | xor => first ^^^ second
  | sllW => first <<< (second % 32)
  | srlW => first >>> (second % 32)
  | sraW => Word.shiftRightSigned first (second % 32)
  | addiW => first + immediate
  | slti => Word.ofBool (first.toInt32 < immediate.toInt32)
  | sltui => Word.ofBool (first < immediate)
  | andi => first &&& (immediate &&& 0xFFF)
  | ori => first ||| (immediate &&& 0xFFF)
  | xori => first ^^^ (immediate &&& 0xFFF)
  | slliW => first <<< (immediate % 32)
  | srliW => first >>> (immediate % 32)
  | sraiW => Word.shiftRightSigned first (immediate % 32)

end AluOperation

inductive DivideByZeroPolicy where
  | trap
  /-- It yields a quotient of all ones, or the dividend as remainder. -/
  | saturate
deriving DecidableEq, Repr

namespace MulDivOperation

def divides : MulDivOperation → Bool
  | mulW | mulhW | mulhWu => false
  | divW | modW | divWu | modWu => true

def signedProduct (first second : Word) : Int64 :=
  first.toInt32.toInt64 * second.toInt32.toInt64

def unsignedProduct (first second : Word) : UInt64 :=
  first.toUInt64 * second.toUInt64

/-- The result where the divisor, if there is one, is not zero. Products are taken in full before
their upper half is cut out. The signed quotient rounds toward zero, and the remainder has the sign of
the dividend. -/
def value (operation : MulDivOperation) (first second : Word) : Word :=
  match operation with
  | mulW => first * second
  | mulhW => (signedProduct first second >>> 32).toInt32.toUInt32
  | mulhWu => (unsignedProduct first second >>> 32).toUInt32
  | divW => (first.toInt32 / second.toInt32).toUInt32
  | modW => (first.toInt32 % second.toInt32).toUInt32
  | divWu => first / second
  | modWu => first % second

def saturated (operation : MulDivOperation) (dividend : Word) : Word :=
  match operation with
  | divW | divWu => 0xFFFFFFFF
  | _ => dividend

/-- The result of an operation, or nothing where a division by zero has to stop the program. -/
def apply (operation : MulDivOperation) (first second : Word) (policy : DivideByZeroPolicy) :
    Option Word :=
  if operation.divides ∧ second = 0 then
    match policy with
    | .trap => none
    | .saturate => some (operation.saturated first)
  else
    some (operation.value first second)

end MulDivOperation

def Condition.holds (condition : Condition) (first second : Word) : Bool :=
  match condition with
  | equal => first == second
  | notEqual => first != second
  | less => first.toInt32 < second.toInt32
  | greaterEqual => second.toInt32 ≤ first.toInt32
  | lessUnsigned => first < second
  | greaterEqualUnsigned => second ≤ first

end LoongArch
