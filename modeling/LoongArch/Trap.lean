import LoongArch.Memory

/-!
# Traps

Why an instruction could not be carried out. A breakpoint is the way in which a program stops itself,
and its code says whether it is content.
-/

set_option autoImplicit false

namespace LoongArch

inductive Trap where
  | invalidInstruction (pc : Word)
  | breakpoint (pc code : Word)
  | divideByZero (pc : Word)
  | bus (address : Word) (fault : AccessFault)
deriving DecidableEq, Repr

namespace Trap

def message : Trap → String
  | invalidInstruction pc => "Invalid instruction at " ++ Numeral.address pc.toNat
  | breakpoint pc code =>
    "Break at " ++ Numeral.address pc.toNat ++ " with a0 = " ++ Numeral.hex code.toNat
  | divideByZero pc => "Divide by zero at " ++ Numeral.address pc.toNat
  | bus address fault =>
    "Bus error at " ++ Numeral.address address.toNat ++ ": " ++ fault.message

def isGood : Trap → Bool
  | breakpoint _ code => code == 0
  | _ => false

end Trap
end LoongArch
