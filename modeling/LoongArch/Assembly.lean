import LoongArch.Instruction
import LoongArch.Numeral
import LoongArch.Register

/-!
# Assembly text

An instruction as assembly language writes it. Relative targets are written as the address they lead
to, so the text depends on the place of the instruction.
-/

set_option autoImplicit false

namespace LoongArch

namespace Instruction

/-- A register operand; register numbers count modulo 32. -/
def registerText (number : UInt8) : String :=
  (Register.ofByte number).text

def operandText (instruction : Instruction) (pc : Word) : String :=
  let rd := registerText instruction.rd
  let rj := registerText instruction.rj
  let rk := registerText instruction.rk
  let immediate := instruction.immediate
  match instruction.operation with
  | .invalid => Numeral.address instruction.raw.toNat
  | .breakpoint => Numeral.hex (instruction.raw &&& 0x7FFF).toNat
  | .dataBarrier | .instructionBarrier => Numeral.hex (immediate &&& 0x7FFF).toNat
  | .jump | .call => Numeral.hex (instruction.target pc).toNat
  | .jumpRegister => rd ++ ", " ++ rj ++ ", " ++ Numeral.signed (immediate <<< 2)
  | .branch _ => rj ++ ", " ++ rd ++ ", " ++ Numeral.hex (instruction.target pc).toNat
  | _ =>
    match instruction.format with
    | .reg3 => rd ++ ", " ++ rj ++ ", " ++ rk
    | .reg2Ui12 => rd ++ ", " ++ rj ++ ", " ++ Numeral.hex (immediate &&& 0xFFF).toNat
    | .reg2Ui5 => rd ++ ", " ++ rj ++ ", " ++ Numeral.decimal (immediate &&& 0x1F).toNat
    | .reg1Si20 => rd ++ ", " ++ Numeral.signed immediate
    | _ => rd ++ ", " ++ rj ++ ", " ++ Numeral.signed immediate

/-- An instruction at `pc` as assembly text. A word that encodes nothing is written as data. -/
def text (instruction : Instruction) (pc : Word) : String :=
  let head := match instruction.operation with
    | .invalid => ".word"
    | operation => (InstructionSet.describe operation).mnemonic
  head ++ " " ++ instruction.operandText pc

end Instruction
end LoongArch
