import LoongArch.InstructionSet

/-!
# Instructions

A word taken apart into operation, register numbers and immediate. Every word is an instruction; one
that the instruction set does not know has the invalid operation.
-/

set_option autoImplicit false

namespace LoongArch

/-- An instruction and its operands. The register numbers are kept as bytes, of which only the low five
bits name a register. -/
structure Instruction where
  operation : Operation
  format : Format
  raw : Word
  /-- The destination, or the second value that a branch compares or a store writes. -/
  rd : UInt8
  rj : UInt8
  rk : UInt8
  immediate : Word
deriving DecidableEq, Repr

namespace Instruction

def ofFields (operation : Operation) (format : Format) (word : Word) : Instruction where
  operation := operation
  format := format
  raw := word
  rd := (word.bits 4 0).toUInt8
  rj := (word.bits 9 5).toUInt8
  rk := (word.bits 14 10).toUInt8
  immediate := format.immediate word

def decode (word : Word) : Instruction :=
  let template := InstructionSet.lookup word
  ofFields template.operation template.format word

/-- Where a relative jump or branch at `pc` leads: its immediate counts instructions. -/
def target (instruction : Instruction) (pc : Word) : Word :=
  pc + instruction.immediate <<< 2

end Instruction
end LoongArch
