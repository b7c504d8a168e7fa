import LoongArch.Word

/-!
# Operations

What an instruction does, apart from where its operands come from.
-/

set_option autoImplicit false

namespace LoongArch

inductive AluOperation where
  | addW | subW | slt | sltu | nor | and | or | xor | sllW | srlW | sraW
  | addiW | slti | sltui | andi | ori | xori | slliW | srliW | sraiW
deriving DecidableEq, Repr

/-- Multiplications and divisions. The names with `Wu` read their operands as unsigned. -/
inductive MulDivOperation where
  | mulW | mulhW | mulhWu | divW | modW | divWu | modWu
deriving DecidableEq, Repr

inductive Condition where
  | equal | notEqual | less | greaterEqual | lessUnsigned | greaterEqualUnsigned
deriving DecidableEq, Repr

inductive AccessWidth where
  | byte | half | word
deriving DecidableEq, Repr

inductive Extension where
  | sign | zero
deriving DecidableEq, Repr

inductive Operation where
  | alu (operation : AluOperation)
  | mulDiv (operation : MulDivOperation)
  | pcaddu12i
  | lu12iW
  | load (width : AccessWidth) (extension : Extension)
  | store (width : AccessWidth)
  | jump
  | call
  | jumpRegister
  | branch (condition : Condition)
  | dataBarrier
  | instructionBarrier
  | breakpoint
  | invalid
deriving DecidableEq, Repr

namespace AccessWidth

def bytes : AccessWidth → Nat
  | byte => 1
  | half => 2
  | word => 4

def mask : AccessWidth → Word
  | byte => 0xFF
  | half => 0xFFFF
  | word => 0xFFFFFFFF

theorem bytes_pos (width : AccessWidth) : 0 < width.bytes := by
  cases width <;> decide

theorem bytes_le_four (width : AccessWidth) : width.bytes ≤ 4 := by
  cases width <;> decide

end AccessWidth
end LoongArch
