import LoongArch.Effects
import LoongArch.Format
import LoongArch.Operation
import LoongArch.Pattern

/-!
# The instruction set

The reduced 32-bit instruction set as an ordered table of templates. A word selects the first template
whose pattern accepts it. The last template accepts every word, so each word selects one.
-/

set_option autoImplicit false

namespace LoongArch

structure Template where
  mnemonic : String
  pattern : Pattern
  format : Format
  operation : Operation
  effects : Effects
deriving DecidableEq, Repr

namespace InstructionSet

private def register : Effects := .ofList [.writesDestination]
private def loading : Effects := .ofList [.writesDestination, .load]
private def branching : Effects := .ofList [.branch]

def breakpoint : Template :=
  ⟨"break", .leading 17 0b0000_0000_0010_10100, .bare, .breakpoint, .ofList [.halt]⟩

def invalid : Template :=
  ⟨"inv", .leading 0 0, .bare, .invalid, .ofList [.halt]⟩

def templates : List Template := [
  ⟨"pcaddu12i", .leading 7 0b0001110, .reg1Si20, .pcaddu12i, register⟩,
  ⟨"lu12i.w", .leading 7 0b0001010, .reg1Si20, .lu12iW, register⟩,
  ⟨"add.w", .leading 17 0b0000000000_0100000, .reg3, .alu .addW, register⟩,
  ⟨"sub.w", .leading 17 0b0000000000_0100010, .reg3, .alu .subW, register⟩,
  ⟨"div.w", .leading 17 0b0000000000_1000000, .reg3, .mulDiv .divW, register⟩,
  ⟨"mod.w", .leading 17 0b0000000000_1000001, .reg3, .mulDiv .modW, register⟩,
  ⟨"addi.w", .leading 10 0b0000001010, .reg2Si12, .alu .addiW, register⟩,
  ⟨"or", .leading 17 0b0000000000_0101010, .reg3, .alu .or, register⟩,
  ⟨"ori", .leading 10 0b0000001110, .reg2Ui12, .alu .ori, register⟩,
  ⟨"andi", .leading 10 0b0000001101, .reg2Ui12, .alu .andi, register⟩,
  ⟨"bl", .leading 6 0b010101, .si26, .call, .ofList [.jump, .call]⟩,
  ⟨"ld.w", .leading 10 0b0010100010, .reg2Si12, .load .word .sign, loading⟩,
  ⟨"ld.h", .leading 10 0b0010100001, .reg2Si12, .load .half .sign, loading⟩,
  ⟨"ld.b", .leading 10 0b0010100000, .reg2Si12, .load .byte .sign, loading⟩,
  ⟨"ld.bu", .leading 10 0b0010101000, .reg2Si12, .load .byte .zero, loading⟩,
  ⟨"ld.hu", .leading 10 0b0010101001, .reg2Si12, .load .half .zero, loading⟩,
  ⟨"st.w", .leading 10 0b0010100110, .reg2Si12, .store .word, .ofList [.store]⟩,
  ⟨"st.h", .leading 10 0b0010100101, .reg2Si12, .store .half, .ofList [.store]⟩,
  ⟨"st.b", .leading 10 0b0010100100, .reg2Si12, .store .byte, .ofList [.store]⟩,
  ⟨"div.wu", .leading 17 0b0000000000_1000010, .reg3, .mulDiv .divWu, register⟩,
  ⟨"mod.wu", .leading 17 0b0000000000_1000011, .reg3, .mulDiv .modWu, register⟩,
  ⟨"sltui", .leading 10 0b0000001001, .reg2Si12, .alu .sltui, register⟩,
  ⟨"slti", .leading 10 0b0000001000, .reg2Si12, .alu .slti, register⟩,
  ⟨"xori", .leading 10 0b0000001111, .reg2Ui12, .alu .xori, register⟩,
  ⟨"mul.w", .leading 17 0b0000000000_0111000, .reg3, .mulDiv .mulW, register⟩,
  ⟨"mulh.w", .leading 17 0b0000000000_0111001, .reg3, .mulDiv .mulhW, register⟩,
  ⟨"mulh.wu", .leading 17 0b0000000000_0111010, .reg3, .mulDiv .mulhWu, register⟩,
  ⟨"sll.w", .leading 17 0b0000000000_0101110, .reg3, .alu .sllW, register⟩,
  ⟨"srl.w", .leading 17 0b0000000000_0101111, .reg3, .alu .srlW, register⟩,
  ⟨"sra.w", .leading 17 0b0000000000_0110000, .reg3, .alu .sraW, register⟩,
  ⟨"slli.w", .leading 17 0b0000000001_0000001, .reg2Ui5, .alu .slliW, register⟩,
  ⟨"srli.w", .leading 17 0b0000000001_0001001, .reg2Ui5, .alu .srliW, register⟩,
  ⟨"srai.w", .leading 17 0b0000000001_0010001, .reg2Ui5, .alu .sraiW, register⟩,
  ⟨"xor", .leading 17 0b0000000000_0101011, .reg3, .alu .xor, register⟩,
  ⟨"slt", .leading 17 0b0000000000_0100100, .reg3, .alu .slt, register⟩,
  ⟨"sltu", .leading 17 0b0000000000_0100101, .reg3, .alu .sltu, register⟩,
  ⟨"and", .leading 17 0b0000000000_0101001, .reg3, .alu .and, register⟩,
  ⟨"nor", .leading 17 0b0000000000_0101000, .reg3, .alu .nor, register⟩,
  ⟨"b", .leading 6 0b010100, .si26, .jump, .ofList [.jump]⟩,
  ⟨"jirl", .leading 6 0b010011, .reg2Si16, .jumpRegister,
    .ofList [.writesDestination, .jump, .indirect]⟩,
  ⟨"beq", .leading 6 0b010110, .reg2Si16, .branch .equal, branching⟩,
  ⟨"bne", .leading 6 0b010111, .reg2Si16, .branch .notEqual, branching⟩,
  ⟨"blt", .leading 6 0b011000, .reg2Si16, .branch .less, branching⟩,
  ⟨"bge", .leading 6 0b011001, .reg2Si16, .branch .greaterEqual, branching⟩,
  ⟨"bltu", .leading 6 0b011010, .reg2Si16, .branch .lessUnsigned, branching⟩,
  ⟨"bgeu", .leading 6 0b011011, .reg2Si16, .branch .greaterEqualUnsigned, branching⟩,
  ⟨"dbar", .leading 17 0b0011100001_1100100, .hint16, .dataBarrier, .empty⟩,
  ⟨"ibar", .leading 17 0b0011100001_1100101, .hint16, .instructionBarrier, .empty⟩,
  breakpoint,
  invalid]

def lookup (word : Word) : Template :=
  (templates.find? (·.pattern.accepts word)).getD invalid

def describe (operation : Operation) : Template :=
  (templates.find? (·.operation = operation)).getD invalid

end InstructionSet
end LoongArch
