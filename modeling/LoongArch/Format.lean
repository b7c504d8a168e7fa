import LoongArch.Word

/-!
# Instruction formats

A format says which fields an instruction word carries: register numbers at bits 4 to 0, 9 to 5 and 14
to 10, and an immediate in the bits named below.
-/

set_option autoImplicit false

namespace LoongArch

inductive Format where
  /-- Three registers. -/
  | reg3
  /-- Two registers and a signed immediate at bits 21 to 10. -/
  | reg2Si12
  /-- Two registers and an unsigned immediate at bits 21 to 10. -/
  | reg2Ui12
  /-- Two registers and a signed word offset at bits 25 to 10. -/
  | reg2Si16
  /-- One register and a signed immediate at bits 24 to 5. -/
  | reg1Si20
  /-- A signed word offset: its low half at bits 25 to 10, its high ten bits at bits 9 to 0. -/
  | si26
  /-- Two registers and a shift amount at bits 14 to 10. -/
  | reg2Ui5
  /-- A hint at bits 15 to 0. -/
  | hint16
  /-- No operands. -/
  | bare
deriving DecidableEq, Repr

namespace Format

/-- The immediate of an instruction word. Every immediate is sign-extended here, also those that are
read as unsigned; an operation that wants fewer bits masks them. -/
def immediate (format : Format) (word : Word) : Word :=
  match format with
  | reg3 | bare => 0
  | reg2Si12 | reg2Ui12 => (word.bits 21 10).signExtend 12
  | reg2Si16 => (word.bits 25 10).signExtend 16
  | reg1Si20 => (word.bits 24 5).signExtend 20
  | si26 => (word.bits 25 10 ||| word.bits 9 0 <<< 16).signExtend 26
  | reg2Ui5 => (word.bits 14 10).signExtend 5
  | hint16 => (word.bits 15 0).signExtend 16

/-- Whether the value of the register at bits 9 to 5 is fetched as the first source. The format with a
long immediate fetches it too, although its immediate covers those bits; its operations ignore it. -/
def readsFirst : Format → Bool
  | reg3 | reg2Si12 | reg2Ui12 | reg2Si16 | reg1Si20 | reg2Ui5 => true
  | si26 | hint16 | bare => false

def readsSecond : Format → Bool
  | reg3 => true
  | _ => false

end Format
end LoongArch
