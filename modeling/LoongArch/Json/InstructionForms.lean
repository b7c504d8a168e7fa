import LoongArch.Effects.Text
import LoongArch.Instruction
import LoongArch.Json.Record

/-!
# JSON forms of instructions

Operations and formats are choices by name, a set of effects is its text, and an instruction is a
record.
-/

set_option autoImplicit false

namespace LoongArch

namespace AccessWidth

def spelling : Spelling AccessWidth :=
  [(byte, "Byte"), (half, "Half"), (word, "Word")]

def toJson (width : AccessWidth) : Json :=
  spelling.write width

def ofJson? (json : Json) : Option AccessWidth :=
  spelling.read? json

end AccessWidth

namespace Extension

def spelling : Spelling Extension :=
  [(sign, "Sign"), (zero, "Zero")]

end Extension

namespace Condition

def spelling : Spelling Condition :=
  [(equal, "Eq"), (notEqual, "Ne"), (less, "Lt"), (greaterEqual, "Ge"), (lessUnsigned, "Ltu"),
    (greaterEqualUnsigned, "Geu")]

end Condition

namespace AluOperation

def spelling : Spelling AluOperation :=
  [(addW, "AddW"), (subW, "SubW"), (slt, "Slt"), (sltu, "Sltu"), (nor, "Nor"), (and, "And"),
    (or, "Or"), (xor, "Xor"), (sllW, "SllW"), (srlW, "SrlW"), (sraW, "SraW"), (addiW, "AddiW"),
    (slti, "Slti"), (sltui, "Sltui"), (andi, "Andi"), (ori, "Ori"), (xori, "Xori"),
    (slliW, "SlliW"), (srliW, "SrliW"), (sraiW, "SraiW")]

end AluOperation

namespace MulDivOperation

def spelling : Spelling MulDivOperation :=
  [(mulW, "MulW"), (mulhW, "MulhW"), (mulhWu, "MulhWu"), (divW, "DivW"), (modW, "ModW"),
    (divWu, "DivWu"), (modWu, "ModWu")]

end MulDivOperation

namespace Format

def spelling : Spelling Format :=
  [(reg3, "Reg3"), (reg2Si12, "Reg2Si12"), (reg2Ui12, "Reg2Ui12"), (reg2Si16, "Reg2Si16"),
    (reg1Si20, "Reg1Si20"), (si26, "Si26"), (reg2Ui5, "Reg2Ui5"), (hint16, "Hint16"),
    (bare, "Bare")]

def toJson (format : Format) : Json :=
  spelling.write format

def ofJson? (json : Json) : Option Format :=
  spelling.read? json

end Format

namespace Operation

def spelling : Spelling Operation :=
  [(pcaddu12i, "Pcaddu12i"), (lu12iW, "Lu12iW"), (jump, "B"), (call, "Bl"),
    (jumpRegister, "Jirl"), (dataBarrier, "Dbar"), (instructionBarrier, "Ibar"),
    (breakpoint, "Break"), (invalid, "Inv")]

def toJson : Operation → Json
  | alu operation => .carrying "Alu" (AluOperation.spelling.write operation)
  | mulDiv operation => .carrying "MulDiv" (MulDivOperation.spelling.write operation)
  | load width extension =>
    .carrying "Load" (.array [width.toJson, Extension.spelling.write extension])
  | store width => .carrying "Store" width.toJson
  | branch condition => .carrying "Branch" (Condition.spelling.write condition)
  | operation => spelling.write operation

def ofCarrying? : String → Json → Option Operation
  | "Alu", value => (AluOperation.spelling.read? value).map alu
  | "MulDiv", value => (MulDivOperation.spelling.read? value).map mulDiv
  | "Load", .array [width, extension] =>
    (AccessWidth.ofJson? width).bind fun width =>
      (Extension.spelling.read? extension).map (load width)
  | "Store", value => (AccessWidth.ofJson? value).map store
  | "Branch", value => (Condition.spelling.read? value).map branch
  | _, _ => none

def ofJson? (json : Json) : Option Operation :=
  spelling.read? json <|> json.carrying?.bind fun (name, value) => ofCarrying? name value

end Operation

namespace Effects

def toJson (effects : Effects) : Json :=
  .ofString effects.text

def ofJson? (json : Json) : Option Effects :=
  json.string?.bind ofText?

end Effects

namespace Instruction

def fieldNames : List String :=
  ["op", "format", "raw", "rd", "rj", "rk", "imm"]

def toJson (instruction : Instruction) : Json :=
  .record [
    ("op", instruction.operation.toJson),
    ("format", instruction.format.toJson),
    ("raw", .ofWord instruction.raw),
    ("rd", .natural instruction.rd.toNat),
    ("rj", .natural instruction.rj.toNat),
    ("rk", .natural instruction.rk.toNat),
    ("imm", .ofWord instruction.immediate)]

def ofJson? (json : Json) : Option Instruction := do
  let fields ← json.record? fieldNames
  let operation ← Json.field? fields "op" Operation.ofJson?
  let format ← Json.field? fields "format" Format.ofJson?
  let raw ← Json.field? fields "raw" Json.word?
  let rd ← Json.field? fields "rd" Json.byte?
  let rj ← Json.field? fields "rj" Json.byte?
  let rk ← Json.field? fields "rk" Json.byte?
  let immediate ← Json.field? fields "imm" Json.word?
  return ⟨operation, format, raw, rd, rj, rk, immediate⟩

end Instruction
end LoongArch
