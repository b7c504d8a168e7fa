import LoongArch.Json.Record
import LoongArch.Machine.State

/-!
# JSON forms of machines

A configuration may leave out fields, which then have their usual values; all other records are
complete.
-/

set_option autoImplicit false

namespace LoongArch

namespace DivideByZeroPolicy

def spelling : Spelling DivideByZeroPolicy :=
  [(trap, "trap"), (saturate, "saturate")]

def toJson (policy : DivideByZeroPolicy) : Json :=
  spelling.write policy

def ofJson? (json : Json) : Option DivideByZeroPolicy :=
  spelling.read? json

end DivideByZeroPolicy

namespace Config

def fieldNames : List String :=
  ["reset_pc", "div_zero"]

def toJson (config : Config) : Json :=
  .record [("reset_pc", .ofWord config.resetPc), ("div_zero", config.divideByZero.toJson)]

def ofJson? (json : Json) : Option Config := do
  let fields ← json.record? fieldNames
  let usual : Config := {}
  let resetPc ← Json.fieldOr? fields "reset_pc" Json.word? usual.resetPc
  let divideByZero ←
    Json.fieldOr? fields "div_zero" DivideByZeroPolicy.ofJson? usual.divideByZero
  return { resetPc, divideByZero }

end Config

namespace RegisterFile

def toJson (file : RegisterFile) : Json :=
  .array (file.toList.map .ofWord)

def ofJson? (json : Json) : Option RegisterFile := do
  let words ← json.items? Json.word?
  if complete : words.length = 32 then
    return ⟨words.toArray, by simpa using complete⟩
  else none

end RegisterFile

namespace Cpu

def fieldNames : List String :=
  ["pc", "gpr", "cfg"]

def toJson (cpu : Cpu) : Json :=
  .record [
    ("pc", .ofWord cpu.pc), ("gpr", cpu.registers.toJson), ("cfg", cpu.config.toJson)]

def ofJson? (json : Json) : Option Cpu := do
  let fields ← json.record? fieldNames
  let pc ← Json.field? fields "pc" Json.word?
  let registers ← Json.field? fields "gpr" RegisterFile.ofJson?
  let config ← Json.field? fields "cfg" Config.ofJson?
  return { pc, registers, config }

end Cpu

namespace Memory

def fieldNames : List String :=
  ["mem", "base"]

def toJson (memory : Memory) : Json :=
  .record [
    ("mem", .array (memory.bytes.toList.map fun byte => .natural byte.toNat)),
    ("base", .ofWord memory.base)]

def ofJson? (json : Json) : Option Memory := do
  let fields ← json.record? fieldNames
  let bytes ← Json.field? fields "mem" (Json.items? Json.byte?)
  let base ← Json.field? fields "base" Json.word?
  return { base, bytes := ⟨bytes.toArray⟩ }

end Memory
end LoongArch
