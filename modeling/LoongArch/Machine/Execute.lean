import LoongArch.Instruction
import LoongArch.Machine.State

/-!
# Carrying out one instruction

Sources are read before anything is written. An instruction that traps changes nothing: every access
is checked before it is made.
-/

set_option autoImplicit false

namespace LoongArch

structure Operands where
  destination : Register
  first : Word
  second : Word
  immediate : Word
deriving DecidableEq, Repr

/-- The operands that an instruction names. A source that its format does not read is zero. -/
def Operands.fetch (registers : RegisterFile) (instruction : Instruction) : Operands where
  destination := .ofByte instruction.rd
  first :=
    if instruction.format.readsFirst then registers.read (.ofByte instruction.rj) else 0
  second :=
    if instruction.format.readsSecond then registers.read (.ofByte instruction.rk) else 0
  immediate := instruction.immediate

structure Cursor where
  pc : Word
  sequential : Word
  /-- Where to go on: the following instruction, unless something leads elsewhere. -/
  next : Word := sequential
deriving DecidableEq, Repr

def Cursor.branch (cursor : Cursor) (distance : Word) : Cursor :=
  { cursor with next := cursor.pc + distance }

def Extension.apply (extension : Extension) (width : AccessWidth) (value : Word) : Word :=
  match extension with
  | sign => value.signExtend (UInt32.ofNat (8 * width.bytes))
  | zero => value

structure Executed where
  machine : Machine
  cursor : Cursor
  trap : Option Trap := none

namespace Machine

def execute (machine : Machine) (cursor : Cursor) (instruction : Instruction) : Executed :=
  let operands := Operands.fetch machine.cpu.registers instruction
  let destination := operands.destination
  let address := operands.first + operands.immediate
  let distance := operands.immediate <<< 2
  match instruction.operation with
  | .alu operation =>
    let value := operation.apply operands.first operands.second operands.immediate
    { machine := machine.setRegister destination value, cursor }
  | .mulDiv operation =>
    match operation.apply operands.first operands.second machine.cpu.config.divideByZero with
    | some value => { machine := machine.setRegister destination value, cursor }
    | none => { machine, cursor, trap := some (.divideByZero cursor.pc) }
  | .pcaddu12i =>
    { machine := machine.setRegister destination (cursor.pc + operands.immediate <<< 12), cursor }
  | .lu12iW => { machine := machine.setRegister destination (operands.immediate <<< 12), cursor }
  | .load width extension =>
    match machine.memory.readWord address width.bytes with
    | .ok value =>
      { machine := machine.setRegister destination (extension.apply width value), cursor }
    | .error fault => { machine, cursor, trap := some (.bus address fault) }
  | .store width =>
    if machine.memory.Covers address width.bytes then
      let bytes := Word.toBytes width.bytes (machine.register destination)
      { machine := { machine with memory := machine.memory.put address bytes }, cursor }
    else
      { machine, cursor, trap := some (.bus address (machine.memory.fault address width.bytes)) }
  | .jump => { machine, cursor := cursor.branch distance }
  | .call =>
    { machine := machine.setRegister .returnAddress cursor.sequential,
      cursor := cursor.branch distance }
  | .jumpRegister =>
    { machine := machine.setRegister destination cursor.sequential,
      cursor := { cursor with next := operands.first + distance } }
  | .branch condition =>
    if condition.holds operands.first (machine.register destination) then
      { machine, cursor := cursor.branch distance }
    else { machine, cursor }
  | .dataBarrier | .instructionBarrier => { machine, cursor }
  | .breakpoint =>
    { machine, cursor, trap := some (.breakpoint cursor.pc (machine.register .argument)) }
  | .invalid => { machine, cursor, trap := some (.invalidInstruction cursor.pc) }

end Machine
end LoongArch
