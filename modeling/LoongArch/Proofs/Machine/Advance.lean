import LoongArch.Proofs.Machine.Footprint
import LoongArch.Proofs.Encoding

/-!
# Steps that write at most one register

Most instructions leave memory alone and give a value to one register, or to none. This is stated once
for all of them, so that it only remains to say for each instruction where it goes on and which value
it computes.
-/

set_option autoImplicit false

namespace LoongArch.Machine

/-- A step completes, goes on at `next` and changes nothing but a register, which takes `value`. A
value for register 0 is lost, so that a step with this target changes no register. -/
structure Advances (machine : Machine) (next : Word) (target : Register) (value : Word) : Prop where
  completes : machine.step.trap = none
  pc : machine.step.machine.cpu.pc = next
  config : machine.step.machine.cpu.config = machine.cpu.config
  memory : machine.step.machine.memory = machine.memory
  registers : ∀ register, machine.step.machine.register register =
    if register = target ∧ register ≠ .zero then value else machine.register register

theorem Advances.step_eq {machine : Machine} {next value : Word} {target : Register}
    (advances : machine.Advances next target value) (general : target ≠ .zero) :
    machine.step = ⟨(machine.setRegister target value).setPc next, none⟩ := by
  have registers : machine.step.machine.cpu.registers =
      machine.cpu.registers.write target value := by
    refine Vector.ext fun index small => ?_
    have written := RegisterFile.read_write machine.cpu.registers target ⟨index, small⟩ value
    refine (advances.registers ⟨index, small⟩).trans (Eq.trans ?_ written.symm)
    by_cases same : (⟨index, small⟩ : Register) = target
    · simp [same, general]
    · simp only [same, false_and, if_false]
      rfl
  calc machine.step
    _ = ⟨⟨⟨machine.step.machine.cpu.pc, machine.step.machine.cpu.registers,
          machine.step.machine.cpu.config⟩, machine.step.machine.memory⟩, machine.step.trap⟩ := rfl
    _ = ⟨⟨⟨next, machine.cpu.registers.write target value, machine.cpu.config⟩, machine.memory⟩,
          none⟩ := by
      rw [advances.completes, advances.pc, advances.config, advances.memory, registers]
    _ = ⟨(machine.setRegister target value).setPc next, none⟩ := rfl

section Fetched

variable {machine : Machine} {word next : Word}
  (fetched : machine.memory.readWord machine.cpu.pc 4 = .ok word)
  (zero : machine.register .zero = 0)
include fetched zero

theorem advances_of_written {target : Register} {value : Word}
    (executed : machine.execute machine.cursor (Instruction.decode word) =
      { machine := machine.setRegister target value, cursor := { machine.cursor with next } }) :
    machine.Advances next target value := by
  have stepped := step_of_executed fetched executed
  refine ⟨congrArg Stepped.trap stepped, congrArg (·.machine.cpu.pc) stepped,
    congrArg (·.machine.cpu.config) stepped, congrArg (·.machine.memory) stepped, ?_⟩
  intro register
  rw [stepped, register_set_pc, register_set_register, register_set_register]
  by_cases same : register = .zero
  · simp [same, zero]
  · simp [same]

theorem advances_of_kept
    (executed : machine.execute machine.cursor (Instruction.decode word) =
      { machine, cursor := { machine.cursor with next } }) :
    machine.Advances next .zero 0 := by
  apply advances_of_written fetched zero
  rw [executed, set_register_of_eq zero]

end Fetched

theorem operands_eq (machine : Machine) {word : Word} {format : Format}
    (selected : (InstructionSet.lookup word).format = format) :
    machine.operands (Instruction.decode word) =
      { destination := word.registerAt 0
        first := if format.readsFirst then machine.register (word.registerAt 5) else 0
        second := if format.readsSecond then machine.register (word.registerAt 10) else 0
        immediate := format.immediate word } := by
  obtain ⟨destination, first, second⟩ := Instruction.registers_eq word
  subst selected
  rw [← destination, ← first, ← second]
  rfl

end LoongArch.Machine
