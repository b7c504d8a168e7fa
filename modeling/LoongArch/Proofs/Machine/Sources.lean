import LoongArch.Proofs.Machine.Step

/-!
# What an instruction depends on

An instruction depends on the registers that its encoding names as sources, and on no others. Two
machines that differ in other registers only carry it out alike: one description of what it changes fits
both.
-/

set_option autoImplicit false

namespace LoongArch

namespace Instruction

variable (instruction : Instruction)

def formatSources : List Register :=
  (if instruction.format.readsFirst then [.ofByte instruction.rj] else []) ++
    if instruction.format.readsSecond then [.ofByte instruction.rk] else []

/-- The registers that an instruction reads. Two instructions have a format with a first source and
ignore it, since their immediate takes its place. Stores and branches read the register that other
instructions write. -/
def sources : List Register :=
  match instruction.operation with
  | .lu12iW | .pcaddu12i => []
  | .store _ | .branch _ => instruction.formatSources ++ [.ofByte instruction.rd]
  | .breakpoint => instruction.formatSources ++ [.argument]
  | _ => instruction.formatSources

theorem format_sources_subset
    (general : instruction.operation ≠ .lu12iW ∧ instruction.operation ≠ .pcaddu12i) :
    instruction.formatSources ⊆ instruction.sources := by
  obtain ⟨upper, upperAddress⟩ := general
  unfold sources
  split
  · contradiction
  · contradiction
  · exact List.subset_append_left ..
  · exact List.subset_append_left ..
  · exact List.subset_append_left ..
  · exact List.Subset.refl _

end Instruction

/-- What an instruction makes of a machine, told without the machine's registers. -/
structure Change where
  register : Option (Register × Word) := none
  memory : Memory
  next : Word
  trap : Option Trap := none

def Change.apply (change : Change) (machine : Machine) : Executed where
  machine :=
    match change.register with
    | none => { machine with memory := change.memory }
    | some (target, value) => { machine.setRegister target value with memory := change.memory }
  cursor := { machine.cursor with next := change.next }
  trap := change.trap

def Change.stepped (change : Change) (machine : Machine) : Stepped where
  machine := ((change.apply machine).machine.setRegister .zero 0).setPc
    (if change.trap.isNone then change.next else machine.cpu.pc)
  trap := change.trap

namespace Machine

def withRegisters (machine : Machine) (registers : RegisterFile) : Machine :=
  { machine with cpu.registers := registers }

section WithRegisters

variable (machine : Machine) (registers : RegisterFile)

@[simp] theorem register_with_registers (register : Register) :
    (machine.withRegisters registers).register register = registers.read register := rfl

@[simp] theorem cpu_with_registers :
    (machine.withRegisters registers).cpu = { machine.cpu with registers } := rfl

@[simp] theorem memory_with_registers :
    (machine.withRegisters registers).memory = machine.memory := rfl

end WithRegisters

section Sources

variable {machine : Machine} {registers : RegisterFile} {instruction : Instruction}
  (agree : ∀ register ∈ instruction.sources, registers.read register = machine.register register)
include agree

theorem fetch_of_agree
    (general : instruction.operation ≠ .lu12iW ∧ instruction.operation ≠ .pcaddu12i) :
    Operands.fetch registers instruction = Operands.fetch machine.cpu.registers instruction := by
  have named := instruction.format_sources_subset general
  simp only [Operands.fetch, Operands.mk.injEq, true_and, and_true]
  constructor
  · split
    next reads => exact agree _ (named (by simp [Instruction.formatSources, reads]))
    next => rfl
  · split
    next reads => exact agree _ (named (by simp [Instruction.formatSources, reads]))
    next => rfl

theorem destination_of_agree
    (operation : (∃ width, instruction.operation = .store width) ∨
      ∃ condition, instruction.operation = .branch condition) :
    registers.read (Operands.fetch machine.cpu.registers instruction).destination =
      machine.register (Operands.fetch machine.cpu.registers instruction).destination := by
  have source : Register.ofByte instruction.rd ∈ instruction.sources := by
    unfold Instruction.sources
    rcases operation with ⟨width, operation⟩ | ⟨condition, operation⟩ <;> simp [operation]
  exact agree _ source

theorem argument_of_agree (operation : instruction.operation = .breakpoint) :
    registers.read .argument = machine.register .argument := by
  apply agree
  unfold Instruction.sources
  simp [operation]

/-- One change is what an instruction makes of a machine whichever values its other registers have. -/
theorem exists_change : ∃ change : Change,
    machine.execute machine.cursor instruction = change.apply machine ∧
    (machine.withRegisters registers).execute machine.cursor instruction =
      change.apply (machine.withRegisters registers) := by
  have fetch := fetch_of_agree agree
  have destination := destination_of_agree agree
  unfold execute
  simp only [register_with_registers, cpu_with_registers, memory_with_registers]
  cases operation : instruction.operation with
  | pcaddu12i | lu12iW | call =>
    exact ⟨{ register := some (_, _), memory := machine.memory, next := _ }, rfl, rfl⟩
  | jump | dataBarrier | instructionBarrier =>
    exact ⟨{ memory := machine.memory, next := _ }, rfl, rfl⟩
  | invalid =>
    exact ⟨{ memory := machine.memory, next := _, trap := some _ }, rfl, rfl⟩
  | breakpoint =>
    simp only [argument_of_agree agree operation]
    exact ⟨{ memory := machine.memory, next := _, trap := some _ }, rfl, rfl⟩
  | alu | jumpRegister =>
    simp only [fetch (by simp [operation])]
    exact ⟨{ register := some (_, _), memory := machine.memory, next := _ }, rfl, rfl⟩
  | mulDiv | load =>
    simp only [fetch (by simp [operation])]
    split
    · exact ⟨{ register := some (_, _), memory := machine.memory, next := _ }, rfl, rfl⟩
    · exact ⟨{ memory := machine.memory, next := _, trap := some _ }, rfl, rfl⟩
  | store width =>
    simp only [fetch (by simp [operation]), destination (.inl ⟨width, operation⟩)]
    split
    · exact ⟨{ memory := machine.memory.put _ _, next := _ }, rfl, rfl⟩
    · exact ⟨{ memory := machine.memory, next := _, trap := some _ }, rfl, rfl⟩
  | branch condition =>
    simp only [fetch (by simp [operation]), destination (.inr ⟨condition, operation⟩)]
    split <;> exact ⟨{ memory := machine.memory, next := _ }, rfl, rfl⟩

end Sources

/-- Both machines know all that an instruction depends on: the same program counter, configuration and
memory, and the same values in the registers that it reads. -/
structure AgreesOnSources (left right : Machine) (instruction : Instruction) : Prop where
  pc : left.cpu.pc = right.cpu.pc
  config : left.cpu.config = right.cpu.config
  memory : left.memory = right.memory
  sources : ∀ register ∈ instruction.sources, left.register register = right.register register

/-- The next steps of two machines end in the same way, at the same place and with the same memory, and
write the same value to the same register, if they write any. -/
structure StepsAlike (left right : Machine) : Prop where
  trap : left.step.trap = right.step.trap
  pc : left.step.machine.cpu.pc = right.step.machine.cpu.pc
  memory : left.step.machine.memory = right.step.machine.memory
  registers : ∀ register,
    left.step.machine.register register = left.register register ∧
        right.step.machine.register register = right.register register ∨
      left.step.machine.register register = right.step.machine.register register

theorem AgreesOnSources.eq_with_registers {left right : Machine} {instruction : Instruction}
    (agree : left.AgreesOnSources right instruction) :
    right = left.withRegisters right.cpu.registers := by
  obtain ⟨⟨pc, registers, config⟩, memory⟩ := right
  simp only [withRegisters, agree.pc, agree.config, agree.memory]

theorem step_of_change {machine : Machine} {word : Word} {change : Change}
    (fetched : machine.memory.readWord machine.cpu.pc 4 = .ok word)
    (executed : machine.execute machine.cursor (Instruction.decode word) = change.apply machine) :
    machine.step = change.stepped machine := by
  obtain ⟨register, memory, next, trap⟩ := change
  unfold cursor at executed
  simp only [step, Memory.fetch, fetched, executed]
  cases trap with
  | none => rfl
  | some trap => cases register <;> rfl

theorem memory_stepped (change : Change) (machine : Machine) :
    (change.stepped machine).machine.memory = change.memory := by
  obtain ⟨register, memory, next, trap⟩ := change
  cases register <;> rfl

theorem register_stepped (change : Change) (machine : Machine) (register : Register) :
    (change.stepped machine).machine.register register =
      if register = .zero then 0
      else match change.register with
        | none => machine.register register
        | some (target, value) => if register = target then value else machine.register register := by
  obtain ⟨written, memory, next, trap⟩ := change
  simp only [Change.stepped, register_set_pc, register_set_register]
  cases written with
  | none => rfl
  | some written =>
    obtain ⟨target, value⟩ := written
    have general := machine.register_set_register target register value
    exact congrArg (ite (register = .zero) 0) general

/-- Two machines that agree on the sources of the instruction at their program counter step alike,
whatever their other registers hold. -/
theorem step_depends_on_sources (left right : Machine) (word : Word)
    (fetched : left.memory.readWord left.cpu.pc 4 = .ok word)
    (agree : left.AgreesOnSources right (Instruction.decode word)) : left.StepsAlike right := by
  have sources : ∀ register ∈ (Instruction.decode word).sources,
      right.cpu.registers.read register = left.register register := by
    intro register source
    exact (agree.sources register source).symm
  obtain ⟨change, own, other⟩ := exists_change sources
  have same : left.cursor = right.cursor := by rw [cursor, cursor, agree.pc]
  rw [← agree.eq_with_registers, same] at other
  have leftStep := step_of_change fetched own
  rw [agree.memory, agree.pc] at fetched
  have rightStep := step_of_change fetched other
  constructor
  case trap => rw [leftStep, rightStep]; rfl
  case pc =>
    rw [leftStep, rightStep, Change.stepped, Change.stepped, agree.pc]
    rfl
  case memory => rw [leftStep, rightStep, memory_stepped, memory_stepped]
  case registers =>
    intro register
    rw [leftStep, rightStep, register_stepped, register_stepped]
    by_cases cleared : register = .zero
    · exact .inr (by rw [if_pos cleared, if_pos cleared])
    · rw [if_neg cleared, if_neg cleared]
      cases change.register with
      | none => exact .inl ⟨rfl, rfl⟩
      | some written =>
        by_cases target : register = written.1
        · exact .inr (by simp only [if_pos target])
        · exact .inl ⟨if_neg target, if_neg target⟩

/-- A program that loads an upper immediate. Its immediate covers the bits that name register 7. -/
def loadingUpper (seventh : Word) : Machine where
  cpu := { pc := 0, registers := RegisterFile.cleared.write (.ofByte 7) seventh, config := {} }
  memory := ⟨0, ⟨#[0xE6, 0x00, 0x00, 0x14]⟩⟩

/-- The value of register 7 does not reach register 6. -/
theorem loading_upper_ignores_register :
    let left := loadingUpper 1
    let right := loadingUpper 2
    left.memory.readWord left.cpu.pc 4 = .ok 0x140000E6 ∧
    left.AgreesOnSources right (Instruction.decode 0x140000E6) ∧
    left.register (.ofByte 7) ≠ right.register (.ofByte 7) ∧ left.StepsAlike right ∧
    left.step.machine.register (.ofByte 6) = right.step.machine.register (.ofByte 6) ∧
    left.step.machine.register (.ofByte 6) = 0x7000 := by
  have fetched : (loadingUpper 1).memory.readWord (loadingUpper 1).cpu.pc 4 = .ok 0x140000E6 :=
    Memory.read_word_ok_iff.mpr (by decide +kernel)
  have unread : (Instruction.decode 0x140000E6).sources = [] := by decide +kernel
  have agree : (loadingUpper 1).AgreesOnSources (loadingUpper 2) (Instruction.decode 0x140000E6) :=
    ⟨rfl, rfl, rfl, by simp [unread]⟩
  have alike := step_depends_on_sources (loadingUpper 1) (loadingUpper 2) 0x140000E6 fetched agree
  have value : (loadingUpper 1).step.machine.register (.ofByte 6) = 0x7000 := by decide +kernel
  refine ⟨fetched, agree, by decide +kernel, alike, ?_, value⟩
  rcases alike.registers (.ofByte 6) with ⟨kept, _⟩ | same
  · rw [value] at kept
    exact absurd kept (by decide +kernel)
  · exact same

end Machine
end LoongArch
