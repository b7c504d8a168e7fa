import LoongArch.Proofs.Arithmetic
import LoongArch.Proofs.Machine.Advance

/-!
# Integer instructions

What a step does that finds an integer instruction at the program counter. The instructions are named as
in the instruction set, and the result is the number that the name stands for; so the statement spans the
fetch, the choice of a template, the fields of the word and the operation.
-/

set_option autoImplicit false

namespace LoongArch

def AluOperation.name : AluOperation → String
  | addW => "add.w"
  | subW => "sub.w"
  | slt => "slt"
  | sltu => "sltu"
  | nor => "nor"
  | and => "and"
  | or => "or"
  | xor => "xor"
  | sllW => "sll.w"
  | srlW => "srl.w"
  | sraW => "sra.w"
  | addiW => "addi.w"
  | slti => "slti"
  | sltui => "sltui"
  | andi => "andi"
  | ori => "ori"
  | xori => "xori"
  | slliW => "slli.w"
  | srliW => "srli.w"
  | sraiW => "srai.w"

theorem AluOperation.described (operation : AluOperation) :
    InstructionSet.describe (.alu operation) ∈ InstructionSet.known ∧
      (InstructionSet.describe (.alu operation)).mnemonic = operation.name ∧
      (InstructionSet.describe (.alu operation)).format = operation.format := by
  cases operation <;> decide

namespace Machine

theorem execute_alu (machine : Machine) {instruction : Instruction} {operation : AluOperation}
    (selected : instruction.operation = .alu operation) :
    let operands := machine.operands instruction
    machine.execute machine.cursor instruction =
      { machine := machine.setRegister operands.destination
          (operation.apply operands.first operands.second operands.immediate),
        cursor := machine.cursor } := by
  unfold execute
  simp only [selected]
  rfl

section Upper

variable (machine : Machine) {instruction : Instruction}

theorem execute_lu12i (selected : instruction.operation = .lu12iW) :
    let operands := machine.operands instruction
    machine.execute machine.cursor instruction =
      { machine := machine.setRegister operands.destination (operands.immediate <<< 12),
        cursor := machine.cursor } := by
  unfold execute
  simp only [selected]
  rfl

theorem execute_pcaddu12i (selected : instruction.operation = .pcaddu12i) :
    let operands := machine.operands instruction
    machine.execute machine.cursor instruction =
      { machine := machine.setRegister operands.destination
          (machine.cpu.pc + operands.immediate <<< 12),
        cursor := machine.cursor } := by
  unfold execute
  simp only [selected]
  rfl

end Upper

section Fetched

variable {machine : Machine} {word : Word}
  (fetched : machine.memory.readWord machine.cpu.pc 4 = .ok word)
  (zero : machine.register .zero = 0)
include fetched zero

theorem advances_of_alu {operation : AluOperation} (encodes : word.Encodes operation.name) :
    machine.Advances (machine.cpu.pc + 4) (word.registerAt 0)
      (.ofInt (operation.number (machine.register (word.registerAt 5))
        (machine.register (word.registerAt 10)) word)) := by
  obtain ⟨listed, named, formatted⟩ := operation.described
  obtain ⟨selected, format⟩ := encodes.selects ⟨listed, named⟩
  have reads : operation.format.readsFirst = true := by cases operation <;> rfl
  apply advances_of_written fetched zero
  rw [machine.execute_alu selected, machine.operands_eq (format.trans formatted), if_pos reads,
    operation.apply_eq]
  rfl

theorem advances_of_lu12i (encodes : word.Encodes "lu12i.w") :
    machine.Advances (machine.cpu.pc + 4) (word.registerAt 0)
      (.ofInt (word.signedAt 5 20 * 2 ^ 12)) := by
  have described : InstructionSet.describe .lu12iW ∈ InstructionSet.known ∧
      (InstructionSet.describe .lu12iW).mnemonic = "lu12i.w" := by decide
  obtain ⟨selected, format⟩ := encodes.selects described
  apply advances_of_written fetched zero
  rw [machine.execute_lu12i selected, machine.operands_eq format, ← Format.upper_immediate]
  rfl

theorem advances_of_pcaddu12i (encodes : word.Encodes "pcaddu12i") :
    machine.Advances (machine.cpu.pc + 4) (word.registerAt 0)
      (.ofInt (machine.cpu.pc.toNat + word.signedAt 5 20 * 2 ^ 12)) := by
  have described : InstructionSet.describe .pcaddu12i ∈ InstructionSet.known ∧
      (InstructionSet.describe .pcaddu12i).mnemonic = "pcaddu12i" := by decide
  obtain ⟨selected, format⟩ := encodes.selects described
  apply advances_of_written fetched zero
  rw [machine.execute_pcaddu12i selected, machine.operands_eq format, ← Word.add_of_int,
    ← Format.upper_immediate]
  rfl

end Fetched

/-- A step that finds an integer instruction completes, goes on with the following instruction, and
gives its destination the number that the name of the instruction and the fields of its word stand for.
Nothing else changes. -/
theorem integer_instructions_compute (machine : Machine) (word : Word)
    (zero : machine.register .zero = 0)
    (fetched : machine.memory.readWord machine.cpu.pc 4 = .ok word) :
    let pc := machine.cpu.pc
    let destination := word.registerAt 0
    let first := machine.register (word.registerAt 5)
    let second := machine.register (word.registerAt 10)
    (∀ operation : AluOperation, word.Encodes operation.name →
      machine.Advances (pc + 4) destination (.ofInt (operation.number first second word))) ∧
    (word.Encodes "lu12i.w" →
      machine.Advances (pc + 4) destination (.ofInt (word.signedAt 5 20 * 2 ^ 12))) ∧
    (word.Encodes "pcaddu12i" →
      machine.Advances (pc + 4) destination
        (.ofInt (pc.toNat + word.signedAt 5 20 * 2 ^ 12))) :=
  ⟨fun _ => advances_of_alu fetched zero, advances_of_lu12i fetched zero,
    advances_of_pcaddu12i fetched zero⟩

def shifting : Machine where
  cpu := { Cpu.ofConfig { resetPc := 0 } with
    registers := RegisterFile.cleared.write .argument 0x80000000 }
  memory := ⟨0, ⟨#[0x84, 0xC4, 0x48, 0x00]⟩⟩

/-- The sign is copied into the upper bits, and the amount of 17 is not read as negative. -/
theorem shifting_computes :
    shifting.register .zero = 0 ∧
    shifting.memory.readWord shifting.cpu.pc 4 = .ok 0x0048C484 ∧
    Word.Encodes 0x0048C484 AluOperation.sraiW.name ∧
    shifting.step.trap = none ∧ shifting.step.machine.cpu.pc = 4 ∧
    shifting.step.machine.register .argument = 0xFFFFC000 := by
  have zero : shifting.register .zero = 0 := by decide
  have fetched : shifting.memory.readWord shifting.cpu.pc 4 = .ok 0x0048C484 := by decide
  have encodes : Word.Encodes 0x0048C484 AluOperation.sraiW.name :=
    ⟨InstructionSet.describe (.alu .sraiW), by decide, by decide, by decide⟩
  obtain ⟨computes, _⟩ := integer_instructions_compute shifting 0x0048C484 zero fetched
  have advances := computes .sraiW encodes
  refine ⟨zero, fetched, encodes, advances.completes, advances.pc, ?_⟩
  rw [advances.registers]
  decide

end Machine
end LoongArch
