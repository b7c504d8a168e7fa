import LoongArch.Proofs.Assembly
import LoongArch.Proofs.AddressText
import LoongArch.Proofs.Machine.Advance

/-!
# Control transfers

Where a step goes on that finds a jump, a call or a branch at the program counter, and the address that
assembly text shows for it. Offsets are signed and count instructions of four bytes; targets wrap around
at both ends of the address space. A jump through a register reads its target before it links.
-/

set_option autoImplicit false

namespace LoongArch

/-- The offset of the jumps that have no registers: its ten high bits lie lowest in the word. -/
def Word.longOffset (word : Word) : Int :=
  Int.bmod (word.toNat % 2 ^ 10 * 2 ^ 16 + word.unsignedAt 10 16 : Nat) (2 ^ 26)

def Condition.name : Condition → String
  | equal => "beq"
  | notEqual => "bne"
  | less => "blt"
  | greaterEqual => "bge"
  | lessUnsigned => "bltu"
  | greaterEqualUnsigned => "bgeu"

theorem Condition.described (condition : Condition) :
    InstructionSet.describe (.branch condition) ∈ InstructionSet.known ∧
      (InstructionSet.describe (.branch condition)).mnemonic = condition.name ∧
      (InstructionSet.describe (.branch condition)).format = .reg2Si16 := by
  cases condition <;> decide

theorem Format.distance_eq (format : Format) (word : Word) :
    format.immediate word <<< 2 =
      .ofInt (4 * Int.bmod (format.field word) (2 ^ format.immediateBits)) := by
  have two : (2 : Word).toNat = 2 := rfl
  rw [immediate_eq, Word.shift_left_of_int _ _ two (by decide), Int.mul_comm]
  rfl

theorem Instruction.target_eq {word : Word} {format : Format}
    (selected : (InstructionSet.lookup word).format = format) (pc : Word) :
    (decode word).target pc =
      .ofInt (pc.toNat + 4 * Int.bmod (format.field word) (2 ^ format.immediateBits)) := by
  subst selected
  rw [← Word.add_of_int, ← Format.distance_eq]
  rfl

namespace Machine

section Execute

variable (machine : Machine) {instruction : Instruction}

theorem execute_jump (selected : instruction.operation = .jump) :
    machine.execute machine.cursor instruction =
      { machine, cursor := { machine.cursor with next := instruction.target machine.cpu.pc } } := by
  unfold execute
  simp only [selected]
  rfl

theorem execute_call (selected : instruction.operation = .call) :
    machine.execute machine.cursor instruction =
      { machine := machine.setRegister .returnAddress (machine.cpu.pc + 4),
        cursor := { machine.cursor with next := instruction.target machine.cpu.pc } } := by
  unfold execute
  simp only [selected]
  rfl

theorem execute_jump_register (selected : instruction.operation = .jumpRegister) :
    let operands := machine.operands instruction
    machine.execute machine.cursor instruction =
      { machine := machine.setRegister operands.destination (machine.cpu.pc + 4),
        cursor := { machine.cursor with next := operands.first + operands.immediate <<< 2 } } := by
  unfold execute
  simp only [selected]
  rfl

theorem execute_branch {condition : Condition} (selected : instruction.operation = .branch condition) :
    let operands := machine.operands instruction
    machine.execute machine.cursor instruction =
      { machine,
        cursor := { machine.cursor with
          next := if condition.Compares operands.first (machine.register operands.destination) then
              instruction.target machine.cpu.pc
            else machine.cpu.pc + 4 } } := by
  intro operands
  by_cases compares : condition.Compares operands.first (machine.register operands.destination)
  · have taken := (condition.holds_iff _ _).mpr compares
    rw [if_pos compares]
    unfold execute
    simp only [selected]
    exact if_pos taken
  · have untaken := (condition.holds_iff _ _).not.mpr compares
    rw [if_neg compares]
    unfold execute
    simp only [selected]
    exact if_neg untaken

end Execute

end Machine

namespace Instruction

/-- A text is `lead` followed by an address in hexadecimal, which reads as the address given. -/
def Shows (text lead : String) (address : Word) : Prop :=
  text = lead ++ Numeral.hex address.toNat ∧ Numeral.word? (Numeral.hex address.toNat) = some address

theorem text_of_named {instruction : Instruction} {operation : Operation} {name : String}
    (selected : instruction.operation = operation) (valid : operation ≠ .invalid)
    (named : (InstructionSet.describe operation).mnemonic = name) (pc : Word) :
    instruction.text pc = name ++ " " ++ instruction.operandText pc := by
  rw [text_eq, selected, Operation.head_of_valid valid, named]

theorem shows_hex (lead : String) (address : Word) :
    Shows (lead ++ Numeral.hex address.toNat) lead address :=
  ⟨rfl, Numeral.word_hex_digits 1 address⟩

end Instruction

namespace Machine

section Fetched

variable {machine : Machine} {word : Word}
  (fetched : machine.memory.readWord machine.cpu.pc 4 = .ok word)
  (zero : machine.register .zero = 0)
include fetched zero

theorem jump_reaches_target (encodes : word.Encodes "b") :
    let target : Word := .ofInt (machine.cpu.pc.toNat + 4 * word.longOffset)
    machine.Advances target .zero 0 ∧
      Instruction.Shows ((Instruction.decode word).text machine.cpu.pc) "b " target := by
  have described : InstructionSet.describe .jump ∈ InstructionSet.known ∧
      (InstructionSet.describe .jump).mnemonic = "b" := by decide
  obtain ⟨selected, format⟩ := encodes.selects described
  have target := Instruction.target_eq format machine.cpu.pc
  constructor
  · apply advances_of_kept fetched zero
    rw [machine.execute_jump selected, target]
    rfl
  · rw [Instruction.text_of_named selected nofun described.2]
    simp only [Instruction.operandText, selected, target]
    exact Instruction.shows_hex ..

theorem call_reaches_target (encodes : word.Encodes "bl") :
    let target : Word := .ofInt (machine.cpu.pc.toNat + 4 * word.longOffset)
    machine.Advances target .returnAddress (machine.cpu.pc + 4) ∧
      Instruction.Shows ((Instruction.decode word).text machine.cpu.pc) "bl " target := by
  have described : InstructionSet.describe .call ∈ InstructionSet.known ∧
      (InstructionSet.describe .call).mnemonic = "bl" := by decide
  obtain ⟨selected, format⟩ := encodes.selects described
  have target := Instruction.target_eq format machine.cpu.pc
  constructor
  · apply advances_of_written fetched zero
    rw [machine.execute_call selected, target]
    rfl
  · rw [Instruction.text_of_named selected nofun described.2]
    simp only [Instruction.operandText, selected, target]
    exact Instruction.shows_hex ..

theorem jump_register_reaches_target (encodes : word.Encodes "jirl") :
    machine.Advances
      (.ofInt ((machine.register (word.registerAt 5)).toNat + 4 * word.signedAt 10 16))
      (word.registerAt 0) (machine.cpu.pc + 4) := by
  have described : InstructionSet.describe .jumpRegister ∈ InstructionSet.known ∧
      (InstructionSet.describe .jumpRegister).mnemonic = "jirl" := by decide
  have formatted : (InstructionSet.describe .jumpRegister).format = .reg2Si16 := by decide
  obtain ⟨selected, format⟩ := encodes.selects described
  have offset : Format.immediate .reg2Si16 word <<< 2 = .ofInt (4 * word.signedAt 10 16) :=
    Format.distance_eq ..
  apply advances_of_written fetched zero
  -- The operands are those of the state before the link, also where both registers are the same.
  rw [machine.execute_jump_register selected, machine.operands_eq (format.trans formatted),
    ← Word.add_of_int, ← offset]
  rfl

theorem branch_reaches_target {condition : Condition} (encodes : word.Encodes condition.name) :
    let first := machine.register (word.registerAt 5)
    let second := machine.register (word.registerAt 0)
    let target : Word := .ofInt (machine.cpu.pc.toNat + 4 * word.signedAt 10 16)
    machine.Advances (if condition.Compares first second then target else machine.cpu.pc + 4)
      .zero 0 ∧
    Instruction.Shows ((Instruction.decode word).text machine.cpu.pc)
      (condition.name ++ " " ++ (word.registerAt 5).text ++ ", " ++ (word.registerAt 0).text ++ ", ")
      target := by
  obtain ⟨listed, named, formatted⟩ := condition.described
  obtain ⟨selected, format⟩ := encodes.selects ⟨listed, named⟩
  have target := Instruction.target_eq (format.trans formatted) machine.cpu.pc
  constructor
  · apply advances_of_kept fetched zero
    rw [machine.execute_branch selected, target, machine.operands_eq (format.trans formatted)]
    rfl
  · obtain ⟨destination, source, _⟩ := Instruction.registers_eq word
    rw [Instruction.text_of_named selected nofun named]
    simp only [Instruction.operandText, selected, target, Instruction.registerText, destination,
      source, ← String.append_assoc]
    exact Instruction.shows_hex ..

end Fetched

/-- A step that finds a jump, a call or a branch completes, and goes on where the offset in its word
leads. Nothing changes but the register that keeps the address of the following instruction. The text of
an instruction with a fixed target shows this target. -/
theorem transfers_reach_targets (machine : Machine) (word : Word)
    (zero : machine.register .zero = 0)
    (fetched : machine.memory.readWord machine.cpu.pc 4 = .ok word) :
    let pc := machine.cpu.pc
    let first := machine.register (word.registerAt 5)
    let second := machine.register (word.registerAt 0)
    let text := (Instruction.decode word).text pc
    let far : Word := .ofInt (pc.toNat + 4 * word.longOffset)
    let near : Word := .ofInt (pc.toNat + 4 * word.signedAt 10 16)
    (word.Encodes "b" → machine.Advances far .zero 0 ∧ Instruction.Shows text "b " far) ∧
    (word.Encodes "bl" →
      machine.Advances far .returnAddress (pc + 4) ∧ Instruction.Shows text "bl " far) ∧
    (word.Encodes "jirl" →
      machine.Advances (.ofInt (first.toNat + 4 * word.signedAt 10 16)) (word.registerAt 0)
        (pc + 4)) ∧
    ∀ condition : Condition, word.Encodes condition.name →
      machine.Advances (if condition.Compares first second then near else pc + 4) .zero 0 ∧
      Instruction.Shows text
        (condition.name ++ " " ++ (word.registerAt 5).text ++ ", " ++ (word.registerAt 0).text ++ ", ")
        near :=
  ⟨jump_reaches_target fetched zero, call_reaches_target fetched zero,
    jump_register_reaches_target fetched zero, fun _ => branch_reaches_target fetched zero⟩

def wrapping : Machine where
  cpu := .ofConfig { resetPc := 0 }
  memory := ⟨0, ⟨#[0x21, 0xF8, 0xFF, 0x4F]⟩⟩

/-- The target lies at the other end of the address space, and the link does not disturb it. -/
theorem wrapping_reaches_target :
    wrapping.register .zero = 0 ∧ wrapping.memory.readWord wrapping.cpu.pc 4 = .ok 0x4FFFF821 ∧
    Word.Encodes 0x4FFFF821 "jirl" ∧
    wrapping.step.trap = none ∧ wrapping.step.machine.cpu.pc = 0xFFFFFFF8 ∧
    wrapping.step.machine.register .returnAddress = 4 := by
  have zero : wrapping.register .zero = 0 := by decide
  have fetched : wrapping.memory.readWord wrapping.cpu.pc 4 = .ok 0x4FFFF821 := by decide
  have encodes : Word.Encodes 0x4FFFF821 "jirl" :=
    ⟨InstructionSet.describe .jumpRegister, by decide, by decide, by decide⟩
  obtain ⟨_, _, reaches, _⟩ := transfers_reach_targets wrapping 0x4FFFF821 zero fetched
  have advances := reaches encodes
  refine ⟨zero, fetched, encodes, advances.completes, ?_, ?_⟩
  · rw [advances.pc]
    decide
  · rw [advances.registers]
    decide

end Machine
end LoongArch
