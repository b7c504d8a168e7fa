import LoongArch.Proofs.Machine.Footprint
import LoongArch.Proofs.MemoryBytes

/-!
# Loads and stores

What a step does that finds a load or a store at the program counter: the address it computes, the
range that it accepts, the number that reaches a register and the bytes that reach memory. The
instructions are named as in the instruction set, so that their widths and extensions are part of what
is proved.
-/

set_option autoImplicit false

namespace LoongArch

namespace InstructionSet

def loads : List (String × AccessWidth × Extension) :=
  [("ld.b", .byte, .sign), ("ld.bu", .byte, .zero), ("ld.h", .half, .sign), ("ld.hu", .half, .zero),
    ("ld.w", .word, .sign)]

def stores : List (String × AccessWidth) :=
  [("st.b", .byte), ("st.h", .half), ("st.w", .word)]

theorem load_of_mem_templates :
    ∀ template ∈ templates, ∀ row ∈ loads, template.mnemonic = row.1 →
      template.operation = .load row.2.1 row.2.2 ∧ template.format = .reg2Si12 := by
  decide

theorem store_of_mem_templates :
    ∀ template ∈ templates, ∀ row ∈ stores, template.mnemonic = row.1 →
      template.operation = .store row.2 ∧ template.format = .reg2Si12 := by
  decide

theorem mem_stores_of_mem_templates :
    ∀ template ∈ templates, ∀ width ∈ [AccessWidth.byte, .half, .word],
      template.operation = .store width → (template.mnemonic, width) ∈ stores := by
  decide

theorem load_of_mem_loads {word : Word} {width : AccessWidth} {extension : Extension}
    (named : ((lookup word).mnemonic, width, extension) ∈ loads) :
    (Instruction.decode word).operation = .load width extension ∧
      (Instruction.decode word).format = .reg2Si12 :=
  load_of_mem_templates _ (lookup_mem_templates word) _ named rfl

theorem store_of_mem_stores {word : Word} {width : AccessWidth}
    (named : ((lookup word).mnemonic, width) ∈ stores) :
    (Instruction.decode word).operation = .store width ∧
      (Instruction.decode word).format = .reg2Si12 :=
  store_of_mem_templates _ (lookup_mem_templates word) _ named rfl

theorem mem_stores_of_store {word : Word} {width : AccessWidth}
    (operation : (Instruction.decode word).operation = .store width) :
    ((lookup word).mnemonic, width) ∈ stores :=
  mem_stores_of_mem_templates _ (lookup_mem_templates word) width (by cases width <;> simp) operation

end InstructionSet

def Extension.number (extension : Extension) (bytes : List UInt8) : Int :=
  match extension with
  | sign => Int.bmod (Word.littleEndian bytes) (2 ^ (8 * bytes.length))
  | zero => Word.littleEndian bytes

theorem Extension.apply_of_bytes (extension : Extension) {width : AccessWidth} {bytes : List UInt8}
    (length : bytes.length = width.bytes) :
    extension.apply width (Word.ofBytes bytes) = .ofInt (extension.number bytes) := by
  have short : bytes.length ≤ 4 := length ▸ width.bytes_le_four
  cases extension with
  | zero =>
    rw [number, ← Word.to_nat_of_bytes short, Word.of_int_to_nat]
    rfl
  | sign =>
    have extended : ((Word.ofBytes bytes).signExtend (.ofNat (8 * width.bytes))).toInt32.toInt =
        Int.bmod (Word.littleEndian bytes) (2 ^ (8 * bytes.length)) := by
      rw [length, ← Word.to_nat_of_bytes short]
      cases width <;> exact Word.to_int_sign_extend _ (by decide) (by decide)
    rw [number, ← extended, Word.of_int_to_int32]
    rfl

namespace Machine

/-- The address that a load or store computes: its base register plus its signed displacement. -/
def accessAddress (machine : Machine) (word : Word) : Word :=
  .ofInt ((machine.register (.ofByte (Instruction.decode word).rj)).toNat +
    Int.bmod (word.toNat / 2 ^ 10 % 2 ^ 12 : Nat) (2 ^ 12))

theorem data_address_eq (machine : Machine) {word : Word}
    (format : (Instruction.decode word).format = .reg2Si12) :
    machine.dataAddress (Instruction.decode word) = machine.accessAddress word := by
  have immediate : (Instruction.decode word).immediate =
      .ofInt (Int.bmod (word.toNat / 2 ^ 10 % 2 ^ 12 : Nat) (2 ^ 12)) := by
    change (Instruction.decode word).format.immediate word = _
    rw [format]
    exact Format.immediate_eq ..
  have first : (machine.operands (Instruction.decode word)).first =
      machine.register (.ofByte (Instruction.decode word).rj) := by
    simp [operands, Operands.fetch, format, Format.readsFirst, register]
  rw [dataAddress, first, immediate, accessAddress, UInt32.ofInt_add, Word.of_int_to_nat]

section Execute

variable (machine : Machine) {instruction : Instruction} {width : AccessWidth}

theorem execute_load {extension : Extension}
    (operation : instruction.operation = .load width extension) :
    let address := machine.dataAddress instruction
    machine.execute machine.cursor instruction =
      if machine.memory.Covers address width.bytes then
        { machine := machine.setRegister (.ofByte instruction.rd)
            (extension.apply width (.ofBytes (machine.memory.get address width.bytes))),
          cursor := machine.cursor }
      else
        { machine, cursor := machine.cursor,
          trap := some (.bus address (machine.memory.fault address width.bytes)) } := by
  unfold execute
  simp only [operation]
  split
  next value read =>
    obtain ⟨inside, rfl⟩ := Memory.read_word_ok_iff.mp read
    exact (if_pos inside).symm
  next fault failed =>
    obtain ⟨outside, rfl⟩ := Memory.read_word_error_iff.mp failed
    exact (if_neg outside).symm

theorem execute_store (operation : instruction.operation = .store width) :
    let address := machine.dataAddress instruction
    machine.execute machine.cursor instruction =
      if machine.memory.Covers address width.bytes then
        { machine := { machine with
            memory := machine.memory.put address
              (Word.toBytes width.bytes (machine.register (.ofByte instruction.rd))) },
          cursor := machine.cursor }
      else
        { machine, cursor := machine.cursor,
          trap := some (.bus address (machine.memory.fault address width.bytes)) } := by
  unfold execute
  simp only [operation]
  rfl

end Execute

section Fetched

variable {machine : Machine} {word : Word} {width : AccessWidth}
  (fetched : machine.memory.readWord machine.cpu.pc 4 = .ok word)
include fetched

theorem step_of_access {inside : Prop} [Decidable inside] {after : Machine} {trap : Trap}
    (ended : machine.execute machine.cursor (Instruction.decode word) =
      if inside then { machine := after, cursor := machine.cursor }
      else { machine, cursor := machine.cursor, trap := some trap }) :
    machine.step =
      if inside then ⟨(after.setRegister .zero 0).setPc (machine.cpu.pc + 4), none⟩
      else ⟨machine.setRegister .zero 0, some trap⟩ := by
  by_cases made : inside
  · rw [if_pos made] at ended ⊢
    exact step_of_executed fetched ended
  · rw [if_neg made] at ended ⊢
    exact step_of_raised fetched ended

theorem step_of_load {extension : Extension}
    (named : ((InstructionSet.lookup word).mnemonic, width, extension) ∈ InstructionSet.loads) :
    let address := machine.accessAddress word
    machine.step =
      if machine.memory.Covers address width.bytes then
        ⟨((machine.setRegister (.ofByte (Instruction.decode word).rd) (extension.apply width
          (.ofBytes (machine.memory.get address width.bytes)))).setRegister .zero 0).setPc
            (machine.cpu.pc + 4), none⟩
      else
        ⟨machine.setRegister .zero 0,
          some (.bus address (machine.memory.fault address width.bytes))⟩ := by
  obtain ⟨operation, format⟩ := InstructionSet.load_of_mem_loads named
  have ended := machine.execute_load operation
  rw [machine.data_address_eq format] at ended
  exact step_of_access fetched ended

theorem step_of_store
    (named : ((InstructionSet.lookup word).mnemonic, width) ∈ InstructionSet.stores) :
    let address := machine.accessAddress word
    machine.step =
      if machine.memory.Covers address width.bytes then
        ⟨({ machine with
            memory := machine.memory.put address (Word.toBytes width.bytes
              (machine.register (.ofByte (Instruction.decode word).rd))) }.setRegister
          .zero 0).setPc (machine.cpu.pc + 4), none⟩
      else
        ⟨machine.setRegister .zero 0,
          some (.bus address (machine.memory.fault address width.bytes))⟩ := by
  obtain ⟨operation, format⟩ := InstructionSet.store_of_mem_stores named
  have ended := machine.execute_store operation
  rw [machine.data_address_eq format] at ended
  exact step_of_access fetched ended

theorem byte_step_of_store
    (named : ((InstructionSet.lookup word).mnemonic, width) ∈ InstructionSet.stores)
    (inside : machine.memory.Covers (machine.accessAddress word) width.bytes) (position : Nat) :
    machine.step.trap = none ∧
    machine.step.machine.memory.byte? position =
      if (machine.accessAddress word).toNat ≤ position ∧
          position < (machine.accessAddress word).toNat + width.bytes then
        some (.ofNat ((machine.register (.ofByte (Instruction.decode word).rd)).toNat /
          256 ^ (position - (machine.accessAddress word).toNat)))
      else machine.memory.byte? position := by
  have covered : machine.memory.Covers (machine.accessAddress word) (Word.toBytes width.bytes
      (machine.register (.ofByte (Instruction.decode word).rd))).length := by
    rwa [Word.length_to_bytes]
  rw [step_of_store fetched named, if_pos inside]
  refine ⟨rfl, ?_⟩
  change (machine.memory.put _ _).byte? _ = _
  rw [Memory.byte_put covered, Word.length_to_bytes]
  split
  next within =>
    exact Word.get_to_bytes _ (by omega)
  next => rfl

theorem memory_step_of_not_store
    (other : ∀ width, (Instruction.decode word).operation ≠ .store width) :
    machine.step.machine.memory = machine.memory := by
  rcases step_of_fetched fetched with ⟨trap, _, ended⟩ | ⟨after, next, completes, ended⟩
  · rw [ended]
    rfl
  · rw [ended]
    cases completes with
    | stored operation _ => exact absurd operation (other _)
    | _ => rfl

end Fetched

theorem extent_step (machine : Machine) :
    machine.step.machine.memory.base = machine.memory.base ∧
      machine.step.machine.memory.size = machine.memory.size := by
  cases fetched : machine.memory.readWord machine.cpu.pc 4 with
  | error fault =>
    rw [step_of_unfetched fetched]
    exact ⟨rfl, rfl⟩
  | ok word =>
    rcases step_of_fetched fetched with ⟨trap, _, ended⟩ | ⟨after, next, completes, ended⟩
    · rw [ended]
      exact ⟨rfl, rfl⟩
    · rw [ended]
      exact ⟨completes.base_eq, completes.size_eq⟩

end Machine
end LoongArch
