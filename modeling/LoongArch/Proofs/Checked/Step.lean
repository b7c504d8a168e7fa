import LoongArch.Machine.Trace
import LoongArch.Proofs.Checked.Arithmetic
import LoongArch.Proofs.Checked.Instruction
import LoongArch.Proofs.Checked.Memory
import LoongArch.Proofs.Machine.Access
import LoongArch.Proofs.Machine.ZeroRegister

/-!
# No step is undefined

A step in which every operator tests its condition, the text that it reports included. Register numbers
are in range because they were cut out of a word, shift amounts because they are constants or masked,
and ranges of bytes because the access was accepted. So the step never meets an undefined operator, and
it is the step of the machine. Whatever is wrong with a program shows up as a trap.
-/

set_option autoImplicit false

namespace LoongArch

namespace Checked

def readRegister (registers : RegisterFile) (number : Nat) : Checked Word :=
  indexed registers[number]?

def writeRegister (machine : Machine) (number : Nat) (value : Word) : Checked Machine :=
  if inside : number < 32 then .ok (machine.setRegister ⟨number, inside⟩ value) else .error .index

def source (registers : RegisterFile) (reads : Bool) (number : UInt8) : Checked Word :=
  if reads then readRegister registers number.toNat else return 0

def extend (extension : Extension) (width : AccessWidth) (value : Word) : Checked Word :=
  match extension with
  | .sign => do signExtend value (← multiply (.ofNat width.bytes) 8)
  | .zero => return value

def execute (machine : Machine) (cursor : Cursor) (instruction : Instruction) : Checked Executed := do
  let registers := machine.cpu.registers
  let first ← source registers instruction.format.readsFirst instruction.rj
  let second ← source registers instruction.format.readsSecond instruction.rk
  let destination := instruction.rd.toNat
  let immediate := instruction.immediate
  let address := first + immediate
  match instruction.operation with
  | .alu operation =>
    let value ← compute operation first second immediate
    return { machine := ← writeRegister machine destination value, cursor }
  | .mulDiv operation =>
    match ← mulDiv operation first second machine.cpu.config.divideByZero with
    | some value => return { machine := ← writeRegister machine destination value, cursor }
    | none => return { machine, cursor, trap := some (.divideByZero cursor.pc) }
  | .pcaddu12i =>
    let value := cursor.pc + (← shiftLeft immediate 12)
    return { machine := ← writeRegister machine destination value, cursor }
  | .lu12iW =>
    let value ← shiftLeft immediate 12
    return { machine := ← writeRegister machine destination value, cursor }
  | .load width extension =>
    match ← readWord machine.memory address width with
    | .ok value =>
      let extended ← extend extension width value
      return { machine := ← writeRegister machine destination extended, cursor }
    | .error fault => return { machine, cursor, trap := some (.bus address fault) }
  | .store width =>
    let value := (← readRegister registers destination) &&& width.mask
    match ← store machine.memory address (Word.toBytes width.bytes value) with
    | .ok memory => return { machine := { machine with memory }, cursor }
    | .error fault => return { machine, cursor, trap := some (.bus address fault) }
  | .jump => return { machine, cursor := cursor.branch (← shiftLeft immediate 2) }
  | .call =>
    let machine ← writeRegister machine Register.returnAddress cursor.sequential
    return { machine, cursor := cursor.branch (← shiftLeft immediate 2) }
  | .jumpRegister =>
    let machine ← writeRegister machine destination cursor.sequential
    return { machine, cursor := { cursor with next := first + (← shiftLeft immediate 2) } }
  | .branch condition =>
    if condition.holds first (← readRegister registers destination) then
      return { machine, cursor := cursor.branch (← shiftLeft immediate 2) }
    else return { machine, cursor }
  | .dataBarrier | .instructionBarrier => return { machine, cursor }
  | .breakpoint =>
    let code ← readRegister registers Register.argument
    return { machine, cursor, trap := some (.breakpoint cursor.pc code) }
  | .invalid => return { machine, cursor, trap := some (.invalidInstruction cursor.pc) }

structure Observed where
  stepped : Stepped
  lines : List String

def step (machine : Machine) : Checked Observed := do
  let pc := machine.cpu.pc
  match ← readWord machine.memory pc .word with
  | .error fault => return ⟨⟨machine, some (.bus pc fault)⟩, []⟩
  | .ok word =>
    let instruction ← decode word
    let report := "TRACE itrace: " ++ Numeral.address pc.toNat ++ ": " ++
      Numeral.hexDigits 8 word.toNat ++ "  " ++ (← text instruction pc)
    let executed ← execute machine { pc, sequential := pc + 4 } instruction
    let cleared ← writeRegister executed.machine Register.zero 0
    match executed.trap with
    | none => return ⟨⟨cleared.setPc executed.cursor.next, none⟩, [report]⟩
    | some trap => return ⟨⟨cleared, some trap⟩, [report, (Event.trapped trap word).line]⟩

section Registers

theorem read_register_eq (registers : RegisterFile) (register : Register) :
    readRegister registers register = .ok (registers.read register) := by
  rw [readRegister, Vector.getElem?_eq_getElem register.isLt, indexed_some]
  rfl

theorem write_register_eq (machine : Machine) (register : Register) (value : Word) :
    writeRegister machine register value = .ok (machine.setRegister register value) :=
  dif_pos register.isLt

/-- A register number that was cut out of a word names a register as it stands. -/
structure NamesRegisters (instruction : Instruction) : Prop where
  rd : instruction.rd.toNat = Register.ofByte instruction.rd
  rj : instruction.rj.toNat = Register.ofByte instruction.rj
  rk : instruction.rk.toNat = Register.ofByte instruction.rk

theorem decode_names_registers (word : Word) : NamesRegisters (Instruction.decode word) := by
  obtain ⟨rd, rj, rk⟩ := Instruction.to_nat_registers (InstructionSet.lookup word).operation
    (InstructionSet.lookup word).format word
  have small (number : Nat) : number % 2 ^ 5 < 32 := Nat.mod_lt _ (by decide)
  have named {number : UInt8} (bounded : number.toNat < 32) :
      number.toNat = Register.ofByte number := (Nat.mod_eq_of_lt bounded).symm
  exact ⟨named (rd ▸ small _), named (rj ▸ small _), named (rk ▸ small _)⟩

end Registers

section Execute

theorem source_eq (registers : RegisterFile) (reads : Bool) {number : UInt8}
    (named : number.toNat = Register.ofByte number) :
    source registers reads number =
      .ok (if reads then registers.read (.ofByte number) else 0) := by
  unfold source
  split
  · rw [named, read_register_eq]
  · rfl

theorem sources_eq (registers : RegisterFile) {instruction : Instruction}
    (named : NamesRegisters instruction) :
    source registers instruction.format.readsFirst instruction.rj =
        .ok (Operands.fetch registers instruction).first ∧
      source registers instruction.format.readsSecond instruction.rk =
        .ok (Operands.fetch registers instruction).second :=
  ⟨source_eq registers _ named.rj, source_eq registers _ named.rk⟩

theorem bits_of_width (width : AccessWidth) :
    multiply (.ofNat width.bytes) 8 = .ok (.ofNat (8 * width.bytes)) := by
  cases width <;> rfl

theorem extend_eq (extension : Extension) (width : AccessWidth) (value : Word) :
    extend extension width value = .ok (extension.apply width value) := by
  cases extension with
  | zero => rfl
  | sign =>
    have positive : 1 ≤ UInt32.ofNat (8 * width.bytes) := by cases width <;> decide
    have small : UInt32.ofNat (8 * width.bytes) ≤ 32 := by cases width <;> decide
    simp only [extend, bits_of_width, sign_extend_eq value positive small, ok_bind, Extension.apply]

theorem execute_eq {machine : Machine} (addressable : machine.memory.size < 2 ^ 63)
    (cursor : Cursor) {instruction : Instruction} (named : NamesRegisters instruction) :
    execute machine cursor instruction = .ok (machine.execute cursor instruction) := by
  have upper (word : Word) : shiftLeft word 12 = .ok (word <<< 12) := guarded_eq (by decide) ..
  obtain ⟨first, second⟩ := sources_eq machine.cpu.registers named
  have destination : (Operands.fetch machine.cpu.registers instruction).destination =
      .ofByte instruction.rd := rfl
  have immediate : (Operands.fetch machine.cpu.registers instruction).immediate =
      instruction.immediate := rfl
  unfold execute Machine.execute
  generalize Operands.fetch machine.cpu.registers instruction = operands at *
  simp only [first, second, destination, immediate, named.rd, read_register_eq, write_register_eq,
    compute_eq, mul_div_eq, shift_left_two_eq, upper, extend_eq, read_word_eq addressable,
    store_eq addressable, to_bytes_and_mask, ok_bind, pure_eq]
  cases instruction.operation with
  | mulDiv division =>
    simp only
    cases division.apply operands.first operands.second machine.cpu.config.divideByZero with
    | some value => rfl
    | none => rfl
  | load width extension =>
    simp only
    cases machine.memory.readWord (operands.first + instruction.immediate) width.bytes with
    | ok value => rfl
    | error fault => rfl
  | store width =>
    simp only [Memory.write, Word.length_to_bytes]
    by_cases inside : machine.memory.Covers (operands.first + instruction.immediate) width.bytes
    · simp only [if_pos inside]
      rfl
    · simp only [if_neg inside]
  | branch condition =>
    simp only
    split
    next taken => exact congrArg _ (if_pos taken).symm
    next untaken => exact congrArg _ (if_neg untaken).symm
  | _ => rfl

/-- The bound on register numbers is what makes an instruction defined: one that was not cut out of a
word can name a register that there is not. -/
example (machine : Machine) (cursor : Cursor) :
    execute machine cursor
      { operation := .lu12iW, format := .bare, raw := 0, rd := 32, rj := 0, rk := 0, immediate := 0 } =
      .error .index :=
  rfl

end Execute

theorem step_eq {machine : Machine} (addressable : machine.memory.size < 2 ^ 63) :
    step machine = .ok ⟨machine.step, machine.stepEvents.map Event.line⟩ := by
  have four : AccessWidth.word.bytes = 4 := rfl
  simp only [step, read_word_eq addressable, ok_bind, pure_eq, Machine.step, Machine.stepEvents,
    Memory.fetch, four]
  cases machine.memory.readWord machine.cpu.pc 4 with
  | error fault => rfl
  | ok word =>
    simp only [decode_eq, text_eq, execute_eq addressable _ (decode_names_registers word),
      write_register_eq, ok_bind]
    cases (machine.execute { pc := machine.cpu.pc, sequential := machine.cpu.pc + 4 }
      (Instruction.decode word)).trap with
    | none => rfl
    | some trap => rfl

def runFrom (steps : Nat) : (limit : Nat) → (machine : Machine) → Checked Finished
  | 0, machine => return ⟨machine, steps, none⟩
  | limit + 1, machine => do
    match (← step machine).stepped with
    | ⟨machine, none⟩ => runFrom (steps + 1) limit machine
    | ⟨machine, some trap⟩ => return ⟨machine, steps, some trap⟩

/-- No step changes the size of memory, so none of a whole run is undefined. -/
theorem run_from_eq {machine : Machine} (addressable : machine.memory.size < 2 ^ 63)
    (steps limit : Nat) : runFrom steps limit machine = .ok (machine.runFrom steps limit) := by
  induction limit generalizing machine steps with
  | zero => rfl
  | succ limit hypothesis =>
    simp only [runFrom, step_eq addressable, ok_bind, Machine.runFrom]
    cases ended : machine.step with
    | mk next trap =>
      cases trap with
      | some trap => rfl
      | none =>
        have kept : next.memory.size = machine.memory.size := by
          rw [← machine.extent_step.2, ended]
        exact hypothesis (kept ▸ addressable) (steps + 1)

end Checked

namespace Machine

/-- Why a step stops, and the trap that says so: the program counter lies outside memory, or the
instruction there cannot be carried out. -/
inductive Refuses (machine : Machine) : Trap → Prop where
  | fetch (outside : ¬machine.memory.Covers machine.cpu.pc 4) : Refuses machine machine.unfetched
  | instruction {word : Word} {trap : Trap}
      (fetched : machine.memory.readWord machine.cpu.pc 4 = .ok word)
      (raises : machine.Raises (Instruction.decode word) trap) : Refuses machine trap

theorem trap_eq_some_iff (machine : Machine) (trap : Trap) :
    machine.step.trap = some trap ↔ machine.Refuses trap := by
  constructor
  · intro trapped
    have ended : machine.step = ⟨machine.step.machine, some trap⟩ := by rw [← trapped]
    rcases trapped_cases ended with ⟨fault, failed, rfl, _⟩ | ⟨word, fetched, raises, _⟩
    · obtain ⟨outside, rfl⟩ := Memory.read_word_error_iff.mp failed
      exact .fetch outside
    · exact .instruction fetched raises
  · intro refuses
    cases refuses with
    | fetch outside => rw [step_of_uncovered outside]
    | instruction fetched raises => rw [step_of_raised fetched (execute_of_raises raises)]

/-- No operator of a step is undefined, and what stops a step is reported as a trap. -/
structure Defined (machine : Machine) : Prop where
  decoding : ∀ word, Checked.decode word = .ok (Instruction.decode word)
  immediates : ∀ (format : Format) word, Checked.immediate format word = .ok (format.immediate word)
  sources : ∀ word,
    let instruction := Instruction.decode word
    let operands := Operands.fetch machine.cpu.registers instruction
    Checked.source machine.cpu.registers instruction.format.readsFirst instruction.rj =
        .ok operands.first ∧
      Checked.source machine.cpu.registers instruction.format.readsSecond instruction.rk =
        .ok operands.second
  computations : ∀ (operation : AluOperation) first second immediate,
    Checked.compute operation first second immediate =
      .ok (operation.apply first second immediate)
  divisions : ∀ (operation : MulDivOperation) first second policy,
    Checked.mulDiv operation first second policy = .ok (operation.apply first second policy)
  loads : ∀ address length,
    Checked.load machine.memory address length = .ok (machine.memory.read address length)
  stores : ∀ address contents,
    Checked.store machine.memory address contents = .ok (machine.memory.write address contents)
  texts : ∀ word pc,
    Checked.text (Instruction.decode word) pc = .ok ((Instruction.decode word).text pc)
  step : Checked.step machine = .ok ⟨machine.step, machine.stepEvents.map Event.line⟩
  refusals : ∀ trap, machine.step.trap = some trap ↔ machine.Refuses trap

/-- Stepping is defined in every state of a machine whose memory can be addressed. -/
theorem step_defined (machine : Machine) (addressable : machine.memory.size < 2 ^ 63) :
    machine.Defined where
  decoding := Checked.decode_eq
  immediates := Checked.immediate_eq
  sources word := Checked.sources_eq _ (Checked.decode_names_registers word)
  computations := Checked.compute_eq
  divisions := Checked.mul_div_eq
  loads := Checked.load_eq addressable
  stores := Checked.store_eq addressable
  texts word := Checked.text_eq (Instruction.decode word)
  step := Checked.step_eq addressable
  refusals := machine.trap_eq_some_iff

/-- A load, at the very end of the address space, of a word of which only the first half exists. -/
def atLastAddress : Machine where
  cpu := .ofConfig { resetPc := 0xFFFFFFFC }
  memory := ⟨0xFFFFFFFC, ⟨#[0x04, 0xF8, 0xBF, 0x28]⟩⟩

/-- The load is refused by a trap whose fault names an end of memory that is no word. -/
theorem load_at_last_address_defined :
    atLastAddress.memory.size < 2 ^ 63 ∧ atLastAddress.Defined ∧
    atLastAddress.step.trap =
      some (.bus 0xFFFFFFFE { address := 0xFFFFFFFE, length := 4, base := 0xFFFFFFFC, size := 4 }) :=
  have addressable : atLastAddress.memory.size < 2 ^ 63 := by decide
  ⟨addressable, step_defined atLastAddress addressable, by decide +kernel⟩

end Machine
end LoongArch
