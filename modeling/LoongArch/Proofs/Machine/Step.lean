import LoongArch.Machine.Run
import LoongArch.Proofs.OperationEffects

/-!
# What one step can do

A step is an instruction carried out on the fetched word, after which register 0 is cleared. Two facts
carry the rest: an instruction that traps leaves the machine as it was, and what an instruction changes
follows from the effects of its operation.
-/

set_option autoImplicit false

namespace LoongArch

def Trap.isHalt : Trap → Bool
  | invalidInstruction _ | breakpoint _ _ => true
  | divideByZero _ | bus _ _ => false

namespace RegisterFile

theorem write_read (file : RegisterFile) (register : Register) :
    file.write register (file.read register) = file := by
  simp [write, read]

end RegisterFile

namespace Machine

@[simp] theorem register_set_register (machine : Machine) (target register : Register) (value : Word) :
    (machine.setRegister target value).register register =
      if register = target then value else machine.register register :=
  RegisterFile.read_write ..

theorem set_register_of_eq {machine : Machine} {register : Register} {value : Word}
    (same : machine.register register = value) : machine.setRegister register value = machine := by
  rw [← same]
  simp only [setRegister, Machine.register, RegisterFile.write_read]

@[simp] theorem memory_set_register (machine : Machine) (target : Register) (value : Word) :
    (machine.setRegister target value).memory = machine.memory := rfl

@[simp] theorem register_set_pc (machine : Machine) (register : Register) (pc : Word) :
    (machine.setPc pc).register register = machine.register register := rfl

@[simp] theorem memory_set_pc (machine : Machine) (pc : Word) :
    (machine.setPc pc).memory = machine.memory := rfl

section Execute

variable (machine : Machine) (instruction : Instruction)

def cursor : Cursor := { pc := machine.cpu.pc, sequential := machine.cpu.pc + 4 }

def operands : Operands := .fetch machine.cpu.registers instruction

def dataAddress : Word := (machine.operands instruction).first + instruction.immediate

/-- Why an instruction at the program counter is not carried out. -/
inductive Raises : Trap → Prop where
  | invalid (operation : instruction.operation = .invalid) :
      Raises (.invalidInstruction machine.cpu.pc)
  | breakpoint (operation : instruction.operation = .breakpoint) :
      Raises (.breakpoint machine.cpu.pc (machine.register .argument))
  | divideByZero {division : MulDivOperation} (operation : instruction.operation = .mulDiv division)
      (undefined : division.apply (machine.operands instruction).first
        (machine.operands instruction).second machine.cpu.config.divideByZero = none) :
      Raises (.divideByZero machine.cpu.pc)
  | load {width : AccessWidth} {extension : Extension}
      (operation : instruction.operation = .load width extension)
      (outside : ¬machine.memory.Covers (machine.dataAddress instruction) width.bytes) :
      Raises (.bus (machine.dataAddress instruction)
        (machine.memory.fault (machine.dataAddress instruction) width.bytes))
  | store {width : AccessWidth} (operation : instruction.operation = .store width)
      (outside : ¬machine.memory.Covers (machine.dataAddress instruction) width.bytes) :
      Raises (.bus (machine.dataAddress instruction)
        (machine.memory.fault (machine.dataAddress instruction) width.bytes))

/-- What an instruction at the program counter leaves behind when it is carried out, and where it goes
on: at most one register or some bytes of memory change. -/
inductive Completes : Machine → Word → Prop where
  | computed (value : Word)
      (writes : instruction.operation.effects.has .writesDestination = true)
      (direct : instruction.operation ≠ .jumpRegister) :
      Completes (machine.setRegister (.ofByte instruction.rd) value) (machine.cpu.pc + 4)
  | stored {width : AccessWidth} (operation : instruction.operation = .store width)
      (inside : machine.memory.Covers (machine.dataAddress instruction) width.bytes) :
      Completes
        { machine with
          memory := machine.memory.put (machine.dataAddress instruction)
            (Word.toBytes width.bytes (machine.register (.ofByte instruction.rd))) }
        (machine.cpu.pc + 4)
  | jumped (operation : instruction.operation = .jump) :
      Completes machine (instruction.target machine.cpu.pc)
  | called (operation : instruction.operation = .call) :
      Completes (machine.setRegister .returnAddress (machine.cpu.pc + 4))
        (instruction.target machine.cpu.pc)
  | jumpedRegister (operation : instruction.operation = .jumpRegister) :
      Completes (machine.setRegister (.ofByte instruction.rd) (machine.cpu.pc + 4))
        ((machine.operands instruction).first + instruction.immediate <<< 2)
  | branched {condition : Condition} (operation : instruction.operation = .branch condition)
      (taken : condition.holds (machine.operands instruction).first
        (machine.register (.ofByte instruction.rd)) = true) :
      Completes machine (instruction.target machine.cpu.pc)
  | notBranched {condition : Condition} (operation : instruction.operation = .branch condition)
      (untaken : ¬condition.holds (machine.operands instruction).first
        (machine.register (.ofByte instruction.rd)) = true) :
      Completes machine (machine.cpu.pc + 4)
  | barrier (operation :
        instruction.operation = .dataBarrier ∨ instruction.operation = .instructionBarrier) :
      Completes machine (machine.cpu.pc + 4)

/-- An instruction either raises a trap and changes nothing, or completes. -/
theorem execute_cases :
    (∃ trap, machine.Raises instruction trap ∧
      machine.execute machine.cursor instruction =
        { machine, cursor := machine.cursor, trap := some trap }) ∨
    ∃ after next, machine.Completes instruction after next ∧
      machine.execute machine.cursor instruction =
        { machine := after, cursor := { machine.cursor with next } } := by
  have computes : ∀ value : Word, instruction.operation.effects.has .writesDestination = true →
      instruction.operation ≠ .jumpRegister →
      ∃ after next, machine.Completes instruction after next ∧
        ({ machine := machine.setRegister (.ofByte instruction.rd) value,
           cursor := machine.cursor } : Executed) =
          { machine := after, cursor := { machine.cursor with next } } :=
    fun value writes direct => ⟨_, _, .computed value writes direct, rfl⟩
  unfold execute
  simp only
  cases operation : instruction.operation with
  | alu => exact .inr (computes _ (by simp [operation, Operation.effects]) (by simp [operation]))
  | mulDiv division =>
    simp only
    split
    · exact .inr (computes _ (by simp [operation, Operation.effects]) (by simp [operation]))
    next undefined => exact .inl ⟨_, .divideByZero operation undefined, rfl⟩
  | pcaddu12i =>
    exact .inr (computes _ (by simp [operation, Operation.effects]) (by simp [operation]))
  | lu12iW => exact .inr (computes _ (by simp [operation, Operation.effects]) (by simp [operation]))
  | load width extension =>
    simp only
    split
    · exact .inr (computes _ (by simp [operation, Operation.effects]) (by simp [operation]))
    next fault failed =>
      obtain ⟨outside, rfl⟩ := Memory.read_word_error_iff.mp failed
      exact .inl ⟨_, .load operation outside, rfl⟩
  | store width =>
    simp only
    split
    next inside => exact .inr ⟨_, _, .stored operation inside, rfl⟩
    next outside => exact .inl ⟨_, .store operation outside, rfl⟩
  | jump => exact .inr ⟨_, _, .jumped operation, rfl⟩
  | call => exact .inr ⟨_, _, .called operation, rfl⟩
  | jumpRegister => exact .inr ⟨_, _, .jumpedRegister operation, rfl⟩
  | branch condition =>
    simp only
    split
    next taken => exact .inr ⟨_, _, .branched operation taken, rfl⟩
    next untaken => exact .inr ⟨_, _, .notBranched operation untaken, rfl⟩
  | dataBarrier => exact .inr ⟨_, _, .barrier (.inl operation), rfl⟩
  | instructionBarrier => exact .inr ⟨_, _, .barrier (.inr operation), rfl⟩
  | breakpoint => exact .inl ⟨_, .breakpoint operation, rfl⟩
  | invalid => exact .inl ⟨_, .invalid operation, rfl⟩

theorem execute_of_raises {machine : Machine} {instruction : Instruction} {trap : Trap}
    (raises : machine.Raises instruction trap) :
    machine.execute machine.cursor instruction =
      { machine, cursor := machine.cursor, trap := some trap } := by
  cases raises with
  | invalid operation => simp only [execute, operation]; rfl
  | breakpoint operation => simp only [execute, operation]; rfl
  | divideByZero operation undefined =>
    unfold operands at undefined
    simp only [execute, operation, undefined]
    rfl
  | load operation outside =>
    have refused := Memory.read_word_error_iff.mpr ⟨outside, rfl⟩
    simp only [dataAddress, operands, Operands.fetch] at refused ⊢
    simp only [execute, operation, Operands.fetch, refused]
  | store operation outside =>
    simp only [execute, operation]
    exact if_neg outside

end Execute

section Effects

variable {machine : Machine} {instruction : Instruction}

theorem Raises.is_halt_iff {trap : Trap} (raises : machine.Raises instruction trap) :
    trap.isHalt = true ↔ instruction.operation.effects.has .halt = true := by
  cases raises with
  | invalid operation => simp [operation, Trap.isHalt, Operation.effects]
  | breakpoint operation => simp [operation, Trap.isHalt, Operation.effects]
  | divideByZero operation _ => simp [operation, Trap.isHalt, Operation.effects]
  | load operation _ => simp [operation, Trap.isHalt, Operation.effects]
  | store operation _ => simp [operation, Trap.isHalt, Operation.effects]

theorem Raises.has_access {address : Word} {fault : AccessFault}
    (raises : machine.Raises instruction (.bus address fault)) :
    (instruction.operation.effects.has .load || instruction.operation.effects.has .store) = true := by
  cases raises with
  | load operation _ => simp [operation, Operation.effects]
  | store operation _ => simp [operation, Operation.effects]

theorem Raises.operation_ne {trap : Trap} (raises : machine.Raises instruction trap) :
    instruction.operation ≠ .jumpRegister := by
  cases raises <;> simp_all

theorem Completes.has_halt {after : Machine} {next : Word}
    (completes : machine.Completes instruction after next) :
    instruction.operation.effects.has .halt = false := by
  cases completes with
  | computed value writes _ =>
    cases operation : instruction.operation <;> simp_all [Operation.effects]
  | barrier operation => rcases operation with operation | operation <;> simp [operation, Operation.effects]
  | _ => simp_all [Operation.effects]

theorem Completes.memory_eq {after : Machine} {next : Word}
    (completes : machine.Completes instruction after next)
    (quiet : instruction.operation.effects.has .store = false) : after.memory = machine.memory := by
  cases completes with
  | stored operation _ => simp [operation, Operation.effects] at quiet
  | _ => rfl

end Effects

/-- A step whose instruction cannot be fetched leaves everything as it is, register 0 included. -/
theorem step_of_unfetched {machine : Machine} {fault : AccessFault}
    (unfetched : machine.memory.readWord machine.cpu.pc 4 = .error fault) :
    machine.step = ⟨machine, some (.bus machine.cpu.pc fault)⟩ := by
  simp [step, Memory.fetch, unfetched]

section Fetched

variable {machine : Machine} {word : Word}
  (fetched : machine.memory.readWord machine.cpu.pc 4 = .ok word)
include fetched

theorem step_of_executed {after : Machine} {next : Word}
    (executed : machine.execute machine.cursor (Instruction.decode word) =
      { machine := after, cursor := { machine.cursor with next } }) :
    machine.step = ⟨(after.setRegister .zero 0).setPc next, none⟩ := by
  unfold cursor at executed
  simp only [step, Memory.fetch, fetched, executed]

theorem step_of_raised {trap : Trap}
    (executed : machine.execute machine.cursor (Instruction.decode word) =
      { machine, cursor := machine.cursor, trap := some trap }) :
    machine.step = ⟨machine.setRegister .zero 0, some trap⟩ := by
  unfold cursor at executed
  simp only [step, Memory.fetch, fetched, executed]

theorem step_of_fetched :
    (∃ trap, machine.Raises (Instruction.decode word) trap ∧
      machine.step = ⟨machine.setRegister .zero 0, some trap⟩) ∨
    ∃ after next, machine.Completes (Instruction.decode word) after next ∧
      machine.step = ⟨(after.setRegister .zero 0).setPc next, none⟩ := by
  rcases machine.execute_cases (Instruction.decode word) with
    ⟨trap, raises, ended⟩ | ⟨after, next, completes, ended⟩
  · exact .inl ⟨trap, raises, step_of_raised fetched ended⟩
  · exact .inr ⟨after, next, completes, step_of_executed fetched ended⟩

end Fetched

theorem completed_cases {machine next : Machine} (completed : machine.step = ⟨next, none⟩) :
    ∃ word after target, machine.memory.readWord machine.cpu.pc 4 = .ok word ∧
      machine.Completes (Instruction.decode word) after target ∧
      next = (after.setRegister .zero 0).setPc target := by
  cases fetched : machine.memory.readWord machine.cpu.pc 4 with
  | error fault =>
    rw [step_of_unfetched fetched] at completed
    cases completed
  | ok word =>
    rcases step_of_fetched fetched with ⟨trap, _, ended⟩ | ⟨after, target, completes, ended⟩
    · rw [ended] at completed
      cases completed
    · rw [ended] at completed
      cases completed
      exact ⟨word, after, target, rfl, completes, rfl⟩

theorem trapped_cases {machine left : Machine} {trap : Trap}
    (trapped : machine.step = ⟨left, some trap⟩) :
    (∃ fault, machine.memory.readWord machine.cpu.pc 4 = .error fault ∧
      trap = .bus machine.cpu.pc fault ∧ left = machine) ∨
    ∃ word, machine.memory.readWord machine.cpu.pc 4 = .ok word ∧
      machine.Raises (Instruction.decode word) trap ∧ left = machine.setRegister .zero 0 := by
  cases fetched : machine.memory.readWord machine.cpu.pc 4 with
  | error fault =>
    rw [step_of_unfetched fetched] at trapped
    cases trapped
    exact .inl ⟨fault, rfl, rfl, rfl⟩
  | ok word =>
    rcases step_of_fetched fetched with ⟨cause, raises, ended⟩ | ⟨after, target, _, ended⟩
    · rw [ended] at trapped
      cases trapped
      exact .inr ⟨word, rfl, raises, rfl⟩
    · rw [ended] at trapped
      cases trapped

end Machine
end LoongArch
