import LoongArch.Proofs.Machine.Run

/-!
# Runs in lock step

A machine and a changed copy of it run in lock step if instructions do not see the change: after every
step the same change leads from the one to the other. What a change has to leave alone is said once for
single instructions, and carried over to steps and runs here. Traps of one kind may be excepted: an
instruction that raises one of them may go differently on the changed machine, and there the runs part.
-/

set_option autoImplicit false

namespace LoongArch

def Executed.map (change : Machine → Machine) (executed : Executed) : Executed :=
  { executed with machine := change executed.machine }

def Stepped.map (change : Machine → Machine) (stepped : Stepped) : Stepped :=
  { stepped with machine := change stepped.machine }

def Finished.map (change : Machine → Machine) (finished : Finished) : Finished :=
  { finished with machine := change finished.machine }

namespace Machine

/-- A change that no instruction sees, unless it raises a trap for which `parting` holds: the changed
machine has the same program counter and registers, divides alike, and its memory serves the same
accesses with the same words. -/
structure Transparent (change : Machine → Machine) (parting : Trap → Bool) : Prop where
  pc : ∀ machine, (change machine).cpu.pc = machine.cpu.pc
  registers : ∀ machine, (change machine).cpu.registers = machine.cpu.registers
  setRegister : ∀ machine target value,
    (change machine).setRegister target value = change (machine.setRegister target value)
  setPc : ∀ machine pc, (change machine).setPc pc = change (machine.setPc pc)
  divide : ∀ machine (operation : MulDivOperation) first second,
    operation.apply first second (change machine).cpu.config.divideByZero =
        operation.apply first second machine.cpu.config.divideByZero ∨
      operation.apply first second machine.cpu.config.divideByZero = none ∧
        ∀ pc, parting (.divideByZero pc) = true
  read : ∀ machine address length,
    (change machine).memory.readWord address length = machine.memory.readWord address length ∨
      ∃ fault, machine.memory.readWord address length = .error fault ∧
        parting (.bus address fault) = true
  accept : ∀ machine address length, machine.memory.Covers address length →
    (change machine).memory.Covers address length
  put : ∀ machine address contents, machine.memory.Covers address contents.length →
    { change machine with memory := (change machine).memory.put address contents } =
      change { machine with memory := machine.memory.put address contents }
  refuse : ∀ machine address length, ¬machine.memory.Covers address length →
    ¬(change machine).memory.Covers address length ∧
        (change machine).memory.fault address length = machine.memory.fault address length ∨
      parting (.bus address (machine.memory.fault address length)) = true

/-- The machines that a run passes through, up to a number of steps, are those that the changed machine
passes through, with the change undone. -/
def Abreast (change : Machine → Machine) (machine : Machine) (count : Nat) : Prop :=
  ∀ steps ≤ count, ∃ before, machine.after? steps = some before ∧
    (change machine).after? steps = some (change before)

namespace Transparent

variable {change : Machine → Machine} {parting : Trap → Bool}
  (transparent : Transparent change parting)
include transparent

theorem cursor_eq (machine : Machine) : (change machine).cursor = machine.cursor := by
  rw [cursor, cursor, transparent.pc]

theorem execute_eq (machine : Machine) (instruction : Instruction)
    (joint : (machine.execute machine.cursor instruction).trap.any parting = false) :
    (change machine).execute (change machine).cursor instruction =
      (machine.execute machine.cursor instruction).map change := by
  have register : ∀ named, (change machine).register named = machine.register named := fun named =>
    congrArg (RegisterFile.read · named) (transparent.registers machine)
  rw [transparent.cursor_eq]
  unfold execute at joint ⊢
  simp only [transparent.registers, transparent.setRegister, register] at joint ⊢
  -- Only divisions, loads and stores look at what the change may have touched.
  cases operation : instruction.operation with
  | mulDiv division =>
    simp only [operation] at joint ⊢
    rcases transparent.divide machine division _ _ with same | ⟨undefined, parts⟩
    · rw [same]
      split <;> rfl
    · rw [undefined] at joint
      exact absurd (parts _) (by simpa using joint)
  | load width extension =>
    simp only [operation] at joint ⊢
    rcases transparent.read machine _ width.bytes with same | ⟨fault, failed, parts⟩
    · rw [same]
      split <;> rfl
    · rw [failed] at joint
      exact absurd parts (by simpa using joint)
  | store width =>
    simp only [operation] at joint ⊢
    split at joint
    next inside =>
      have written := transparent.put machine _
        (Word.toBytes width.bytes (machine.register (.ofByte instruction.rd)))
        (by rwa [Word.length_to_bytes])
      rw [if_pos inside, if_pos (transparent.accept machine _ _ inside)]
      exact congrArg (Executed.mk · machine.cursor none) written
    next outside =>
      rw [if_neg outside]
      rcases transparent.refuse machine _ _ outside with ⟨refused, same⟩ | parts
      · rw [if_neg refused, same]
        rfl
      · exact absurd parts (by simpa using joint)
  | branch condition =>
    simp only
    split <;> rfl
  | _ => rfl

theorem step_eq (machine : Machine) (joint : machine.step.trap.any parting = false) :
    (change machine).step = machine.step.map change := by
  have same := transparent.pc machine
  cases fetched : machine.memory.readWord machine.cpu.pc 4 with
  | error fault =>
    rw [step_of_unfetched fetched] at joint ⊢
    rcases transparent.read machine machine.cpu.pc 4 with alike | ⟨fault', failed, parts⟩
    · rw [fetched, ← same] at alike
      rw [step_of_unfetched alike, same]
      rfl
    · cases fetched.symm.trans failed
      exact absurd parts (by simpa using joint)
  | ok word =>
    have alike : (change machine).memory.readWord (change machine).cpu.pc 4 = .ok word := by
      rcases transparent.read machine machine.cpu.pc 4 with alike | ⟨fault, failed, _⟩
      · rw [same, alike, fetched]
      · cases fetched.symm.trans failed
    rcases machine.execute_cases (Instruction.decode word) with
      ⟨trap, _, ended⟩ | ⟨after, next, _, ended⟩
    · have executed : (change machine).execute (change machine).cursor (Instruction.decode word) =
          { machine := change machine, cursor := (change machine).cursor, trap := some trap } := by
        rw [step_of_raised fetched ended] at joint
        rw [transparent.execute_eq machine _ (by rwa [ended]), ended, transparent.cursor_eq]
        rfl
      rw [step_of_raised fetched ended, step_of_raised alike executed, transparent.setRegister]
      rfl
    · have executed : (change machine).execute (change machine).cursor (Instruction.decode word) =
          { machine := change after, cursor := { (change machine).cursor with next } } := by
        rw [transparent.execute_eq machine _ (by rw [ended]; rfl), ended, transparent.cursor_eq]
        rfl
      rw [step_of_executed fetched ended, step_of_executed alike executed, transparent.setRegister,
        transparent.setPc]
      rfl

theorem step_of_completed {machine next : Machine} (completed : machine.step = ⟨next, none⟩) :
    (change machine).step = ⟨change next, none⟩ := by
  rw [transparent.step_eq machine (by rw [completed]; rfl), completed]
  rfl

theorem after_eq {machine last : Machine} {steps : Nat}
    (reached : machine.after? steps = some last) :
    (change machine).after? steps = some (change last) := by
  induction steps generalizing last with
  | zero =>
    cases reached
    rfl
  | succ steps hypothesis =>
    obtain ⟨before, earlier, completed⟩ := after_succ_eq_some_iff.mp reached
    exact after_succ_eq_some_iff.mpr
      ⟨change before, hypothesis earlier, transparent.step_of_completed completed⟩

theorem run_from_eq (machine : Machine) (made limit : Nat)
    (joint : (machine.runFrom made limit).trap.any parting = false) :
    (change machine).runFrom made limit = (machine.runFrom made limit).map change := by
  induction limit generalizing machine made with
  | zero => rfl
  | succ limit hypothesis =>
    cases stepped : machine.step with
    | mk next outcome =>
      cases outcome with
      | none =>
        have same := transparent.step_of_completed stepped
        simp only [runFrom, stepped, same] at joint ⊢
        exact hypothesis next (made + 1) joint
      | some trap =>
        simp only [runFrom, stepped] at joint ⊢
        rw [transparent.step_eq machine (by rwa [stepped]), stepped]
        rfl

theorem run_eq (machine : Machine) (limit : Nat)
    (joint : (machine.run limit).trap.any parting = false) :
    (change machine).run limit = (machine.run limit).map change :=
  transparent.run_from_eq machine 0 limit joint

theorem abreast_run (machine : Machine) (limit : Nat) :
    Abreast change machine (machine.run limit).steps := by
  intro steps fewer
  obtain ⟨last, reached⟩ := machine.exists_after_run limit
  obtain ⟨before, earlier⟩ := exists_after_of_le reached fewer
  exact ⟨before, earlier, transparent.after_eq earlier⟩

end Transparent
end Machine
end LoongArch
