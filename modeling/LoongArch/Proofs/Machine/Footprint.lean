import LoongArch.Proofs.BitFields
import LoongArch.Proofs.Flow.Agreement

/-!
# Effects bound a step

The flags of a template say what its instructions can do to a machine. Nothing that is carried out
reads them, so they are compared here with every way in which an instruction ends: whatever a step
changes, the flags of the fetched word allow.
-/

set_option autoImplicit false

namespace LoongArch

namespace Machine

/-- What a set of effects allows a step to do that finds the given word at the program counter. -/
structure StaysWithin (machine : Machine) (word : Word) (effects : Effects) : Prop where
  config : machine.step.machine.cpu.config = machine.cpu.config
  base : machine.step.machine.memory.base = machine.memory.base
  size : machine.step.machine.memory.size = machine.memory.size
  registers : ∀ register ≠ .zero,
    machine.step.machine.register register ≠ machine.register register →
      (register : Nat) = word.toNat % 2 ^ 5 ∧ effects.has .writesDestination = true ∨
        register = .returnAddress ∧ effects.has .call = true
  memory : machine.step.machine.memory.bytes ≠ machine.memory.bytes → effects.has .store = true
  bus : ∀ address fault, machine.step.trap = some (.bus address fault) →
    effects.has .load = true ∨ effects.has .store = true
  sequential : machine.step.trap = none → effects.has .branch = false → effects.has .jump = false →
    machine.step.machine.cpu.pc = machine.cpu.pc + 4
  direct : machine.step.trap = none → effects.has .indirect = false →
    machine.step.machine.cpu.pc = machine.cpu.pc + 4 ∨
      machine.step.machine.cpu.pc = machine.cpu.pc + 4 * (Instruction.decode word).immediate
  halts : (∃ trap, machine.step.trap = some trap ∧ trap.isHalt = true) ↔ effects.has .halt = true

section Completes

variable {machine after : Machine} {instruction : Instruction} {next : Word}
  (completes : machine.Completes instruction after next)
include completes

theorem Completes.config_eq : after.cpu.config = machine.cpu.config := by
  cases completes <;> rfl

theorem Completes.base_eq : after.memory.base = machine.memory.base := by
  cases completes <;> rfl

theorem Completes.size_eq : after.memory.size = machine.memory.size := by
  cases completes with
  | stored => exact Memory.size_put ..
  | _ => rfl

theorem Completes.register_changed {register : Register}
    (changed : after.register register ≠ machine.register register) :
    register = .ofByte instruction.rd ∧
        instruction.operation.effects.has .writesDestination = true ∨
      register = .returnAddress ∧ instruction.operation.effects.has .call = true := by
  cases completes with
  | computed _ writes _ =>
    refine .inl ⟨?_, writes⟩
    by_contra other
    exact changed (by simp [other])
  | called operation =>
    refine .inr ⟨?_, by simp [operation, Operation.effects]⟩
    by_contra other
    exact changed (by simp [other])
  | jumpedRegister operation =>
    refine .inl ⟨?_, by simp [operation, Operation.effects]⟩
    by_contra other
    exact changed (by simp [other])
  | _ => exact absurd rfl changed

theorem Completes.next_eq (branch : instruction.operation.effects.has .branch = false)
    (jump : instruction.operation.effects.has .jump = false) : next = machine.cpu.pc + 4 := by
  cases completes with
  | jumped operation | called operation | jumpedRegister operation =>
    simp [operation, Operation.effects] at jump
  | branched operation _ => simp [operation, Operation.effects] at branch
  | _ => rfl

theorem Completes.next_cases (direct : instruction.operation.effects.has .indirect = false) :
    next = machine.cpu.pc + 4 ∨ next = machine.cpu.pc + 4 * instruction.immediate := by
  cases completes with
  | jumpedRegister operation => simp [operation, Operation.effects] at direct
  | jumped | called | branched =>
    refine .inr ?_
    rw [Instruction.target, Word.shift_left_two]
  | _ => exact .inl rfl

end Completes

theorem to_nat_destination (word : Word) :
    (Register.ofByte (Instruction.decode word).rd : Nat) = word.toNat % 2 ^ 5 := by
  have named : (Instruction.decode word).rd.toNat = word.toNat % 2 ^ 5 :=
    (Instruction.to_nat_registers _ _ word).1
  change (Instruction.decode word).rd.toNat % 32 = _
  omega

/-- Whatever a step changes, and wherever it leads, the effects of the fetched word allow it. It stops
the program exactly if they say so. -/
theorem step_stays_within_effects (machine : Machine) (word : Word)
    (fetched : machine.memory.readWord machine.cpu.pc 4 = .ok word) :
    machine.StaysWithin word (InstructionSet.lookup word).effects := by
  have halts := step_halts_iff fetched
  rw [InstructionSet.effects_lookup] at halts ⊢
  rcases step_of_fetched fetched with ⟨trap, raises, ended⟩ | ⟨after, next, completes, ended⟩
  · constructor
    case halts => exact halts
    case bus =>
      intro address fault trapped
      rw [ended] at trapped
      cases trapped
      exact Bool.or_eq_true_iff.mp raises.has_access
    case registers =>
      intro register general changed
      rw [ended] at changed
      exact absurd (by simp [general]) changed
    case memory =>
      intro changed
      rw [ended] at changed
      exact absurd rfl changed
    case sequential | direct =>
      intro completed
      rw [ended] at completed
      cases completed
    all_goals rw [ended]; rfl
  · constructor
    case halts => exact halts
    case config => rw [ended]; exact completes.config_eq
    case base => rw [ended]; exact completes.base_eq
    case size => rw [ended]; exact completes.size_eq
    case bus =>
      intro address fault trapped
      rw [ended] at trapped
      cases trapped
    case registers =>
      intro register general changed
      rw [ended] at changed
      have written : after.register register ≠ machine.register register := by
        simpa [general] using changed
      rw [← to_nat_destination, Fin.val_inj]
      exact completes.register_changed written
    case memory =>
      intro changed
      rw [ended] at changed
      by_contra quiet
      have same : after.memory = machine.memory := completes.memory_eq (by simpa using quiet)
      exact changed (congrArg Memory.bytes same)
    case sequential =>
      intro _ branch jump
      rw [ended]
      exact completes.next_eq branch jump
    case direct =>
      intro _ direct
      rw [ended]
      exact completes.next_cases direct

def clearing : Machine where
  cpu := .ofConfig { resetPc := 0 }
  memory := ⟨0, ⟨#[0x00, 0x10, 0x80, 0x29, 0x01, 0x02, 0x03, 0x04]⟩⟩

/-- Its first step writes to memory, as the effects of a store allow. -/
theorem clearing_stays_within_effects :
    let effects := (InstructionSet.lookup 0x29801000).effects
    clearing.memory.readWord clearing.cpu.pc 4 = .ok 0x29801000 ∧
    clearing.StaysWithin 0x29801000 effects ∧
    clearing.step.machine.memory.bytes ≠ clearing.memory.bytes ∧ effects.has .store = true := by
  have fetched : clearing.memory.readWord clearing.cpu.pc 4 = .ok 0x29801000 := by decide +kernel
  have within := step_stays_within_effects clearing 0x29801000 fetched
  have changed : clearing.step.machine.memory.bytes ≠ clearing.memory.bytes := by decide +kernel
  exact ⟨fetched, within, changed, within.memory changed⟩

end Machine
end LoongArch
