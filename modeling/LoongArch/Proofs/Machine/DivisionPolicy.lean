import LoongArch.Proofs.Machine.Footprint
import LoongArch.Proofs.Machine.Lockstep

/-!
# What the policy for division by zero decides

Two machines that differ only in this policy run in lock step until one of them divides by zero. There
the machine that traps ends its run, and the one that saturates goes on with the following instruction.
-/

set_option autoImplicit false

namespace LoongArch

def Trap.isDivideByZero : Trap → Bool
  | divideByZero _ => true
  | invalidInstruction _ | breakpoint _ _ | bus _ _ => false

namespace MulDivOperation

variable {operation : MulDivOperation} {first second : Word} {policy : DivideByZeroPolicy}

/-- An operation that has a value under some policy has it under the other one too, unless it is a
division by zero, and then it has this value because it saturates. -/
theorem apply_saturate_of_eq_some {value : Word}
    (defined : operation.apply first second policy = some value) :
    operation.apply first second .saturate = some value := by
  unfold apply at defined ⊢
  split at defined
  next undefined =>
    rw [if_pos undefined]
    cases policy with
    | trap => cases defined
    | saturate => exact defined
  next regular => rwa [if_neg regular]

theorem apply_saturate_ne_none : operation.apply first second .saturate ≠ none := by
  unfold apply
  split <;> exact nofun

end MulDivOperation

namespace Machine

def withPolicy (machine : Machine) (policy : DivideByZeroPolicy) : Machine :=
  { machine with cpu.config.divideByZero := policy }

theorem transparent_saturate : Transparent (·.withPolicy .saturate) Trap.isDivideByZero where
  pc _ := rfl
  registers _ := rfl
  setRegister _ _ _ := rfl
  setPc _ _ := rfl
  divide machine operation first second := by
    cases result : operation.apply first second machine.cpu.config.divideByZero with
    | none => exact .inr ⟨rfl, fun _ => rfl⟩
    | some value => exact .inl (MulDivOperation.apply_saturate_of_eq_some result)
  read _ _ _ := .inl rfl
  accept _ _ _ inside := inside
  put _ _ _ _ := rfl
  refuse _ _ _ outside := .inl ⟨outside, rfl⟩

theorem config_of_step {machine next : Machine} (completed : machine.step = ⟨next, none⟩) :
    next.cpu.config = machine.cpu.config := by
  obtain ⟨word, after, target, _, completes, rfl⟩ := completed_cases completed
  exact completes.config_eq

theorem config_of_after {machine last : Machine} {steps : Nat}
    (reached : machine.after? steps = some last) : last.cpu.config = machine.cpu.config :=
  after_invariant (fun _ _ same completed => (config_of_step completed).trans same) rfl reached

section Saturate

variable {machine : Machine} (policy : machine.cpu.config.divideByZero = .saturate)
include policy

theorem Raises.not_divide_by_zero {instruction : Instruction} {trap : Trap}
    (raises : machine.Raises instruction trap) : trap.isDivideByZero = false := by
  cases raises with
  | divideByZero _ undefined =>
    rw [policy] at undefined
    exact absurd undefined MulDivOperation.apply_saturate_ne_none
  | _ => rfl

theorem step_not_divide_by_zero {left : Machine} {trap : Trap}
    (trapped : machine.step = ⟨left, some trap⟩) : trap.isDivideByZero = false := by
  rcases trapped_cases trapped with ⟨fault, _, rfl, _⟩ | ⟨word, _, raises, _⟩
  · rfl
  · exact raises.not_divide_by_zero policy

theorem run_not_divide_by_zero (limit : Nat) :
    (machine.run limit).trap.any Trap.isDivideByZero = false := by
  rcases machine.run_cases limit with
    ⟨last, _, ended⟩ | ⟨steps, last, left, trap, _, reached, failed, ended⟩
  · rw [ended]
    rfl
  · rw [ended]
    have same : last.cpu.config.divideByZero = .saturate := by rw [config_of_after reached, policy]
    exact step_not_divide_by_zero same failed

end Saturate

theorem saturate_step_of_divided {machine left : Machine} {pc : Word}
    (trapped : machine.step = ⟨left, some (.divideByZero pc)⟩) :
    ∃ next, (machine.withPolicy .saturate).step = ⟨next, none⟩ ∧ next.cpu.pc = pc + 4 := by
  rcases trapped_cases trapped with ⟨fault, _, other, _⟩ | ⟨word, fetched, raises, _⟩
  · cases other
  · cases raises with
    | divideByZero division =>
      have alike : (machine.withPolicy .saturate).memory.readWord
          (machine.withPolicy .saturate).cpu.pc 4 = .ok word := fetched
      rcases step_of_fetched alike with ⟨trap, raises, _⟩ | ⟨after, next, completes, ended⟩
      · have defined := raises.not_divide_by_zero rfl
        cases raises with
        | divideByZero => cases defined
        | invalid other | breakpoint other | load other | store other => cases division.symm.trans other
      · refine ⟨_, ended, ?_⟩
        exact completes.next_eq (by simp [division, Operation.effects])
          (by simp [division, Operation.effects])

theorem after_run_of_divided {machine : Machine} {limit : Nat} {pc : Word}
    (divided : (machine.run limit).trap = some (.divideByZero pc)) :
    ∃ next, (machine.withPolicy .saturate).after? ((machine.run limit).steps + 1) = some next ∧
      next.cpu.pc = pc + 4 := by
  rcases machine.run_cases limit with
    ⟨last, _, ended⟩ | ⟨steps, last, left, trap, _, reached, failed, ended⟩
  · rw [ended] at divided
    cases divided
  · rw [ended] at divided ⊢
    cases divided
    obtain ⟨next, completed, further⟩ := saturate_step_of_divided failed
    have abreast := transparent_saturate.after_eq reached
    exact ⟨next, after_succ_eq_some_iff.mpr ⟨_, abreast, completed⟩, further⟩

/-- The policy decides nothing but what follows a division by zero. A run that makes none ends in the same
way under both policies. Where it stops at one, the other run has kept abreast of it and goes on behind the
instruction; no run that saturates stops at one. -/
theorem run_under_policies (machine : Machine) (limit : Nat) :
    let trapping := (machine.withPolicy .trap).run limit
    let saturating := machine.withPolicy .saturate
    (trapping.trap.any Trap.isDivideByZero = false →
      saturating.run limit = trapping.map (·.withPolicy .saturate)) ∧
    (∀ pc, trapping.trap = some (.divideByZero pc) →
      Abreast (·.withPolicy .saturate) (machine.withPolicy .trap) trapping.steps ∧
      (∃ next, saturating.after? (trapping.steps + 1) = some next ∧ next.cpu.pc = pc + 4) ∧
      ∀ again, trapping.steps < again → trapping.steps < (saturating.run again).steps) ∧
    ∀ again, (saturating.run again).trap.any Trap.isDivideByZero = false := by
  intro trapping saturating
  refine ⟨transparent_saturate.run_eq (machine.withPolicy .trap) limit, ?_, run_not_divide_by_zero rfl⟩
  intro pc divided
  have abreast := transparent_saturate.abreast_run (machine.withPolicy .trap) limit
  obtain ⟨next, reached, further⟩ := after_run_of_divided divided
  exact ⟨abreast, ⟨next, reached, further⟩, fun again more => le_steps_of_after reached more⟩

def dividing : Machine where
  cpu := .ofConfig { resetPc := 0 }
  memory := ⟨0, ⟨#[0x04, 0x1C, 0x80, 0x02, 0x85, 0x00, 0x20, 0x00, 0x00, 0x00, 0x2A, 0x00]⟩⟩

/-- One run stops at the division, after one step, and the other one makes at least two. Cut short before
the division, they end alike. -/
theorem dividing_under_policies :
    let trapping := dividing.withPolicy .trap
    let saturating := dividing.withPolicy .saturate
    (trapping.run 1).trap = none ∧
    saturating.run 1 = (trapping.run 1).map (·.withPolicy .saturate) ∧
    (trapping.run 5).trap = some (.divideByZero 4) ∧ (trapping.run 5).steps = 1 ∧
    Abreast (·.withPolicy .saturate) trapping 1 ∧
    (∃ next, saturating.after? 2 = some next ∧ next.cpu.pc = 8) ∧ 1 < (saturating.run 5).steps := by
  have short : ((dividing.withPolicy .trap).run 1).trap = none := by decide +kernel
  have trapped : ((dividing.withPolicy .trap).run 5).trap = some (.divideByZero 4) := by
    decide +kernel
  have once : ((dividing.withPolicy .trap).run 5).steps = 1 := by decide +kernel
  have alike := (run_under_policies dividing 1).1 (by rw [short]; rfl)
  obtain ⟨_, parts, _⟩ := run_under_policies dividing 5
  obtain ⟨abreast, beyond, more⟩ := parts 4 trapped
  rw [once] at abreast beyond more
  exact ⟨short, alike, trapped, once, abreast, beyond, more 5 (by decide)⟩

end Machine
end LoongArch
