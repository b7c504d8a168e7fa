import LoongArch.Proofs.Machine.Trapping

/-!
# Register 0 after a step

Register 0 may hold anything before a step: whoever sets up a machine can write to it. A step clears it
behind every instruction that it fetches, whether this completes or traps. A step that cannot fetch its
instruction ends before that and leaves register 0 as it was. The trap tells the two apart, since no
access of a fetched instruction fails at the address it was fetched from.
-/

set_option autoImplicit false

namespace LoongArch.Machine

def unfetched (machine : Machine) : Trap :=
  .bus machine.cpu.pc (machine.memory.fault machine.cpu.pc 4)

theorem step_of_uncovered {machine : Machine}
    (outside : ¬machine.memory.Covers machine.cpu.pc 4) :
    machine.step = ⟨machine, some machine.unfetched⟩ :=
  step_of_unfetched (Memory.read_word_error_iff.mpr ⟨outside, rfl⟩)

/-- An instruction finds memory at its own address: all its bytes were fetched from there, and no access
is longer. -/
theorem Raises.address_ne {machine : Machine} {instruction : Instruction} {address : Word}
    {fault : AccessFault} (inside : machine.memory.Covers machine.cpu.pc 4)
    (raises : machine.Raises instruction (.bus address fault)) : address ≠ machine.cpu.pc := by
  intro same
  cases raises with
  | @load width _ _ outside | @store width _ outside =>
    rw [same] at outside
    have shorter := Nat.add_le_add_left width.bytes_le_four machine.cpu.pc.toNat
    exact outside ⟨inside.1, Nat.le_trans shorter inside.2⟩

theorem Raises.ne_unfetched {machine : Machine} {instruction : Instruction} {trap : Trap}
    (inside : machine.memory.Covers machine.cpu.pc 4)
    (raises : machine.Raises instruction trap) : trap ≠ machine.unfetched := by
  rintro rfl
  exact raises.address_ne inside rfl

section Covered

variable {machine : Machine} (inside : machine.memory.Covers machine.cpu.pc 4)
include inside

theorem register_zero_of_covered : machine.step.machine.register .zero = 0 := by
  have fetched := Memory.read_word_ok_iff.mpr ⟨inside, rfl⟩
  rcases step_of_fetched fetched with ⟨trap, _, ended⟩ | ⟨after, next, _, ended⟩ <;>
    simp [ended]

theorem trap_ne_unfetched_of_covered : machine.step.trap ≠ some machine.unfetched := by
  have fetched := Memory.read_word_ok_iff.mpr ⟨inside, rfl⟩
  rcases step_of_fetched fetched with ⟨trap, raises, ended⟩ | ⟨after, next, _, ended⟩
  · rw [ended]
    exact fun same => raises.ne_unfetched inside (Option.some_inj.mp same)
  · rw [ended]
    exact nofun

/-- Only the first fetch of a run can fail with register 0 not cleared. -/
theorem register_zero_of_run {limit : Nat} (positive : 0 < limit) :
    (machine.run limit).machine.register .zero = 0 := by
  rcases machine.run_cases limit with
    ⟨last, reached, ended⟩ | ⟨steps, last, left, trap, _, reached, failed, ended⟩
  · obtain ⟨count, rfl⟩ := Nat.exists_eq_add_one.mpr positive
    obtain ⟨before, _, completed⟩ := after_succ_eq_some_iff.mp reached
    rw [ended]
    exact register_zero_of_step completed
  · rw [ended]
    cases steps with
    | zero =>
      cases reached
      have cleared := register_zero_of_covered inside
      rwa [failed] at cleared
    | succ steps =>
      obtain ⟨before, _, completed⟩ := after_succ_eq_some_iff.mp reached
      have zero : last.register .zero = 0 := register_zero_of_step completed
      rwa [← step_trapped zero failed] at zero

end Covered

theorem pc_of_trapped {machine left : Machine} {trap : Trap}
    (trapped : machine.step = ⟨left, some trap⟩) : left.cpu.pc = machine.cpu.pc := by
  rcases trapped_cases trapped with ⟨_, _, _, rfl⟩ | ⟨_, _, _, rfl⟩ <;> rfl

/-- After a step register 0 reads as zero, unless the trap is that of a failed fetch, which leaves the
machine as it was. A trap leaves the program counter on its instruction. -/
theorem register_zero_after_step (machine : Machine) :
    machine.step.machine.register .zero =
        (if machine.step.trap = some machine.unfetched then machine.register .zero else 0) ∧
    (machine.step.trap = some machine.unfetched ↔ ¬machine.memory.Covers machine.cpu.pc 4) ∧
    (∀ trap, machine.step.trap = some trap → machine.step.machine.cpu.pc = machine.cpu.pc) ∧
    ∀ limit, 0 < limit → machine.memory.Covers machine.cpu.pc 4 →
      (machine.run limit).machine.register .zero = 0 := by
  refine ⟨?_, ?_, ?_, fun limit positive inside => register_zero_of_run inside positive⟩
  · by_cases inside : machine.memory.Covers machine.cpu.pc 4
    · rw [register_zero_of_covered inside, if_neg (trap_ne_unfetched_of_covered inside)]
    · rw [step_of_uncovered inside, if_pos rfl]
  · constructor
    · exact fun trapped inside => trap_ne_unfetched_of_covered inside trapped
    · exact fun outside => congrArg Stepped.trap (step_of_uncovered outside)
  · intro trap trapped
    have ended : machine.step = ⟨machine.step.machine, some trap⟩ := by rw [← trapped]
    exact pc_of_trapped ended

def stale (pc : Word) : Machine where
  cpu := { pc, registers := RegisterFile.cleared.write .zero 7, config := {} }
  memory := .zeros 0 4

/-- The word at 0 is fetched, so its trap leaves register 0 cleared. -/
theorem invalid_clears_register_zero :
    (stale 0).step.trap = some (.invalidInstruction 0) ∧
    (stale 0).memory.Covers (stale 0).cpu.pc 4 ∧
    (stale 0).step.machine.register .zero = 0 ∧ (stale 0).step.machine.cpu.pc = 0 ∧
    ((stale 0).run 3).machine.register .zero = 0 := by
  have trapped : (stale 0).step.trap = some (.invalidInstruction 0) := by decide +kernel
  have inside : (stale 0).memory.Covers (stale 0).cpu.pc 4 := by decide +kernel
  obtain ⟨cleared, fetched, stays, later⟩ := register_zero_after_step (stale 0)
  rw [if_neg fun failed => fetched.mp failed inside] at cleared
  exact ⟨trapped, inside, cleared, stays _ trapped, later 3 (by decide) inside⟩

/-- Outside of memory a step returns with a trap, and register 0 does not read as zero. -/
theorem unfetched_keeps_register_zero :
    (stale 0x1000).step.trap = some (.bus 0x1000 ((stale 0x1000).memory.fault 0x1000 4)) ∧
    (stale 0x1000).step.machine.register .zero = 7 ∧
    ¬∀ machine : Machine, machine.step.machine.register .zero = 0 := by
  have kept : (stale 0x1000).step.machine.register .zero = 7 := by decide +kernel
  refine ⟨by decide +kernel, kept, ?_⟩
  intro cleared
  have zero := cleared (stale 0x1000)
  rw [kept] at zero
  cases zero

end LoongArch.Machine
