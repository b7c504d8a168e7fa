import LoongArch.Proofs.Machine.Run

/-!
# Traps change nothing and stay

While register 0 is zero, which every completed step ensures, a step that traps leaves the machine as
it was. The same step then fails in the same way however often it is tried again.
-/

set_option autoImplicit false

namespace LoongArch.Machine

/-- An instruction that traps changes nothing, and clearing register 0 after it has no effect. -/
theorem step_trapped {machine left : Machine} {trap : Trap} (zero : machine.register .zero = 0)
    (trapped : machine.step = ⟨left, some trap⟩) : left = machine := by
  rcases trapped_cases trapped with ⟨fault, _, _, same⟩ | ⟨word, _, _, cleared⟩
  · exact same
  · rw [cleared]
    exact set_register_of_eq zero

theorem register_zero_of_step {machine next : Machine} (completed : machine.step = ⟨next, none⟩) :
    next.register .zero = 0 := by
  obtain ⟨word, after, target, _, _, cleared⟩ := completed_cases completed
  simp [cleared]

theorem register_zero_of_after {machine last : Machine} {steps : Nat}
    (zero : machine.register .zero = 0) (reached : machine.after? steps = some last) :
    last.register .zero = 0 :=
  after_invariant (fun _ _ _ => register_zero_of_step) zero reached

theorem run_of_stuck {machine : Machine} {trap : Trap}
    (stuck : machine.step = ⟨machine, some trap⟩) {limit : Nat} (positive : 0 < limit) :
    machine.run limit = ⟨machine, 0, some trap⟩ := by
  cases limit with
  | zero => cases positive
  | succ limit => simp [run, runFrom, stuck]

/-- The machines that further steps and runs may leave behind, whether these complete or trap. -/
inductive Resumed (machine : Machine) : Machine → Prop where
  | left : Resumed machine machine
  | step {later : Machine} (resumed : Resumed machine later) : Resumed machine later.step.machine
  | run {later : Machine} (resumed : Resumed machine later) (limit : Nat) :
      Resumed machine (later.run limit).machine

theorem resumed_of_stuck {machine later : Machine} {trap : Trap}
    (stuck : machine.step = ⟨machine, some trap⟩) (resumed : machine.Resumed later) :
    later = machine := by
  induction resumed with
  | left => rfl
  | step _ same => rw [same, stuck]
  | run _ limit same =>
    rw [same]
    cases limit with
    | zero => rfl
    | succ limit => rw [run_of_stuck stuck (Nat.succ_pos limit)]

/-- A run that traps leaves the machine exactly as the completed steps left it, and whatever is tried
from there on traps at once, in the same way, and changes nothing. -/
theorem run_trapped_unchanged_and_stuck (machine : Machine) (limit : Nat) (trap : Trap)
    (zero : machine.register .zero = 0) (trapped : (machine.run limit).trap = some trap) :
    let stopped := machine.run limit
    stopped.steps < limit ∧
    machine.after? stopped.steps = some stopped.machine ∧
    ∀ later, stopped.machine.Resumed later →
      later = stopped.machine ∧
      later.step = ⟨stopped.machine, some trap⟩ ∧
      ∀ again, 0 < again → later.run again = ⟨stopped.machine, 0, some trap⟩ := by
  rcases machine.run_cases limit with
    ⟨last, _, ended⟩ | ⟨steps, last, left, cause, fewer, reached, failed, ended⟩
  · rw [ended] at trapped
    cases trapped
  · have same : left = last := step_trapped (register_zero_of_after zero reached) failed
    subst same
    rw [ended] at trapped ⊢
    cases trapped
    refine ⟨fewer, reached, ?_⟩
    intro later resumed
    have unchanged : later = left := resumed_of_stuck failed resumed
    subst unchanged
    exact ⟨rfl, failed, fun again positive => run_of_stuck failed positive⟩

def straddling : Machine where
  cpu := .ofConfig { resetPc := 0 }
  memory := ⟨0, ⟨#[0x04, 0x18, 0x80, 0x02, 0x84, 0x00, 0x80, 0x29]⟩⟩

/-- The store traps after one step, and nothing of it reaches memory however often it is tried. -/
theorem straddling_unchanged_and_stuck :
    let stopped := straddling.run 4
    let trap := Trap.bus 6 (straddling.memory.fault 6 4)
    straddling.register .zero = 0 ∧ stopped.trap = some trap ∧ stopped.steps = 1 ∧
    straddling.after? 1 = some stopped.machine ∧
    ∀ later, stopped.machine.Resumed later → later = stopped.machine ∧
      later.step = ⟨stopped.machine, some trap⟩ ∧
      ∀ again, 0 < again → later.run again = ⟨stopped.machine, 0, some trap⟩ := by
  have zero : straddling.register .zero = 0 := by decide +kernel
  have trapped : (straddling.run 4).trap = some (.bus 6 (straddling.memory.fault 6 4)) := by
    decide +kernel
  have once : (straddling.run 4).steps = 1 := by decide +kernel
  obtain ⟨_, reached, stays⟩ := run_trapped_unchanged_and_stuck straddling 4 _ zero trapped
  rw [once] at reached
  exact ⟨zero, trapped, once, reached, stays⟩

end LoongArch.Machine
