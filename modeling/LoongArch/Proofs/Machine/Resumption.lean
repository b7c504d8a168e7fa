import LoongArch.Proofs.Machine.Run

/-!
# Runs in parts

A run may be cut at any number of steps and resumed in the machine that it has left. Nothing tells the
parts from a run in one piece, whether the cut falls before a trap, at it or behind it.
-/

set_option autoImplicit false

namespace LoongArch

def Finished.outcome (finished : Finished) : Except Trap Nat :=
  match finished.trap with
  | none => .ok finished.steps
  | some trap => .error trap

/-- Runs for further steps from where a run has ended. A trap is final. -/
def Finished.resume (finished : Finished) (limit : Nat) : Finished :=
  match finished.trap with
  | none =>
    let rest := finished.machine.run limit
    { rest with steps := finished.steps + rest.steps }
  | some _ => finished

namespace Machine

theorem run_from_eq_run (machine : Machine) (made limit : Nat) :
    machine.runFrom made limit =
      { machine.run limit with steps := made + (machine.run limit).steps } := by
  unfold run
  induction limit generalizing machine made with
  | zero => rfl
  | succ limit hypothesis =>
    cases stepped : machine.step with
    | mk next outcome =>
      cases outcome with
      | none =>
        simp only [runFrom, stepped]
        rw [hypothesis next (made + 1), hypothesis next (0 + 1)]
        simp only [Nat.zero_add, Nat.add_assoc]
      | some trap => simp only [runFrom, stepped, Nat.add_zero]

theorem run_from_add (machine : Machine) (made first second : Nat) :
    machine.runFrom made (first + second) = (machine.runFrom made first).resume second := by
  induction first generalizing machine made with
  | zero =>
    rw [Nat.zero_add]
    exact machine.run_from_eq_run made second
  | succ first hypothesis =>
    rw [Nat.add_right_comm]
    cases stepped : machine.step with
    | mk next outcome =>
      cases outcome with
      | none =>
        simp only [runFrom, stepped]
        exact hypothesis next (made + 1)
      | some trap =>
        simp only [runFrom, stepped]
        rfl

theorem run_add (machine : Machine) (first second : Nat) :
    machine.run (first + second) = (machine.run first).resume second :=
  machine.run_from_add 0 first second

section Reached

variable {machine last : Machine} {steps : Nat} (reached : machine.after? steps = some last)
include reached

theorem run_of_after : machine.run steps = ⟨last, steps, none⟩ := by
  rcases machine.run_cases steps with ⟨same, again, ended⟩ | ⟨_, _, _, _, fewer, _, _, ended⟩
  · cases reached.symm.trans again
    exact ended
  · have made := le_steps_of_after reached (Nat.le_refl steps)
    rw [ended] at made
    exact absurd fewer (Nat.not_lt_of_le made)

theorem run_of_after_trapped {left : Machine} {trap : Trap}
    (failed : last.step = ⟨left, some trap⟩) {limit : Nat} (beyond : steps < limit) :
    machine.run limit = ⟨left, steps, some trap⟩ := by
  obtain ⟨further, rfl⟩ := Nat.exists_eq_add_of_lt beyond
  have once : last.run (further + 1) = ⟨left, 0, some trap⟩ := by
    simp only [run, runFrom, failed]
  rw [Nat.add_assoc, run_add, run_of_after reached]
  simp only [Finished.resume, once, Nat.add_zero]

end Reached

/-- A run is its first part followed, unless that trapped, by the rest from where it ended: in the machine
left behind, in the steps counted and in what is reported. So a run that traps after some steps is the same
under every larger limit, and under every other limit it completes its steps. -/
theorem run_in_parts (machine : Machine) (first second : Nat) :
    let part := machine.run first
    let rest := part.machine.run second
    let whole := machine.run (first + second)
    whole = part.resume second ∧
    (part.outcome = .ok first ∧ whole.machine = rest.machine ∧
        whole.outcome = rest.outcome.map (first + ·) ∨
      ∃ trap, part.outcome = .error trap ∧ whole.machine = part.machine ∧
        whole.outcome = .error trap) ∧
    (whole.outcome = .ok (first + second) ↔ part.outcome = .ok first ∧ rest.outcome = .ok second) ∧
    ∀ trap, part.outcome = .error trap →
      (∀ more, part.steps < more → machine.run more = part) ∧
      ∀ fewer ≤ part.steps, (machine.run fewer).outcome = .ok fewer ∧
        machine.after? fewer = some (machine.run fewer).machine := by
  intro part rest whole
  have joined : whole = part.resume second := machine.run_add first second
  refine ⟨joined, ?_⟩
  rcases machine.run_cases first with
    ⟨last, _, ended⟩ | ⟨steps, last, left, cause, _, reached, failed, ended⟩
  case inl =>
    have complete : part.outcome = .ok first := by
      simp only [part, ended, Finished.outcome]
    have continued : whole = { rest with steps := first + rest.steps } := by
      simp only [joined, Finished.resume, part, rest, ended]
    have reported : whole.outcome = rest.outcome.map (first + ·) := by
      rw [continued]
      simp only [Finished.outcome]
      cases rest.trap <;> rfl
    refine ⟨.inl ⟨complete, by rw [continued], reported⟩, ?_, fun trap trapped => ?_⟩
    · rw [reported, complete]
      cases rest.outcome <;> simp [Except.map]
    · rw [complete] at trapped
      cases trapped
  case inr =>
    have stopped : part = ⟨left, steps, some cause⟩ := ended
    have unchanged : whole = part := by
      rw [joined, stopped]
      rfl
    have reported : part.outcome = .error cause := by
      rw [stopped]
      rfl
    refine ⟨.inr ⟨cause, reported, by rw [unchanged], by rw [unchanged, reported]⟩, ?_, ?_⟩
    · rw [unchanged, reported]
      simp
    · intro _ _
      rw [stopped]
      refine ⟨fun more beyond => run_of_after_trapped reached failed beyond, fun fewer within => ?_⟩
      obtain ⟨before, earlier⟩ := exists_after_of_le reached within
      rw [run_of_after earlier]
      exact ⟨rfl, earlier⟩

def counting : Machine where
  cpu := .ofConfig { resetPc := 0 }
  memory := ⟨0, ⟨#[0x04, 0x0C, 0x80, 0x02, 0x84, 0x04, 0x80, 0x02, 0x00, 0x00, 0x2A, 0x00]⟩⟩

/-- Cut behind its second step, it stops in the first step of the rest; allowed more than two steps, it
stops there as well. -/
theorem counting_in_parts :
    let stopped := counting.run 3
    stopped.outcome = .error (.breakpoint 8 4) ∧ stopped.steps = 2 ∧
    (counting.run 2).outcome = .ok 2 ∧ stopped = (counting.run 2).resume 1 ∧
    counting.run 1000 = stopped ∧ counting.after? 2 = some (counting.run 2).machine := by
  have broken : (counting.run 3).trap = some (.breakpoint 8 4) := by decide +kernel
  have trapped : (counting.run 3).outcome = .error (.breakpoint 8 4) := by
    rw [Finished.outcome, broken]
  have twice : (counting.run 3).steps = 2 := by decide +kernel
  have joined := (run_in_parts counting 2 1).1
  obtain ⟨_, _, _, particular⟩ := run_in_parts counting 3 0
  obtain ⟨beyond, within⟩ := particular _ trapped
  rw [twice] at beyond within
  obtain ⟨complete, reached⟩ := within 2 (Nat.le_refl 2)
  exact ⟨trapped, twice, complete, joined, beyond 1000 (by decide), reached⟩

end Machine
end LoongArch
