import LoongArch.Proofs.Machine.Step

/-!
# Runs as sequences of steps

The states of a run, counted by the steps that were completed. A run that makes all its steps ends in
the last of them; one that is cut short ends where the trapping step left the machine.
-/

set_option autoImplicit false

namespace LoongArch.Machine

def next? (machine : Machine) : Option Machine :=
  match machine.step with
  | ⟨next, none⟩ => some next
  | ⟨_, some _⟩ => none

/-- The machine after a number of completed steps; there is none if one of them traps. -/
def after? (machine : Machine) : Nat → Option Machine
  | 0 => some machine
  | steps + 1 => (machine.after? steps).bind next?

theorem next_eq_some_iff {machine next : Machine} :
    machine.next? = some next ↔ machine.step = ⟨next, none⟩ := by
  unfold next?
  cases machine.step with
  | mk left trap => cases trap <;> simp

theorem after_succ_eq_some_iff {machine last : Machine} {steps : Nat} :
    machine.after? (steps + 1) = some last ↔
      ∃ before, machine.after? steps = some before ∧ before.step = ⟨last, none⟩ := by
  simp only [after?, Option.bind_eq_some_iff, next_eq_some_iff]

theorem after_succ_of_step {machine next : Machine} (completed : machine.step = ⟨next, none⟩)
    (steps : Nat) : machine.after? (steps + 1) = next.after? steps := by
  induction steps with
  | zero =>
    change machine.next? = some next
    exact next_eq_some_iff.mpr completed
  | succ steps hypothesis =>
    rw [after?, hypothesis]
    rfl

theorem after_invariant {holds : Machine → Prop}
    (kept : ∀ machine next : Machine, holds machine → machine.step = ⟨next, none⟩ → holds next)
    {machine last : Machine} {steps : Nat} (start : holds machine)
    (reached : machine.after? steps = some last) : holds last := by
  induction steps generalizing last with
  | zero =>
    cases reached
    exact start
  | succ steps hypothesis =>
    obtain ⟨before, earlier, completed⟩ := after_succ_eq_some_iff.mp reached
    exact kept before last (hypothesis earlier) completed

theorem exists_after_of_le {machine last : Machine} {count steps : Nat}
    (reached : machine.after? count = some last) (fewer : steps ≤ count) :
    ∃ before, machine.after? steps = some before := by
  induction fewer generalizing last with
  | refl => exact ⟨last, reached⟩
  | step _ hypothesis =>
    obtain ⟨before, earlier, _⟩ := after_succ_eq_some_iff.mp reached
    exact hypothesis earlier

theorem run_from_cases (machine : Machine) (made limit : Nat) :
    (∃ last, machine.after? limit = some last ∧
      machine.runFrom made limit = ⟨last, made + limit, none⟩) ∨
    ∃ steps last left trap, steps < limit ∧ machine.after? steps = some last ∧
      last.step = ⟨left, some trap⟩ ∧ machine.runFrom made limit = ⟨left, made + steps, some trap⟩ := by
  induction limit generalizing machine made with
  | zero => exact .inl ⟨machine, rfl, rfl⟩
  | succ limit hypothesis =>
    cases stepped : machine.step with
    | mk next outcome =>
      cases outcome with
      | some trap =>
        refine .inr ⟨0, machine, next, trap, Nat.succ_pos limit, rfl, stepped, ?_⟩
        simp [runFrom, stepped]
      | none =>
        have rest : machine.runFrom made (limit + 1) = next.runFrom (made + 1) limit := by
          simp [runFrom, stepped]
        rw [rest]
        rcases hypothesis next (made + 1) with
          ⟨last, reached, ended⟩ | ⟨steps, last, left, trap, fewer, reached, failed, ended⟩
        · refine .inl ⟨last, ?_, ?_⟩
          · rw [after_succ_of_step stepped, reached]
          · rw [ended, Nat.add_right_comm, Nat.add_assoc]
        · refine .inr ⟨steps + 1, last, left, trap, Nat.succ_lt_succ fewer, ?_, failed, ?_⟩
          · rw [after_succ_of_step stepped, reached]
          · rw [ended, Nat.add_right_comm, Nat.add_assoc]

/-- A run makes all its steps, or it stops at the first one that traps. -/
theorem run_cases (machine : Machine) (limit : Nat) :
    (∃ last, machine.after? limit = some last ∧ machine.run limit = ⟨last, limit, none⟩) ∨
    ∃ steps last left trap, steps < limit ∧ machine.after? steps = some last ∧
      last.step = ⟨left, some trap⟩ ∧ machine.run limit = ⟨left, steps, some trap⟩ := by
  simpa only [run, Nat.zero_add] using machine.run_from_cases 0 limit

theorem exists_after_run (machine : Machine) (limit : Nat) :
    ∃ last, machine.after? (machine.run limit).steps = some last := by
  rcases machine.run_cases limit with ⟨last, reached, ended⟩ | ⟨steps, last, _, _, _, reached, _, ended⟩
  · exact ⟨last, by rw [ended, reached]⟩
  · exact ⟨last, by rw [ended, reached]⟩

theorem le_steps_of_after {machine last : Machine} {count limit : Nat}
    (reached : machine.after? count = some last) (within : count ≤ limit) :
    count ≤ (machine.run limit).steps := by
  rcases machine.run_cases limit with ⟨_, _, ended⟩ | ⟨steps, stopped, left, trap, _, arrived, failed, ended⟩
  · rw [ended]
    exact within
  · rw [ended]
    apply Nat.le_of_not_lt
    intro beyond
    obtain ⟨next, later⟩ := exists_after_of_le reached beyond
    obtain ⟨before, same, completed⟩ := after_succ_eq_some_iff.mp later
    cases arrived.symm.trans same
    cases failed.symm.trans completed

end LoongArch.Machine
