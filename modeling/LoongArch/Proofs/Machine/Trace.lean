import LoongArch.Machine.Trace
import LoongArch.Proofs.Machine.ZeroRegister

/-!
# What a trace tells of its run

A run reports each instruction when it has fetched it, so the events of a run follow its states one by
one, whatever the program writes over itself. At the end a trap shows whether the last fetch succeeded:
the address of a failed fetch is the program counter, which that of a failed access never is.
-/

set_option autoImplicit false

namespace LoongArch

/-- An event that tells of the next instruction of a machine: where it stands, the word that memory holds
there at that moment, and how this word reads. -/
structure Event.Announces (event : Event) (machine : Machine) (word : Word) : Prop where
  held : machine.memory.readWord machine.cpu.pc 4 = .ok word
  fetched : event = .fetched machine.cpu.pc word
  line : event.line = "TRACE itrace: " ++ Numeral.address machine.cpu.pc.toNat ++ ": " ++
    Numeral.hexDigits 8 word.toNat ++ "  " ++ (Instruction.decode word).text machine.cpu.pc

namespace Machine

structure Announced (machine : Machine) (count : Nat) (events : List Event) : Prop where
  length : events.length = count
  event : ∀ index < count, ∃ before word event, machine.after? index = some before ∧
    events[index]? = some event ∧ event.Announces before word

theorem Announced.zero (machine : Machine) : machine.Announced 0 [] where
  length := rfl
  event _ below := absurd below (Nat.not_lt_zero _)

theorem Announced.succ {machine before : Machine} {count : Nat} {events : List Event} {word : Word}
    (announced : machine.Announced count events) (reached : machine.after? count = some before)
    (held : before.memory.readWord before.cpu.pc 4 = .ok word) :
    machine.Announced (count + 1) (events ++ [.fetched before.cpu.pc word]) where
  length := by rw [List.length_append, announced.length, List.length_singleton]
  event index below := by
    rcases Nat.lt_succ_iff_lt_or_eq.mp below with earlier | rfl
    · obtain ⟨state, seen, event, passed, found, announces⟩ := announced.event index earlier
      refine ⟨state, seen, event, passed, ?_, announces⟩
      rw [List.getElem?_append_left (announced.length ▸ earlier), found]
    · refine ⟨before, word, _, reached, ?_, ⟨held, rfl, rfl⟩⟩
      rw [← announced.length, List.getElem?_concat_length]

theorem step_events_of_unfetched {machine : Machine} {fault : AccessFault}
    (unfetched : machine.memory.readWord machine.cpu.pc 4 = .error fault) :
    machine.stepEvents = [] := by
  simp only [stepEvents, Memory.fetch, unfetched]

section Fetched

variable {machine : Machine} {word : Word}
  (fetched : machine.memory.readWord machine.cpu.pc 4 = .ok word)
include fetched

theorem step_events_of_completed {next : Machine} (completed : machine.step = ⟨next, none⟩) :
    machine.stepEvents = [.fetched machine.cpu.pc word] := by
  simp only [stepEvents, Memory.fetch, fetched, completed]

theorem step_events_of_trapped {left : Machine} {trap : Trap}
    (trapped : machine.step = ⟨left, some trap⟩) :
    machine.stepEvents = [.fetched machine.cpu.pc word, .trapped trap word] := by
  simp only [stepEvents, Memory.fetch, fetched, trapped]

end Fetched

theorem run_events_from_of_after {machine last : Machine} {count : Nat}
    (reached : machine.after? count = some last) :
    ∃ told, machine.Announced count told ∧ ∀ made limit,
      machine.runEventsFrom made (count + limit) = told ++ last.runEventsFrom (made + count) limit := by
  -- The last completed step is split off: its event goes behind those told so far.
  induction count generalizing last with
  | zero =>
    cases reached
    exact ⟨[], .zero machine, fun made limit => by rw [Nat.zero_add]; rfl⟩
  | succ count hypothesis =>
    obtain ⟨before, earlier, completed⟩ := after_succ_eq_some_iff.mp reached
    obtain ⟨told, announced, continued⟩ := hypothesis earlier
    obtain ⟨word, _, _, held, _⟩ := completed_cases completed
    refine ⟨_, announced.succ earlier held, fun made limit => ?_⟩
    have more : count + 1 + limit = count + (limit + 1) := by omega
    calc machine.runEventsFrom made (count + 1 + limit)
      _ = told ++ before.runEventsFrom (made + count) (limit + 1) := by rw [more, continued]
      _ = told ++ ([.fetched before.cpu.pc word] ++
            last.runEventsFrom (made + count + 1) limit) := by
        rw [runEventsFrom, step_events_of_completed held completed, completed]
      _ = _ := by rw [List.append_assoc, Nat.add_assoc]

theorem run_events_of_after {machine last : Machine} {count : Nat}
    (reached : machine.after? count = some last) :
    machine.Announced count (machine.runEvents count) := by
  obtain ⟨told, announced, continued⟩ := run_events_from_of_after reached
  have all : machine.runEvents count = told := by
    have whole := continued 0 0
    rwa [runEventsFrom, List.append_nil] at whole
  rwa [all]

theorem run_events_of_trapped {machine last left : Machine} {steps limit : Nat} {trap : Trap}
    (reached : machine.after? steps = some last) (failed : last.step = ⟨left, some trap⟩)
    (fewer : steps < limit) :
    ∃ told, machine.Announced steps told ∧
      machine.runEvents limit = told ++ last.stepEvents ++ [.stopped steps] := by
  obtain ⟨told, announced, continued⟩ := run_events_from_of_after reached
  obtain ⟨further, rfl⟩ := Nat.exists_eq_add_of_lt fewer
  refine ⟨told, announced, ?_⟩
  rw [runEvents, Nat.add_assoc, continued, Nat.zero_add, runEventsFrom, failed, List.append_assoc]

/-- No access fails at the address of the instruction that makes it. -/
theorem address_ne_of_execute {machine : Machine} {instruction : Instruction} {address : Word}
    {fault : AccessFault} (inside : machine.memory.Covers machine.cpu.pc 4)
    (failed : (machine.execute machine.cursor instruction).trap = some (.bus address fault)) :
    address ≠ machine.cpu.pc := by
  rcases machine.execute_cases instruction with ⟨trap, raises, ended⟩ | ⟨after, next, _, ended⟩
  · rw [ended] at failed
    cases failed
    exact raises.address_ne inside
  · rw [ended] at failed
    cases failed

/-- The events of a run tell of every instruction that it fetched, in order, each with the state of its
moment. There are no others if the run makes all its steps. If a trap cuts it short, the number of
completed steps ends them, and before that stands the trap with the word fetched last, unless it was the
fetch that failed. This is so exactly if the trap has the program counter as its address. -/
theorem run_events_exact (machine : Machine) (limit : Nat) :
    let finished := machine.run limit
    let pc := finished.machine.cpu.pc
    let events := machine.runEvents limit
    (finished.trap = none → finished.steps = limit ∧ machine.Announced limit events) ∧
    (∀ trap, finished.trap = some trap →
      (∃ fault, trap = .bus pc fault ∧ ¬finished.machine.memory.Covers pc 4 ∧
        ∃ told, machine.Announced finished.steps told ∧ events = told ++ [.stopped finished.steps]) ∨
      (∀ fault, trap ≠ .bus pc fault) ∧
        ∃ told word, machine.Announced (finished.steps + 1) told ∧
          told.getLast? = some (.fetched pc word) ∧
          events = told ++ [.trapped trap word, .stopped finished.steps]) ∧
    ∀ instruction address fault, machine.memory.Covers machine.cpu.pc 4 →
      (machine.execute machine.cursor instruction).trap = some (.bus address fault) →
      address ≠ machine.cpu.pc := by
  rcases machine.run_cases limit with
    ⟨last, reached, ended⟩ | ⟨steps, last, left, cause, fewer, reached, failed, ended⟩
  · rw [ended]
    refine ⟨fun _ => ⟨rfl, run_events_of_after reached⟩, ?_, fun _ _ _ => address_ne_of_execute⟩
    intro trap trapped
    cases trapped
  · rw [ended]
    refine ⟨nofun, fun trap same => ?_, fun _ _ _ => address_ne_of_execute⟩
    cases same
    obtain ⟨told, announced, events⟩ := run_events_of_trapped reached failed fewer
    rw [events, pc_of_trapped failed]
    rcases trapped_cases failed with ⟨fault, unfetched, rfl, rfl⟩ | ⟨word, held, raises, _⟩
    · have outside := (Memory.read_word_error_iff.mp unfetched).1
      refine .inl ⟨fault, rfl, outside, told, announced, ?_⟩
      rw [step_events_of_unfetched unfetched, List.append_nil]
    · have inside := (Memory.read_word_ok_iff.mp held).1
      refine .inr ⟨?_, _, word, announced.succ reached held, List.getLast?_concat, ?_⟩
      · rintro fault rfl
        exact raises.address_ne inside rfl
      · rw [step_events_of_trapped held failed, List.append_assoc, List.append_assoc]
        rfl

/-- The store that reaches behind memory was fetched, so its trap is told of with its word. -/
theorem straddling_events_exact :
    let trap := Trap.bus 6 (straddling.memory.fault 6 4)
    (straddling.run 4).trap = some trap ∧ (straddling.run 4).machine.cpu.pc = 4 ∧
    (∃ told word, straddling.Announced 2 told ∧ told.getLast? = some (.fetched 4 word) ∧
      straddling.runEvents 4 = told ++ [.trapped trap word, .stopped 1]) ∧
    straddling.Announced 1 (straddling.runEvents 1) := by
  have trapped : (straddling.run 4).trap = some (.bus 6 (straddling.memory.fault 6 4)) := by
    decide +kernel
  have once : (straddling.run 4).steps = 1 := by decide +kernel
  have stays : (straddling.run 4).machine.cpu.pc = 4 := by decide +kernel
  have complete : (straddling.run 1).trap = none := by decide +kernel
  obtain ⟨_, stopped, _⟩ := run_events_exact straddling 4
  obtain ⟨all, _⟩ := run_events_exact straddling 1
  refine ⟨trapped, stays, ?_, (all complete).2⟩
  rcases stopped _ trapped with ⟨fault, same, _⟩ | ⟨_, told⟩
  · rw [stays] at same
    cases same
  · rwa [stays, once] at told

end Machine
end LoongArch
