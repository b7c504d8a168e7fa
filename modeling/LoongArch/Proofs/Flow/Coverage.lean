import LoongArch.Proofs.Flow.Agreement
import LoongArch.Proofs.Machine.Run

/-!
# Runs stay within the analysis

A run that begins at an entry, on a machine whose memory holds the image wherever instructions are
fetched, meets only instructions that an analysis of the image has found. The analysis does not know
where a jump through a register leads, so such jumps are taken to return to where a call of the same
run left off, or to lead to an instruction that was found.
-/

set_option autoImplicit false

namespace LoongArch

/-- What a run of a given number of steps, the last of which may trap, has to do with an image. -/
structure Machine.RunsWithin (machine : Machine) (image : Image) (analysis : Analysis) (length : Nat) :
    Prop where
  reads : ∀ steps < length, ∀ current word, machine.after? steps = some current →
    current.memory.readWord current.cpu.pc 4 = .ok word → image.word? current.cpu.pc = some word
  /-- A jump through a register leads to an instruction that was found, or behind an earlier call. -/
  returns : ∀ steps < length, ∀ current next word, machine.after? steps = some current →
    current.memory.readWord current.cpu.pc 4 = .ok word →
    (Instruction.decode word).operation = .jumpRegister → current.step = ⟨next, none⟩ →
    next.cpu.pc ∈ analysis.words ∨
      ∃ earlier < steps, ∃ caller call, machine.after? earlier = some caller ∧
        caller.memory.readWord caller.cpu.pc 4 = .ok call ∧ Instruction.Links call ∧
        next.cpu.pc = caller.cpu.pc + 4

section Coverage

variable {image : Image} {entries : List Word} {limit : Nat}
  (room : (Analysis.ofEntries image entries limit).words.size < limit)
include room

theorem Analysis.known_of_leaving {pc word : Word} {edge : Edge}
    (known : pc ∈ (ofEntries image entries limit).words) (readable : image.word? pc = some word)
    (leaves : edge ∈ Edge.leaving pc word) {following : Word}
    (present : image.word? edge.target = some following) :
    edge.target ∈ (ofEntries image entries limit).words := by
  have faithful := faithful_of_entries image entries limit
  have found := faithful.mem_edges_of_known (faithful.known_word known readable) leaves
  exact covered_of_entries image entries limit room present (.inr ⟨edge, found, rfl⟩)

theorem Machine.known_of_after {machine : Machine} {length : Nat} (entered : machine.cpu.pc ∈ entries)
    (within : machine.RunsWithin image (Analysis.ofEntries image entries limit) length) {steps : Nat}
    (early : steps < length) {current : Machine} (reached : machine.after? steps = some current)
    {word : Word} (fetched : current.memory.readWord current.cpu.pc 4 = .ok word) :
    current.cpu.pc ∈ (Analysis.ofEntries image entries limit).words := by
  induction steps using Nat.strong_induction_on generalizing current word with
  | _ steps hypothesis =>
    have present := within.reads steps early current word reached fetched
    cases steps with
    | zero =>
      cases reached
      exact Analysis.covered_of_entries image entries limit room present (.inl entered)
    | succ steps =>
      obtain ⟨before, earlier, completed⟩ := after_succ_eq_some_iff.mp reached
      obtain ⟨executed, _, _, held, _, _⟩ := completed_cases completed
      have earlyBefore : steps < length := Nat.lt_of_succ_lt early
      have knownBefore := hypothesis steps (Nat.lt_succ_self steps) earlyBefore earlier held
      have readable := within.reads steps earlyBefore before executed earlier held
      by_cases direct : (Instruction.decode executed).operation = .jumpRegister
      · rcases within.returns steps earlyBefore before current executed earlier held direct completed
          with known | ⟨call, sooner, caller, instruction, called, heldCall, links, target⟩
        · exact known
        · have earlyCall : call < length := Nat.lt_trans sooner earlyBefore
          have knownCall :=
            hypothesis call (Nat.lt_succ_of_lt sooner) earlyCall called heldCall
          have readableCall := within.reads call earlyCall caller instruction called heldCall
          rw [target] at present ⊢
          exact Analysis.known_of_leaving room knownCall readableCall
            (Edge.following_mem_leaving links) present
      · obtain ⟨kind, leaves⟩ := step_mem_leaving held completed direct
        exact Analysis.known_of_leaving room knownBefore readable leaves present

end Coverage

/-- Static coverage of runs: if the limit did not cut the analysis short, every instruction that a run
from an entry fetches is known to it, and the run can stop itself only where the analysis has a halt. -/
theorem Machine.run_covered_by_analysis (image : Image) (entries : List Word) (limit : Nat)
    (machine : Machine) (length : Nat)
    (room : (Analysis.ofEntries image entries limit).words.size < limit)
    (entered : machine.cpu.pc ∈ entries)
    (within : machine.RunsWithin image (Analysis.ofEntries image entries limit) length) :
    ∀ steps < length, ∀ current, machine.after? steps = some current →
      (∀ word, current.memory.readWord current.cpu.pc 4 = .ok word →
        current.cpu.pc ∈ (Analysis.ofEntries image entries limit).words) ∧
      ∀ trap, current.step.trap = some trap → trap.isHalt = true →
        current.cpu.pc ∈ (Analysis.ofEntries image entries limit).halts := by
  intro steps early current reached
  have known : ∀ word, current.memory.readWord current.cpu.pc 4 = .ok word →
      current.cpu.pc ∈ (Analysis.ofEntries image entries limit).words :=
    fun _ fetched => known_of_after room entered within early reached fetched
  refine ⟨known, ?_⟩
  intro trap trapped halts
  cases fetched : current.memory.readWord current.cpu.pc 4 with
  | error fault =>
    rw [step_of_unfetched fetched] at trapped
    cases trapped
    cases halts
  | ok word =>
    have faithful := Analysis.faithful_of_entries image entries limit
    have present := within.reads steps early current word reached fetched
    have recorded := faithful.known_word (known word fetched) present
    rw [faithful.halts.mem_iff_of_known recorded]
    exact (step_halts_iff fetched).mp ⟨trap, trapped, halts⟩

namespace Machine

def calling : Machine where
  cpu := .ofConfig { resetPc := 0 }
  memory := ⟨0, ⟨#[0x00, 0x08, 0x00, 0x54, 0x00, 0x00, 0x2A, 0x00, 0x20, 0x00, 0x00, 0x4C]⟩⟩

theorem calling_fetches : ∀ steps < 3, ∀ current ∈ calling.after? steps,
    (current.memory.readWord current.cpu.pc 4).toOption =
      [0x54000800, 0x4C000020, 0x002A0000][steps]? := by
  decide +kernel

theorem calling_runs_within : calling.RunsWithin (.raw 0 calling.memory.bytes)
    (.ofEntries (.raw 0 calling.memory.bytes) [0] 4) 3 where
  reads steps early current word reached fetched := by
    have agree : ∀ steps < 3, ∀ current ∈ calling.after? steps,
        Image.word? (.raw 0 calling.memory.bytes) current.cpu.pc =
          (current.memory.readWord current.cpu.pc 4).toOption := by decide +kernel
    rw [agree steps early current reached, fetched]
    rfl
  returns steps early current next word reached fetched direct completed := by
    have same := calling_fetches steps early current reached
    rw [fetched] at same
    obtain rfl | rfl | rfl : steps = 0 ∨ steps = 1 ∨ steps = 2 := by omega
    · cases same
      exact absurd direct (by decide +kernel)
    · have behind : ∀ current ∈ calling.after? 1,
          current.step.machine.cpu.pc = calling.cpu.pc + 4 := by decide +kernel
      have target := behind current reached
      rw [completed] at target
      have held : calling.memory.readWord calling.cpu.pc 4 = .ok 0x54000800 := by decide +kernel
      have links : Instruction.Links 0x54000800 := .inl (by decide +kernel)
      exact .inr ⟨0, Nat.zero_lt_one, calling, 0x54000800, rfl, held, links, target⟩
    · cases same
      exact absurd direct (by decide +kernel)

/-- The program stops itself behind the call, at the one halt that the analysis has. -/
theorem calling_covered_by_analysis :
    let image := Image.raw 0 calling.memory.bytes
    let analysis := Analysis.ofEntries image [0] 4
    analysis.words.size < 4 ∧ calling.cpu.pc ∈ [0] ∧ calling.RunsWithin image analysis 3 ∧
    (∀ steps < 3, ∀ current, calling.after? steps = some current →
      (∀ word, current.memory.readWord current.cpu.pc 4 = .ok word →
        current.cpu.pc ∈ analysis.words) ∧
      ∀ trap, current.step.trap = some trap → trap.isHalt = true →
        current.cpu.pc ∈ analysis.halts) ∧
    (calling.run 3).trap = some (.breakpoint 4 0) ∧ analysis.halts.toList = [4] := by
  have room : (Analysis.ofEntries (.raw 0 calling.memory.bytes) [0] 4).words.size < 4 := by
    decide +kernel
  have entered : calling.cpu.pc ∈ [0] := by decide
  refine ⟨room, entered, calling_runs_within, ?_, by decide +kernel, by decide +kernel⟩
  exact run_covered_by_analysis _ [0] 4 calling 3 room entered calling_runs_within

end Machine
end LoongArch
