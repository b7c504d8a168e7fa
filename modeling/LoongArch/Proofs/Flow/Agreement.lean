import LoongArch.Proofs.BitFields
import LoongArch.Proofs.Flow.Reachability
import LoongArch.Proofs.Machine.Step

/-!
# The analysis agrees with the machine

The edges, halts and memory accesses that an analysis records for an instruction bound what a step of
the machine does there. Both sides are compared by operation: the edges through the effects of its
template, the step through the ways in which an instruction ends.
-/

set_option autoImplicit false

namespace LoongArch

theorem Instruction.to_nat_rd_lt (word : Word) : (Instruction.decode word).rd.toNat < 32 := by
  have named : (Instruction.decode word).rd.toNat = word.toNat % 2 ^ 5 :=
    (Instruction.to_nat_registers _ _ word).1
  omega

theorem Instruction.destination_ne_zero {word : Word} (linking : (Instruction.decode word).rd ≠ 0) :
    Register.ofByte (Instruction.decode word).rd ≠ .zero := by
  intro same
  apply linking
  have bounded := Instruction.to_nat_rd_lt word
  have value : (Instruction.decode word).rd.toNat % 32 = 0 := congrArg Fin.val same
  rw [Nat.mod_eq_of_lt bounded] at value
  exact UInt8.toNat_inj.mp value

namespace Machine

theorem Completes.mem_leaving {machine after : Machine} {word next : Word}
    (completes : machine.Completes (Instruction.decode word) after next)
    (direct : (Instruction.decode word).operation ≠ .jumpRegister) :
    ∃ kind, (⟨machine.cpu.pc, next, kind⟩ : Edge) ∈ Edge.leaving machine.cpu.pc word := by
  rw [Edge.leaving_eq]
  cases completes with
  | computed _ writes _ =>
    refine ⟨.fallthrough, ?_⟩
    cases operation : (Instruction.decode word).operation <;> simp_all [Operation.effects]
  | stored operation _ => exact ⟨.fallthrough, by simp [operation]⟩
  | jumped operation => exact ⟨.jump, by simp [operation]⟩
  | called operation => exact ⟨.call, by simp [operation]⟩
  | jumpedRegister operation => exact absurd operation direct
  | branched operation _ => exact ⟨.branch, by simp [operation]⟩
  | notBranched operation _ => exact ⟨.fallthrough, by simp [operation]⟩
  | barrier operation =>
    rcases operation with operation | operation <;> exact ⟨.fallthrough, by simp [operation]⟩

section Fetched

variable {machine : Machine} {word : Word}
  (fetched : machine.memory.readWord machine.cpu.pc 4 = .ok word)
include fetched

theorem step_mem_leaving {left : Machine} (completed : machine.step = ⟨left, none⟩)
    (direct : (Instruction.decode word).operation ≠ .jumpRegister) :
    ∃ kind, (⟨machine.cpu.pc, left.cpu.pc, kind⟩ : Edge) ∈ Edge.leaving machine.cpu.pc word := by
  rcases step_of_fetched fetched with ⟨trap, _, ended⟩ | ⟨after, next, completes, ended⟩
  · rw [ended] at completed
    cases completed
  · rw [ended] at completed
    cases completed
    exact completes.mem_leaving direct

theorem step_halts_iff :
    (∃ trap, machine.step.trap = some trap ∧ trap.isHalt = true) ↔
      (InstructionSet.lookup word).effects.has .halt = true := by
  rw [InstructionSet.effects_lookup]
  rcases step_of_fetched fetched with ⟨trap, raises, ended⟩ | ⟨after, next, completes, ended⟩
  · simp [ended, raises.is_halt_iff]
  · simp [ended, completes.has_halt]

theorem step_accesses
    (accesses : machine.step.machine.memory.bytes ≠ machine.memory.bytes ∨
      ∃ address fault, machine.step.trap = some (.bus address fault)) :
    ((InstructionSet.lookup word).effects.has .load ||
      (InstructionSet.lookup word).effects.has .store) = true := by
  rw [InstructionSet.effects_lookup]
  rcases step_of_fetched fetched with ⟨trap, raises, ended⟩ | ⟨after, next, completes, ended⟩
  · rcases accesses with changed | ⟨address, fault, trapped⟩
    · exact absurd (by rw [ended, memory_set_register]) changed
    · rw [ended] at trapped
      cases trapped
      exact raises.has_access
  · rcases accesses with changed | ⟨address, fault, trapped⟩
    · by_contra quiet
      rw [Bool.or_eq_true, not_or, Bool.not_eq_true, Bool.not_eq_true] at quiet
      apply changed
      rw [ended, memory_set_pc, memory_set_register, completes.memory_eq quiet.2]
    · rw [ended] at trapped
      cases trapped

theorem step_jump_register (operation : (Instruction.decode word).operation = .jumpRegister) :
    ∃ target, machine.step =
      ⟨((machine.setRegister (.ofByte (Instruction.decode word).rd)
        (machine.cpu.pc + 4)).setRegister .zero 0).setPc target, none⟩ := by
  rcases step_of_fetched fetched with ⟨trap, raises, ended⟩ | ⟨after, next, completes, ended⟩
  · exact absurd operation raises.operation_ne
  · cases completes with
    | jumpedRegister => exact ⟨_, ended⟩
    | computed _ _ direct => exact absurd operation direct
    | barrier other => rcases other with other | other <;> simp [other] at operation
    | _ => simp_all

end Fetched
end Machine

namespace Analysis

theorem Faithful.mem_indirect_iff {image : Image} {analysis : Analysis}
    (faithful : analysis.Faithful image) {pc word : Word}
    (known : analysis.words[pc]? = some word) :
    pc ∈ analysis.indirect ↔ (Instruction.decode word).operation = .jumpRegister := by
  rw [faithful.indirect.mem_iff_of_known known, InstructionSet.effects_lookup]
  cases (Instruction.decode word).operation <;> simp [Operation.effects]

end Analysis

/-- A word encodes a call: an instruction that keeps the address after it in a register other than 0. -/
def Instruction.Links (word : Word) : Prop :=
  (Instruction.decode word).operation = .call ∨
    (Instruction.decode word).operation = .jumpRegister ∧ (Instruction.decode word).rd ≠ 0

theorem Edge.following_mem_leaving {pc word : Word} (links : Instruction.Links word) :
    (⟨pc, pc + 4, .fallthrough⟩ : Edge) ∈ Edge.leaving pc word := by
  rw [Edge.leaving_eq]
  rcases links with operation | ⟨operation, linking⟩
  · simp [operation]
  · simp [operation, linking]

/-- Where the machine stands on an instruction that an analysis has recorded, a step does only what the
analysis says of that instruction: it follows a recorded edge unless the target comes from a register,
it stops the program where the analysis has a halt, and it touches memory only at memory accesses. A
jump through a register never fails, and it links to the target of a recorded edge. -/
theorem Machine.step_agrees_with_analysis (image : Image) (entries : List Word) (limit : Nat)
    (machine : Machine) (word : Word)
    (known : (Analysis.ofEntries image entries limit).words[machine.cpu.pc]? = some word)
    (held : machine.memory.readWord machine.cpu.pc 4 = .ok word) :
    let analysis := Analysis.ofEntries image entries limit
    let pc := machine.cpu.pc
    let left := machine.step.machine
    let destination := (Instruction.decode word).rd
    (machine.step.trap = none →
      pc ∈ analysis.indirect ∨
        ∃ edge ∈ analysis.edges, edge.source = pc ∧ edge.target = left.cpu.pc) ∧
    ((∃ trap, machine.step.trap = some trap ∧ trap.isHalt = true) ↔ pc ∈ analysis.halts) ∧
    ((left.memory.bytes ≠ machine.memory.bytes ∨
        ∃ address fault, machine.step.trap = some (.bus address fault)) →
      pc ∈ analysis.memoryAccesses) ∧
    (pc ∈ analysis.indirect →
      machine.step.trap = none ∧
      (destination ≠ 0 → ∃ edge ∈ analysis.edges, edge.source = pc ∧ edge.kind = .fallthrough ∧
        edge.target = left.register (.ofByte destination))) := by
  have faithful := Analysis.faithful_of_entries image entries limit
  refine ⟨?_, ?_, ?_, ?_⟩
  · intro completed
    rw [faithful.mem_indirect_iff known]
    by_cases direct : (Instruction.decode word).operation = .jumpRegister
    · exact .inl direct
    · have ended : machine.step = ⟨machine.step.machine, none⟩ := by rw [← completed]
      obtain ⟨kind, leaves⟩ := step_mem_leaving held ended direct
      exact .inr ⟨_, faithful.mem_edges_of_known known leaves, rfl, rfl⟩
  · rw [faithful.halts.mem_iff_of_known known]
    exact step_halts_iff held
  · intro accesses
    rw [faithful.memoryAccesses.mem_iff_of_known known]
    exact step_accesses held accesses
  · intro indirect
    have operation := (faithful.mem_indirect_iff known).mp indirect
    obtain ⟨target, ended⟩ := step_jump_register held operation
    rw [ended]
    refine ⟨rfl, ?_⟩
    intro linking
    have leaves : (⟨machine.cpu.pc, machine.cpu.pc + 4, .fallthrough⟩ : Edge) ∈
        Edge.leaving machine.cpu.pc word := Edge.following_mem_leaving (.inr ⟨operation, linking⟩)
    refine ⟨_, faithful.mem_edges_of_known known leaves, rfl, rfl, ?_⟩
    have nonzero := Instruction.destination_ne_zero linking
    simp [nonzero]

namespace Machine

def jumping : Machine where
  cpu := .ofConfig { resetPc := 0 }
  memory := ⟨0, ⟨#[0x81, 0x00, 0x00, 0x4C]⟩⟩

/-- The jump completes and links to the address to which the analysis has a fallthrough edge. -/
theorem jumping_agrees_with_analysis :
    let analysis := Analysis.ofEntries (.raw 0 jumping.memory.bytes) [0] 1
    analysis.words[jumping.cpu.pc]? = some 0x4C000081 ∧
    jumping.memory.readWord jumping.cpu.pc 4 = .ok 0x4C000081 ∧
    jumping.step.trap = none ∧
    ∃ edge ∈ analysis.edges, edge.source = 0 ∧ edge.kind = .fallthrough ∧
      edge.target = jumping.step.machine.register .returnAddress := by
  have known : (Analysis.ofEntries (.raw 0 jumping.memory.bytes) [0] 1).words[jumping.cpu.pc]? =
      some 0x4C000081 := by decide +kernel
  have held : jumping.memory.readWord jumping.cpu.pc 4 = .ok 0x4C000081 := by decide +kernel
  have indirect : jumping.cpu.pc ∈
      (Analysis.ofEntries (.raw 0 jumping.memory.bytes) [0] 1).indirect := by decide +kernel
  have agrees := step_agrees_with_analysis (.raw 0 jumping.memory.bytes) [0] 1 jumping _ known held
  obtain ⟨completed, links⟩ := agrees.2.2.2 indirect
  have named : Register.ofByte (Instruction.decode 0x4C000081).rd = .returnAddress := by decide +kernel
  rw [named] at links
  exact ⟨known, held, completed, links (by decide +kernel)⟩

end Machine
end LoongArch
