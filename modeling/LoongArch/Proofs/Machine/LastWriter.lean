import LoongArch.Proofs.Machine.Access
import LoongArch.Proofs.Machine.Run

/-!
# The last writer wins

At every position memory holds the byte that the most recent completed store left there, or the one
that the run began with. A step keeps this, since it either carries out one store or leaves memory
alone; loads and fetches then read what the last writers wrote.
-/

set_option autoImplicit false

namespace LoongArch.Machine

/-- A step completes a store that leaves a byte at a position: the bytes of the stored register go to
the positions from the address on, the low one first. -/
inductive Writes (machine : Machine) : (position : Nat) → (byte : UInt8) → Prop where
  | store {word : Word} {width : AccessWidth} {index : Nat}
      (fetched : machine.memory.readWord machine.cpu.pc 4 = .ok word)
      (named : ((InstructionSet.lookup word).mnemonic, width) ∈ InstructionSet.stores)
      (completed : machine.step.trap = none)
      (bound : index < width.bytes) :
      Writes machine ((machine.accessAddress word).toNat + index)
        (.ofNat ((machine.register (.ofByte (Instruction.decode word).rd)).toNat / 256 ^ index))

section Step

variable {machine : Machine} {position : Nat}

theorem byte_step_of_writes {byte : UInt8} (writes : machine.Writes position byte) :
    machine.step.machine.memory.byte? position = some byte := by
  cases writes with
  | @store word width index fetched named completed bound =>
    by_cases inside : machine.memory.Covers (machine.accessAddress word) width.bytes
    · rw [(byte_step_of_store fetched named inside _).2, if_pos (by omega), Nat.add_sub_cancel_left]
    · rw [step_of_store fetched named, if_neg inside] at completed
      cases completed

theorem byte_step_of_not_writes (kept : ∀ byte, ¬machine.Writes position byte) :
    machine.step.machine.memory.byte? position = machine.memory.byte? position := by
  cases fetched : machine.memory.readWord machine.cpu.pc 4 with
  | error fault => rw [step_of_unfetched fetched]
  | ok word =>
    by_cases stores : ∃ width, (Instruction.decode word).operation = .store width
    · obtain ⟨width, operation⟩ := stores
      have named := InstructionSet.mem_stores_of_store operation
      by_cases inside : machine.memory.Covers (machine.accessAddress word) width.bytes
      · obtain ⟨completed, bytes⟩ := byte_step_of_store fetched named inside position
        rw [bytes, if_neg]
        intro within
        obtain ⟨index, rfl⟩ := Nat.exists_eq_add_of_le within.1
        exact kept _ (.store fetched named completed (by omega))
      · rw [step_of_store fetched named, if_neg inside]
        rfl
    · rw [memory_step_of_not_store fetched (not_exists.mp stores)]

end Step

/-- The machine after a number of steps, whether these complete or trap. -/
def attempted (machine : Machine) : Nat → Machine
  | 0 => machine
  | steps + 1 => (machine.attempted steps).step.machine

theorem attempted_of_after {machine last : Machine} {steps : Nat}
    (reached : machine.after? steps = some last) : machine.attempted steps = last := by
  induction steps generalizing last with
  | zero =>
    cases reached
    rfl
  | succ steps hypothesis =>
    obtain ⟨before, earlier, completed⟩ := after_succ_eq_some_iff.mp reached
    rw [attempted, hypothesis earlier, completed]

/-- A run leaves behind one of these machines, also when a trap cuts it short. -/
theorem run_machine_eq_attempted (machine : Machine) (limit : Nat) :
    ∃ steps ≤ limit, (machine.run limit).machine = machine.attempted steps := by
  rcases machine.run_cases limit with
    ⟨last, reached, ended⟩ | ⟨steps, last, left, trap, fewer, reached, failed, ended⟩
  · exact ⟨limit, Nat.le_refl limit, by rw [ended, attempted_of_after reached]⟩
  · exact ⟨steps + 1, fewer, by rw [ended, attempted, attempted_of_after reached, failed]⟩

/-- The byte that the first `steps` steps of a run leave at a position: the most recent store of them
that reached it wrote the byte, or none did and the run began with it. -/
inductive LastWritten (machine : Machine) (steps position : Nat) (byte : UInt8) : Prop where
  | stored (step : Nat) (earlier : step < steps)
      (writes : (machine.attempted step).Writes position byte)
      (latest : ∀ later, step < later → later < steps →
        ∀ other, ¬(machine.attempted later).Writes position other)
  | initial (present : machine.memory.byte? position = some byte)
      (untouched : ∀ step < steps, ∀ other, ¬(machine.attempted step).Writes position other)

def LastWrittenFrom (machine : Machine) (steps : Nat) (address : Word) (bytes : List UInt8) : Prop :=
  ∀ index (bound : index < bytes.length),
    machine.LastWritten steps (address.toNat + index) bytes[index]

section Written

variable {machine : Machine} {steps position : Nat} {byte : UInt8}

theorem last_written_succ_of_writes {written : UInt8}
    (writes : (machine.attempted steps).Writes position written) :
    machine.LastWritten (steps + 1) position byte ↔ byte = written := by
  constructor
  · intro last
    cases last with
    | stored step earlier stored latest =>
      rcases Nat.lt_succ_iff_lt_or_eq.mp earlier with before | rfl
      · exact absurd writes (latest steps before (Nat.lt_succ_self steps) written)
      · exact Option.some.inj ((byte_step_of_writes stored).symm.trans (byte_step_of_writes writes))
    | initial present untouched =>
      exact absurd writes (untouched steps (Nat.lt_succ_self steps) written)
  · rintro rfl
    exact .stored steps (Nat.lt_succ_self steps) writes fun later after before => by omega

theorem last_written_succ_of_not_writes
    (kept : ∀ other, ¬(machine.attempted steps).Writes position other) :
    machine.LastWritten (steps + 1) position byte ↔ machine.LastWritten steps position byte := by
  constructor
  · intro last
    cases last with
    | stored step earlier writes latest =>
      rcases Nat.lt_succ_iff_lt_or_eq.mp earlier with before | rfl
      · exact .stored step before writes fun later after bound => latest later after (by omega)
      · exact absurd writes (kept byte)
    | initial present untouched =>
      exact .initial present fun step before => untouched step (by omega)
  · intro last
    cases last with
    | stored step earlier writes latest =>
      refine .stored step (by omega) writes fun later after bound => ?_
      rcases Nat.lt_succ_iff_lt_or_eq.mp bound with before | rfl
      · exact latest later after before
      · exact kept
    | initial present untouched =>
      refine .initial present fun step bound => ?_
      rcases Nat.lt_succ_iff_lt_or_eq.mp bound with before | rfl
      · exact untouched step before
      · exact kept

/-- Memory holds the last byte written to every position. -/
theorem byte_attempted_iff (machine : Machine) (steps : Nat) :
    (machine.attempted steps).memory.byte? position = some byte ↔
      machine.LastWritten steps position byte := by
  -- Of all steps only the last one decides: it writes the position, or keeps what the others left.
  induction steps generalizing byte with
  | zero =>
    constructor
    · exact fun present => .initial present fun step none => absurd none (Nat.not_lt_zero step)
    · intro last
      cases last with
      | stored step none _ _ => exact absurd none (Nat.not_lt_zero step)
      | initial present _ => exact present
  | succ steps hypothesis =>
    by_cases stores : ∃ written, (machine.attempted steps).Writes position written
    · obtain ⟨written, writes⟩ := stores
      rw [last_written_succ_of_writes writes, attempted, byte_step_of_writes writes, Option.some_inj,
        eq_comm]
    · have kept := not_exists.mp stores
      rw [last_written_succ_of_not_writes kept, attempted, byte_step_of_not_writes kept, hypothesis]

end Written

theorem extent_attempted (machine : Machine) (steps : Nat) :
    (machine.attempted steps).memory.base = machine.memory.base ∧
      (machine.attempted steps).memory.size = machine.memory.size := by
  induction steps with
  | zero => exact ⟨rfl, rfl⟩
  | succ steps hypothesis =>
    obtain ⟨base, size⟩ := (machine.attempted steps).extent_step
    rwa [attempted, base, size]

/-- An access lies below the memory that a run began with, or reaches past its end. -/
def Outside (machine : Machine) (address : Word) (length : Nat) : Prop :=
  address.toNat < machine.memory.base.toNat ∨
    machine.memory.base.toNat + machine.memory.size < address.toNat + length

structure LastWriterWins (machine : Machine) (steps : Nat) (now : Machine) : Prop where
  memory : ∀ position byte,
    now.memory.byte? position = some byte ↔ machine.LastWritten steps position byte
  unfetched : machine.Outside now.cpu.pc 4 →
    now.step = ⟨now, some (.bus now.cpu.pc (machine.memory.fault now.cpu.pc 4))⟩
  fetched : ¬machine.Outside now.cpu.pc 4 → ∃ word bytes,
    now.memory.fetch now.cpu.pc = .ok ⟨word, now.cpu.pc + 4⟩ ∧ bytes.length = 4 ∧
    machine.LastWrittenFrom steps now.cpu.pc bytes ∧ word.toNat = Word.littleEndian bytes
  load : ∀ word width extension, now.memory.readWord now.cpu.pc 4 = .ok word →
    ((InstructionSet.lookup word).mnemonic, width, extension) ∈ InstructionSet.loads →
    let address := now.accessAddress word
    (machine.Outside address width.bytes → now.step.trap =
      some (.bus address (machine.memory.fault address width.bytes))) ∧
    (¬machine.Outside address width.bytes → now.step.trap = none ∧ ∃ bytes,
      bytes.length = width.bytes ∧ machine.LastWrittenFrom steps address bytes ∧
      (Register.ofByte (Instruction.decode word).rd ≠ .zero →
        now.step.machine.register (.ofByte (Instruction.decode word).rd) =
          .ofInt (extension.number bytes)))
  store : ∀ word width, now.memory.readWord now.cpu.pc 4 = .ok word →
    ((InstructionSet.lookup word).mnemonic, width) ∈ InstructionSet.stores →
    let address := now.accessAddress word
    (machine.Outside address width.bytes → now.step.machine.memory = now.memory ∧
      now.step.trap = some (.bus address (machine.memory.fault address width.bytes))) ∧
    (¬machine.Outside address width.bytes → now.step.trap = none)

section Run

variable (machine : Machine) (steps : Nat) (address : Word) (length : Nat)

theorem outside_iff :
    machine.Outside address length ↔ ¬(machine.attempted steps).memory.Covers address length := by
  obtain ⟨base, size⟩ := machine.extent_attempted steps
  rw [Outside, Memory.Covers, base, size]
  omega

theorem fault_attempted :
    (machine.attempted steps).memory.fault address length = machine.memory.fault address length := by
  obtain ⟨base, size⟩ := machine.extent_attempted steps
  rw [Memory.fault, Memory.fault, base, size]

theorem last_written_from_get
    (inside : (machine.attempted steps).memory.Covers address length) :
    machine.LastWrittenFrom steps address ((machine.attempted steps).memory.get address length) := by
  intro index bound
  apply (machine.byte_attempted_iff steps).mp
  rw [Memory.byte_get inside (by rwa [Memory.length_get] at bound), List.getElem?_eq_getElem bound]

end Run

/-- Whatever steps have been made before, and whether they completed or trapped: fetches and loads see
the bytes that the most recent stores have left, and accesses outside memory trap. -/
theorem last_writer_wins (machine : Machine) (steps : Nat) :
    machine.LastWriterWins steps (machine.attempted steps) where
  memory _ _ := machine.byte_attempted_iff steps
  unfetched outside := by
    rw [outside_iff machine steps] at outside
    rw [← machine.fault_attempted steps]
    exact step_of_unfetched (Memory.read_word_error_iff.mpr ⟨outside, rfl⟩)
  fetched inside := by
    rw [outside_iff machine steps, not_not] at inside
    have read := Memory.read_word_ok_iff.mpr ⟨inside, rfl⟩
    have last := machine.last_written_from_get steps _ _ inside
    exact ⟨_, _, by rw [Memory.fetch, read], Memory.length_get .., last,
      Word.to_nat_of_bytes (by rw [Memory.length_get])⟩
  load word width extension fetched named := by
    have ended := step_of_load fetched named
    simp only [outside_iff machine steps, ← machine.fault_attempted steps]
    refine ⟨fun outside => by rw [ended, if_neg outside], fun inside => ?_⟩
    rw [not_not] at inside
    have last := machine.last_written_from_get steps _ _ inside
    refine ⟨by rw [ended, if_pos inside], _, Memory.length_get .., last, fun general => ?_⟩
    rw [ended, if_pos inside, ← extension.apply_of_bytes (Memory.length_get ..)]
    simp [general]
  store word width fetched named := by
    have ended := step_of_store fetched named
    simp only [outside_iff machine steps, ← machine.fault_attempted steps]
    refine ⟨fun outside => ?_, fun inside => ?_⟩
    · rw [ended, if_neg outside]
      exact ⟨rfl, rfl⟩
    · rw [ended, if_pos (not_not.mp inside)]

/-- A program whose second store covers the middle of what the first one wrote, and whose load reads a
byte of each at the end of memory. -/
def overlapping : Machine where
  cpu := .ofConfig { resetPc := 0 }
  memory := ⟨0, ⟨#[0x04, 0xF8, 0xBF, 0x02, 0x04, 0x50, 0x80, 0x29, 0x00, 0x54, 0x40, 0x29,
    0x05, 0x58, 0x40, 0x28, 0, 0, 0, 0, 0, 0, 0, 0]⟩⟩

/-- The load yields the signed number of the byte that the second store left and the one that only the
first store wrote. -/
theorem overlapping_last_writer_wins :
    let loading := overlapping.attempted 3
    loading.memory.readWord loading.cpu.pc 4 = .ok 0x28405805 ∧
    ("ld.h", AccessWidth.half, Extension.sign) ∈ InstructionSet.loads ∧
    ¬overlapping.Outside 0x16 2 ∧ loading.step.trap = none ∧
    ∃ bytes, bytes.length = 2 ∧ overlapping.LastWrittenFrom 3 0x16 bytes ∧
      loading.step.machine.register 5 = .ofInt (Extension.sign.number bytes) ∧
      loading.step.machine.register 5 = 0xFFFFFF00 := by
  have fetched : (overlapping.attempted 3).memory.readWord (overlapping.attempted 3).cpu.pc 4 =
      .ok 0x28405805 := by
    decide +kernel
  have named : ((InstructionSet.lookup 0x28405805).mnemonic, AccessWidth.half, Extension.sign) ∈
      InstructionSet.loads := by
    decide +kernel
  have address : (overlapping.attempted 3).accessAddress 0x28405805 = 0x16 := by decide +kernel
  have inside : ¬overlapping.Outside 0x16 2 := by
    rw [outside_iff overlapping 0]
    decide +kernel
  have value : (overlapping.attempted 3).step.machine.register 5 = 0xFFFFFF00 := by decide +kernel
  obtain ⟨_, completes⟩ := (last_writer_wins overlapping 3).load _ _ _ fetched named
  rw [address] at completes
  obtain ⟨completed, bytes, length, last, loaded⟩ := completes inside
  exact ⟨fetched, by decide, inside, completed, bytes, length, last, loaded (by decide +kernel), value⟩

end LoongArch.Machine
