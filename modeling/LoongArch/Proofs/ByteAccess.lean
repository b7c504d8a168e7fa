import LoongArch.Operation
import LoongArch.Proofs.MemoryBytes

/-!
# Wide accesses, byte by byte

An access of several bytes does what accesses of one byte at consecutive addresses do. The two part only
at the end of the address space: the addresses of single bytes wrap there, while a wide access runs on
past the last address if there is memory.
-/

set_option autoImplicit false

namespace LoongArch.Memory

/-- Reads of one byte each yield these bytes at the addresses from `address` on, which wrap. -/
def ReadsEach (memory : Memory) (address : Word) (bytes : List UInt8) : Prop :=
  ∀ index (bound : index < bytes.length),
    memory.readWord (address + .ofNat index) 1 = .ok bytes[index].toUInt32

def writeEach (memory : Memory) (address : Word) : List UInt8 → Except AccessFault Memory
  | [] => .ok memory
  | byte :: rest =>
    match memory.writeWord address 1 byte.toUInt32 with
    | .ok written => written.writeEach (address + 1) rest
    | .error fault => .error fault

/-- An access of this width succeeds if all of its bytes can be read one by one, and then it yields the
number that they make up, or leaves what writing the bytes one by one leaves. -/
structure AgreesWithBytes (memory : Memory) (address : Word) (width : AccessWidth) : Prop where
  read : ∀ value, memory.readWord address width.bytes = .ok value ↔ ∃ bytes : List UInt8,
    bytes.length = width.bytes ∧ memory.ReadsEach address bytes ∧
      value.toNat = Word.littleEndian bytes
  write : ∀ value, (∃ after, memory.writeWord address width.bytes value = .ok after) ↔
    ∃ bytes : List UInt8, bytes.length = width.bytes ∧ memory.ReadsEach address bytes
  written : ∀ value after, memory.writeWord address width.bytes value = .ok after →
    memory.writeEach address (Word.toBytes width.bytes value) = .ok after

section Single

variable {memory : Memory} {address : Word}

theorem read_byte_ok_iff {byte : UInt8} :
    memory.readWord address 1 = .ok byte.toUInt32 ↔ memory.byte? address.toNat = some byte := by
  have single : ∀ other : UInt8, Word.ofBytes [other] = other.toUInt32 := fun other => by
    simp [Word.ofBytes]
  rw [read_word_ok_iff_bytes (by decide)]
  constructor
  · rintro ⟨contents, ⟨length, bytes⟩, made⟩
    obtain ⟨other, rfl⟩ := List.length_eq_one_iff.mp length
    rw [single, UInt8.toUInt32_inj] at made
    subst made
    exact bytes 0 Nat.one_pos
  · intro held
    refine ⟨[byte], ⟨rfl, fun index bound => ?_⟩, single byte⟩
    obtain rfl : index = 0 := by simpa using bound
    exact held

theorem write_byte_eq (byte : UInt8) :
    memory.writeWord address 1 byte.toUInt32 = memory.write address [byte] := by
  simp [writeWord, Word.toBytes]

theorem reads_each_iff {bytes : List UInt8} :
    memory.ReadsEach address bytes ↔ ∀ index (bound : index < bytes.length),
      memory.byte? (address + .ofNat index : Word).toNat = some bytes[index] :=
  forall₂_congr fun _ _ => read_byte_ok_iff

theorem write_word_accepted_iff {length : Nat} (value : Word) :
    (∃ after, memory.writeWord address length value = .ok after) ↔
      ∃ found, memory.readWord address length = .ok found := by
  simp only [write_word_ok_iff, read_word_ok_iff, exists_and_left, exists_eq', and_true]

end Single

section Agreement

variable {memory : Memory} {address : Word} {width : AccessWidth}

theorem AgreesWithBytes.of_read
    (read : ∀ value, memory.readWord address width.bytes = .ok value ↔ ∃ bytes : List UInt8,
      bytes.length = width.bytes ∧ memory.ReadsEach address bytes ∧
        value.toNat = Word.littleEndian bytes)
    (written : ∀ value after, memory.writeWord address width.bytes value = .ok after →
      memory.writeEach address (Word.toBytes width.bytes value) = .ok after) :
    memory.AgreesWithBytes address width where
  read := read
  write value := by
    rw [write_word_accepted_iff]
    constructor
    · rintro ⟨found, yields⟩
      obtain ⟨bytes, length, each, _⟩ := (read found).mp yields
      exact ⟨bytes, length, each⟩
    · rintro ⟨bytes, length, each⟩
      have short : bytes.length ≤ 4 := length ▸ width.bytes_le_four
      exact ⟨.ofBytes bytes, (read _).mpr ⟨bytes, length, each, Word.to_nat_of_bytes short⟩⟩
  written := written

theorem put_cons {byte : UInt8} {rest : List UInt8}
    (inside : memory.Covers address (rest.length + 1))
    (following : (address + 1).toNat = address.toNat + 1) :
    memory.put address (byte :: rest) = (memory.put address [byte]).put (address + 1) rest := by
  obtain ⟨lower, upper⟩ := inside
  have here : address.toNat - memory.base.toNat < memory.bytes.size := by
    change _ < memory.size
    omega
  have further : address.toNat + 1 - memory.base.toNat = address.toNat - memory.base.toNat + 1 := by
    omega
  simp only [put, replace, dif_pos here, following, further]

theorem covers_put {contents : List UInt8} {place : Word} {length : Nat}
    (inside : memory.Covers address length) : (memory.put place contents).Covers address length := by
  rwa [Covers, base_put, size_put]

theorem write_each_eq_put {bytes : List UInt8} (direct : address.toNat + bytes.length ≤ 2 ^ 32)
    (inside : memory.Covers address bytes.length) :
    memory.writeEach address bytes = .ok (memory.put address bytes) := by
  induction bytes generalizing memory address with
  | nil => rfl
  | cons byte rest hypothesis =>
    rw [List.length_cons] at direct inside
    obtain ⟨lower, upper⟩ := inside
    have first : memory.Covers address [byte].length :=
      ⟨lower, by rw [List.length_singleton]; omega⟩
    rw [writeEach, write_byte_eq, write, if_pos first]
    cases rest with
    | nil => rfl
    | cons second others =>
      have following : (address + 1).toNat = address.toNat + 1 := by
        have one : (1 : Word) = .ofNat 1 := rfl
        rw [one, Word.to_nat_add_of_lt]
        simp only [List.length_cons] at direct
        omega
      have remaining : memory.Covers (address + 1) (second :: others).length := by
        rw [Covers, following]
        omega
      rw [put_cons ⟨lower, upper⟩ following]
      exact hypothesis (by omega) (covers_put remaining)

theorem byte_write_each {bytes : List UInt8} {after : Memory} {position : Nat}
    (unaddressed : 2 ^ 32 ≤ position) (written : memory.writeEach address bytes = .ok after) :
    after.byte? position = memory.byte? position := by
  induction bytes generalizing memory address with
  | nil =>
    cases written
    rfl
  | cons byte rest hypothesis =>
    rw [writeEach, write_byte_eq, write] at written
    split at written
    next next stored =>
      split at stored
      next inside =>
        cases stored
        have small := address.toNat_lt
        rw [hypothesis written, byte_put inside, if_neg]
        rw [List.length_singleton]
        omega
      next => cases stored
    next => cases written

theorem agrees_of_direct (direct : address.toNat + width.bytes ≤ 2 ^ 32) :
    memory.AgreesWithBytes address width := by
  apply AgreesWithBytes.of_read
  · intro value
    rw [read_word_ok_iff_bytes width.bytes_pos]
    refine exists_congr fun bytes => ?_
    rw [and_assoc]
    refine and_congr_right fun length => ?_
    have short : bytes.length ≤ 4 := length ▸ width.bytes_le_four
    rw [reads_each_iff, ← Word.to_nat_of_bytes short, UInt32.toNat_inj, eq_comm (a := value)]
    refine and_congr_left fun _ => forall₂_congr fun index bound => ?_
    rw [Word.to_nat_add_of_lt (by omega)]
  · intro value after written
    obtain ⟨inside, rfl⟩ := write_word_ok_iff.mp written
    apply write_each_eq_put
    · rwa [Word.length_to_bytes]
    · rwa [Word.length_to_bytes]

/-- Reads of one byte go on at the first address behind the last one. Only a memory that has both, and all
between them, serves them. -/
theorem whole_of_reads_each {bytes : List UInt8} (wraps : 2 ^ 32 < address.toNat + bytes.length)
    (each : memory.ReadsEach address bytes) : memory.base = 0 ∧ 2 ^ 32 ≤ memory.size := by
  have small := address.toNat_lt
  rw [reads_each_iff] at each
  have held : ∀ index position, index < bytes.length →
      (address + .ofNat index : Word).toNat = position →
      memory.base.toNat ≤ position ∧ position < memory.base.toNat + memory.size := by
    intro index position bound reached
    apply (memory.byte_is_some_iff position).mp
    rw [← reached, each index bound]
    rfl
  have last := held (2 ^ 32 - 1 - address.toNat) (2 ^ 32 - 1) (by omega) (by
    rw [Word.to_nat_add_of_lt] <;> omega)
  have first := held (2 ^ 32 - address.toNat) 0 (by omega) (by
    rw [UInt32.toNat_add, UInt32.toNat_ofNat']
    omega)
  exact ⟨UInt32.toNat_inj.mp (Nat.le_zero.mp first.1), by omega⟩

theorem exists_reads_each (whole : memory.base = 0 ∧ 2 ^ 32 ≤ memory.size) (address : Word)
    (length : Nat) : ∃ bytes : List UInt8, bytes.length = length ∧ memory.ReadsEach address bytes := by
  let held (index : Nat) : UInt8 := (memory.byte? (address + .ofNat index : Word).toNat).getD 0
  refine ⟨(List.range length).map held, by simp, reads_each_iff.mpr fun index bound => ?_⟩
  have small := (address + .ofNat index : Word).toNat_lt
  have zero : memory.base.toNat = 0 := by rw [whole.1]; rfl
  have present : (memory.byte? (address + .ofNat index : Word).toNat).isSome :=
    (memory.byte_is_some_iff _).mpr (by omega)
  obtain ⟨byte, found⟩ := Option.isSome_iff_exists.mp present
  simp only [List.getElem_map, List.getElem_range, held, found, Option.getD_some]

/-- What a wide access writes past the last address is out of reach for writes of one byte. -/
theorem not_covers_of_wraps (agrees : memory.AgreesWithBytes address width)
    (wraps : 2 ^ 32 < address.toNat + width.bytes) : ¬memory.Covers address width.bytes := by
  intro inside
  have small := address.toNat_lt
  have short := width.bytes_le_four
  have kept : ∀ value : Word,
      memory.byte? (2 ^ 32) = some (.ofNat (value.toNat / 256 ^ (2 ^ 32 - address.toNat))) := by
    intro value
    have covered : memory.Covers address (Word.toBytes width.bytes value).length := by
      rwa [Word.length_to_bytes]
    have written := agrees.written value _ (write_word_ok_iff.mpr ⟨inside, rfl⟩)
    rw [← byte_write_each (Nat.le_refl _) written, byte_put covered, Word.length_to_bytes,
      if_pos (by omega), Word.get_to_bytes value (by omega)]
  -- The byte behind the last address would be the same after both of these values.
  have same := (kept 0).symm.trans (kept 0xFFFFFFFF)
  obtain ⟨index, place⟩ : ∃ index, 2 ^ 32 - address.toNat = index := ⟨_, rfl⟩
  rw [place] at same
  have early : index = 1 ∨ index = 2 ∨ index = 3 := by omega
  rcases early with rfl | rfl | rfl <;> exact absurd same (by decide)

theorem agrees_of_unserved (wraps : 2 ^ 32 < address.toNat + width.bytes)
    (outside : ¬memory.Covers address width.bytes)
    (partly : ¬(memory.base = 0 ∧ 2 ^ 32 ≤ memory.size)) : memory.AgreesWithBytes address width := by
  have unread : ∀ bytes : List UInt8, bytes.length = width.bytes →
      ¬memory.ReadsEach address bytes := by
    intro bytes length each
    exact partly (whole_of_reads_each (by omega) each)
  apply AgreesWithBytes.of_read
  · intro value
    constructor
    · intro read
      exact absurd (read_word_ok_iff.mp read).1 outside
    · rintro ⟨bytes, length, each, _⟩
      exact absurd each (unread bytes length)
  · intro value after written
    exact absurd (write_word_ok_iff.mp written).1 outside

end Agreement

/-- A wide access agrees with accesses of its bytes exactly if none of the byte addresses wraps, or neither
way finds all of its bytes: the wide one not behind the last address, the others not at address 0. -/
theorem agrees_with_bytes_iff (memory : Memory) (address : Word) (width : AccessWidth) :
    memory.AgreesWithBytes address width ↔
      address.toNat + width.bytes ≤ 2 ^ 32 ∨
        ¬memory.Covers address width.bytes ∧ ¬(memory.base = 0 ∧ 2 ^ 32 ≤ memory.size) := by
  by_cases direct : address.toNat + width.bytes ≤ 2 ^ 32
  · exact iff_of_true (agrees_of_direct direct) (.inl direct)
  · have wraps : 2 ^ 32 < address.toNat + width.bytes := Nat.lt_of_not_le direct
    rw [or_iff_right direct]
    constructor
    · intro agrees
      have outside := not_covers_of_wraps agrees wraps
      refine ⟨outside, fun whole => ?_⟩
      obtain ⟨after, written⟩ := (agrees.write 0).mpr (exists_reads_each whole address width.bytes)
      exact outside (write_word_ok_iff.mp written).1
    · rintro ⟨outside, partly⟩
      exact agrees_of_unserved wraps outside partly

/-- Four bytes of which two lie behind the last address: a word is read there, its bytes are not. -/
theorem word_behind_last_address_disagrees :
    let memory := zeros 0xFFFFFFFE 4
    memory.readWord 0xFFFFFFFE 4 = .ok 0 ∧
    memory.readWord (0xFFFFFFFE + 2) 1 = .error (memory.fault 0 1) ∧
    ¬memory.AgreesWithBytes 0xFFFFFFFE .word := by
  have wide : (zeros 0xFFFFFFFE 4).readWord 0xFFFFFFFE 4 = .ok 0 := by decide +kernel
  have single : (zeros 0xFFFFFFFE 4).readWord (0xFFFFFFFE + 2) 1 =
      .error ((zeros 0xFFFFFFFE 4).fault 0 1) := by
    decide +kernel
  refine ⟨wide, single, fun agrees => ?_⟩
  obtain ⟨bytes, length, each, _⟩ := (agrees.read 0).mp wide
  change bytes.length = 4 at length
  have third := each 2 (by omega)
  cases single.symm.trans third

end LoongArch.Memory
