import LoongArch.Operation
import LoongArch.Proofs.Checked.Operators
import LoongArch.Proofs.MemoryBytes

/-!
# Memory accesses, checked

The distance of an address from the base wraps, so the range of bytes that an access takes is formed
from a number that can be anything. It is used only after the access was found to lie inside memory,
which bounds both ends. An access outside costs one more sum, the end of memory that its fault names.
-/

set_option autoImplicit false

namespace LoongArch

namespace Checked

/-- Where an access begins inside its block, or its fault. An end that does not fit in 64 bits is
refused like one that lies past the end of the block. -/
def offset (memory : Memory) (address : Word) (length : Nat) : Checked (Except AccessFault Nat) :=
  let distance := (address - memory.base).toNat
  if distance + length < 2 ^ 64 ∧ memory.base ≤ address ∧ distance + length ≤ memory.size then
    return .ok distance
  else do
    -- The wording of the fault names the end of memory.
    let _ ← add memory.base.toNat memory.size
    return .error (memory.fault address length)

def load (memory : Memory) (address : Word) (length : Nat) :
    Checked (Except AccessFault (List UInt8)) := do
  match ← offset memory address length with
  | .error fault => return .error fault
  | .ok start =>
    let stop ← add start length
    let contents ← bytesBetween memory.bytes start stop
    return .ok (← copiedInto length contents)

def store (memory : Memory) (address : Word) (contents : List UInt8) :
    Checked (Except AccessFault Memory) := do
  match ← offset memory address contents.length with
  | .error fault => return .error fault
  | .ok start =>
    let stop ← add start contents.length
    return .ok { memory with bytes := ← overwrite memory.bytes start stop contents }

def readWord (memory : Memory) (address : Word) (width : AccessWidth) :
    Checked (Except AccessFault Word) := do
  match width with
  | .byte =>
    match ← load memory address 1 with
    | .error fault => return .error fault
    | .ok contents => return .ok (← indexed contents[0]?).toUInt32
  | .half => return (← load memory address 2).map Word.ofBytes
  | .word => return (← load memory address 4).map Word.ofBytes

section Accesses

variable {memory : Memory} (addressable : memory.size < 2 ^ 63) (address : Word)
include addressable

/-- The test of an access accepts exactly what lies inside memory: no end that fits into the block is
too large for its type. -/
theorem accepted_iff (length : Nat) :
    (address - memory.base).toNat + length < 2 ^ 64 ∧ memory.base ≤ address ∧
        (address - memory.base).toNat + length ≤ memory.size ↔
      memory.Covers address length := by
  rw [Memory.covers_iff_distance]
  refine ⟨And.right, fun inside => ⟨?_, inside⟩⟩
  omega

theorem offset_of_covers {length : Nat} (inside : memory.Covers address length) :
    offset memory address length = .ok (.ok (memory.offset address)) := by
  have place : (address - memory.base).toNat = memory.offset address :=
    UInt32.toNat_sub_of_le _ _ (UInt32.le_iff_toNat_le.mpr inside.1)
  have accepted := (accepted_iff addressable address length).mpr inside
  rw [place] at accepted
  simp only [offset, place, if_pos accepted, pure_eq]

theorem offset_of_not_covers {length : Nat} (outside : ¬memory.Covers address length) :
    offset memory address length = .ok (.error (memory.fault address length)) := by
  have fits : memory.base.toNat + memory.size < 2 ^ 64 := by
    have := memory.base.toNat_lt
    omega
  unfold offset
  simp only [if_neg fun accepted => outside ((accepted_iff addressable address length).mp accepted),
    add, guarded_eq fits, ok_bind, pure_eq]

theorem range_of_covers {length : Nat} (inside : memory.Covers address length) :
    memory.offset address + length < 2 ^ 64 ∧
      memory.offset address ≤ memory.offset address + length ∧
      memory.offset address + length ≤ memory.bytes.size := by
  obtain ⟨lower, upper⟩ := inside
  unfold Memory.offset Memory.size at *
  omega

theorem load_eq (length : Nat) :
    load memory address length = .ok (memory.read address length) := by
  unfold load Memory.read
  split
  next inside =>
    obtain ⟨fits, ordered, bounded⟩ := range_of_covers addressable address inside
    simp only [offset_of_covers addressable address inside, add, guarded_eq fits, bytesBetween,
      guarded_eq (And.intro ordered bounded), copiedInto, Nat.add_sub_cancel_left,
      guarded_eq (Memory.length_slice ..), ok_bind, pure_eq]
    rfl
  next outside => simp only [offset_of_not_covers addressable address outside, ok_bind, pure_eq]

theorem store_eq (contents : List UInt8) :
    store memory address contents = .ok (memory.write address contents) := by
  unfold store Memory.write
  split
  next inside =>
    obtain ⟨fits, ordered, bounded⟩ := range_of_covers addressable address inside
    have same : contents.length =
        (Memory.slice memory.bytes (memory.offset address) contents.length).length :=
      (Memory.length_slice ..).symm
    simp only [offset_of_covers addressable address inside, add, guarded_eq fits, overwrite,
      bytesBetween, guarded_eq (And.intro ordered bounded), Nat.add_sub_cancel_left, guarded_eq same,
      ok_bind, pure_eq]
    rfl
  next outside => simp only [offset_of_not_covers addressable address outside, ok_bind, pure_eq]

theorem read_word_eq (width : AccessWidth) :
    readWord memory address width = .ok (memory.readWord address width.bytes) := by
  unfold readWord Memory.readWord
  cases width with
  | half | word => simp only [load_eq addressable, ok_bind, pure_eq]; rfl
  | byte =>
    obtain ⟨byte, single⟩ := List.length_eq_one_iff.mp (memory.length_get address 1)
    have word : Word.ofBytes [byte] = byte.toUInt32 := by simp [Word.ofBytes]
    simp only [load_eq addressable, ok_bind, AccessWidth.bytes, Memory.read, single]
    by_cases inside : memory.Covers address 1
    · simp [inside, Except.map, word]
    · simp [inside, Except.map]

end Accesses

theorem to_nat_and_mask (width : AccessWidth) (value : Word) :
    (value &&& width.mask).toNat = value.toNat % 256 ^ width.bytes := by
  rw [UInt32.toNat_and]
  cases width with
  | byte => exact Nat.and_two_pow_sub_one_eq_mod _ 8
  | half => exact Nat.and_two_pow_sub_one_eq_mod _ 16
  | word => exact Nat.and_two_pow_sub_one_eq_mod _ 32

theorem to_bytes_and_mask (width : AccessWidth) (value : Word) :
    Word.toBytes width.bytes (value &&& width.mask) = Word.toBytes width.bytes value := by
  apply List.ext_getElem?
  intro index
  by_cases written : index < width.bytes
  · have split : 256 ^ width.bytes = 256 ^ index * (256 * 256 ^ (width.bytes - index - 1)) := by
      rw [← Nat.pow_succ', ← Nat.pow_add]
      congr 1
      omega
    have digit : value.toNat % 256 ^ width.bytes / 256 ^ index % 256 =
        value.toNat / 256 ^ index % 256 := by
      rw [split, Nat.mod_mul_right_div_self, Nat.mod_mul_right_mod]
    rw [Word.get_to_bytes _ written, Word.get_to_bytes _ written, to_nat_and_mask, Option.some_inj,
      ← UInt8.toNat_inj, UInt8.toNat_ofNat', UInt8.toNat_ofNat']
    exact digit
  · rw [List.getElem?_eq_none, List.getElem?_eq_none] <;> simpa using written

end Checked
end LoongArch
