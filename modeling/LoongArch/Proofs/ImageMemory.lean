import LoongArch.Image
import LoongArch.Machine.Run
import LoongArch.Proofs.MemoryBytes

/-!
# One image, two memories

The image that a program is read from and the memory that it runs in find bytes in different ways. An
image compares an address with the two ends of a segment, of which the upper one wraps; memory adds in
natural numbers. They answer alike unless the bytes reach exactly to the last address: there the upper
end of the segment wraps to zero, and the image answers nothing.
-/

set_option autoImplicit false

namespace LoongArch

namespace Segment

theorem to_nat_limit (segment : Segment) :
    segment.limit.toNat = (segment.base.toNat + segment.bytes.size) % 2 ^ 32 := by
  rw [limit, UInt32.toNat_add, UInt32.toNat_ofNat', Nat.add_mod_mod]

theorem contains_iff {segment : Segment} (below : segment.base.toNat + segment.bytes.size < 2 ^ 32)
    (address : Word) :
    segment.contains address = true ↔
      segment.base.toNat ≤ address.toNat ∧
        address.toNat < segment.base.toNat + segment.bytes.size := by
  rw [contains_iff_limit, to_nat_limit, Nat.mod_eq_of_lt below]

/-- What a segment contains has a byte, whatever its size: an end that wraps only comes down. -/
theorem offset_lt_of_contains {segment : Segment} {address : Word}
    (inside : segment.contains address = true) :
    segment.base.toNat ≤ address.toNat ∧
      address.toNat - segment.base.toNat < segment.bytes.size := by
  obtain ⟨lower, upper⟩ := contains_iff_limit.mp inside
  have comesDown : segment.limit.toNat ≤ segment.base.toNat + segment.bytes.size := by
    rw [to_nat_limit]
    exact Nat.mod_le ..
  omega

end Segment

namespace Image

theorem add_four_lt_of_word {image : Image} {address value : Word}
    (served : image.word? address = some value) : address.toNat + 4 < 2 ^ 32 := by
  rw [← to_nat_add_four_of_word served]
  exact UInt32.toNat_lt _

/-- An image answers every request as a memory does: for one byte, for a word, for an instruction and
for what is there at all. -/
structure AgreesWith (image : Image) (memory : Memory) : Prop where
  byte : ∀ address value, image.byte? address = some value ↔ memory.read address 1 = .ok [value]
  word : ∀ address value, image.word? address = some value ↔ memory.readWord address 4 = .ok value
  contains : ∀ address, image.contains address = memory.contains address
  fetch : ∀ pc word, image.word? pc = some word ↔ memory.fetch pc = .ok ⟨word, pc + 4⟩

section Raw

variable {base : Word} {bytes : ByteArray}

theorem contains_raw (address : Word) :
    (raw base bytes).contains address = (Segment.raw 0 base bytes).contains address := by
  simp [raw, contains]

theorem byte_raw (address : Word) :
    (raw base bytes).byte? address =
      if (Segment.raw 0 base bytes).contains address then (Segment.raw 0 base bytes).byte? address
      else none := by
  rw [raw, byte?, List.find?_singleton]
  split <;> rfl

theorem contains_segment_iff (below : base.toNat + bytes.size < 2 ^ 32) (address : Word) :
    (Segment.raw 0 base bytes).contains address = true ↔
      base.toNat ≤ address.toNat ∧ address.toNat < base.toNat + bytes.size :=
  Segment.contains_iff below address

theorem not_contains_segment (reaches : base.toNat + bytes.size = 2 ^ 32) (address : Word) :
    (Segment.raw 0 base bytes).contains address = false := by
  -- The end wraps to zero, which lies below every address.
  have limit : (Segment.raw 0 base bytes).limit.toNat = 0 := by
    rw [Segment.to_nat_limit]
    change (base.toNat + bytes.size) % 2 ^ 32 = 0
    rw [reaches, Nat.mod_self]
  simp [Segment.contains, UInt32.lt_iff_toNat_lt, limit]

theorem byte_raw_eq (below : base.toNat + bytes.size < 2 ^ 32) (address : Word) :
    (raw base bytes).byte? address = (⟨base, bytes⟩ : Memory).byte? address.toNat := by
  rw [byte_raw, Memory.byte?]
  by_cases inside : (Segment.raw 0 base bytes).contains address = true
  · have range := (contains_segment_iff below address).mp inside
    rw [if_pos inside, if_pos range.1, Segment.byte_eq range.1]
    rfl
  · rw [if_neg inside]
    split
    next above =>
      have lower : base.toNat ≤ address.toNat := above
      have past : bytes.size ≤ address.toNat - base.toNat := by
        rw [contains_segment_iff below] at inside
        omega
      exact (getElem?_neg bytes _ (Nat.not_lt.mpr past)).symm
    next => rfl

theorem lt_of_byte_memory {position : Nat} {value : UInt8}
    (present : (⟨base, bytes⟩ : Memory).byte? position = some value) :
    position < base.toNat + bytes.size :=
  ((Memory.byte_is_some_iff ⟨base, bytes⟩ position).mp (by rw [present]; rfl)).2

theorem bytes_raw_iff (below : base.toNat + bytes.size < 2 ^ 32) (address : Word)
    (contents : List UInt8) :
    (∀ index (bound : index < contents.length),
      (raw base bytes).byte? (address + .ofNat index) = some contents[index]) ↔
    ∀ index (bound : index < contents.length),
      (⟨base, bytes⟩ : Memory).byte? (address.toNat + index) = some contents[index] := by
  constructor
  · intro served index bound
    -- If the row wrapped, one of its bytes would be at the last address, past the end of the image.
    have direct : address.toNat + index < 2 ^ 32 := by
      by_contra wraps
      have small := address.toNat_lt
      obtain ⟨last, top⟩ : ∃ last, address.toNat + last = 2 ^ 32 - 1 :=
        ⟨2 ^ 32 - 1 - address.toNat, by omega⟩
      have present := served last (by omega)
      rw [byte_raw_eq below, Word.to_nat_add_of_lt (by omega)] at present
      have bounded := lt_of_byte_memory present
      omega
    rw [← Word.to_nat_add_of_lt direct, ← byte_raw_eq below, served index bound]
  · intro held index bound
    have present := held index bound
    have bounded := lt_of_byte_memory present
    rw [byte_raw_eq below, Word.to_nat_add_of_lt (by omega), present]

theorem word_raw_iff (below : base.toNat + bytes.size < 2 ^ 32) (address value : Word) :
    (raw base bytes).word? address = some value ↔
      (⟨base, bytes⟩ : Memory).readWord address 4 = .ok value := by
  simp only [word_eq_some_iff, Memory.read_word_ok_iff_bytes (by decide : 0 < 4), bytes_raw_iff below]

theorem raw_agrees (below : base.toNat + bytes.size < 2 ^ 32) :
    (raw base bytes).AgreesWith ⟨base, bytes⟩ where
  byte address value := by
    rw [byte_raw_eq below, Memory.read_ok_iff (by decide)]
    simp
  word := word_raw_iff below
  contains address := by
    rw [contains_raw, Bool.eq_iff_iff, contains_segment_iff below, Memory.contains, decide_eq_true_eq]
    exact Iff.rfl
  fetch pc word := by
    rw [word_raw_iff below, Memory.fetch]
    cases (⟨base, bytes⟩ : Memory).readWord pc 4 <;> simp

theorem raw_blank (reaches : base.toNat + bytes.size = 2 ^ 32) (address : Word) :
    (raw base bytes).contains address = false ∧ (raw base bytes).byte? address = none ∧
      (raw base bytes).word? address = none := by
  have blank : ∀ address, (raw base bytes).byte? address = none := fun address => by
    rw [byte_raw, not_contains_segment reaches]
    rfl
  refine ⟨by rw [contains_raw, not_contains_segment reaches], blank address, ?_⟩
  by_contra present
  obtain ⟨value, served⟩ := Option.ne_none_iff_exists'.mp present
  obtain ⟨contents, ⟨length, bytes⟩, _⟩ := word_eq_some_iff.mp served
  have first := bytes 0 (by omega)
  rw [blank] at first
  cases first

end Raw

/-- An image and a memory with the same bytes answer alike exactly if the bytes end before the last
address. Bytes that reach it are served by the memory, but the image answers nothing then. -/
theorem raw_agrees_iff (base : Word) (bytes : ByteArray)
    (fits : base.toNat + bytes.size ≤ 2 ^ 32) :
    ((raw base bytes).AgreesWith ⟨base, bytes⟩ ↔ base.toNat + bytes.size < 2 ^ 32) ∧
    (base.toNat + bytes.size = 2 ^ 32 → ∀ address,
      (raw base bytes).contains address = false ∧ (raw base bytes).byte? address = none ∧
      (raw base bytes).word? address = none) := by
  refine ⟨⟨fun agrees => ?_, raw_agrees⟩, raw_blank⟩
  by_contra reaching
  have reaches : base.toNat + bytes.size = 2 ^ 32 := by omega
  have small := base.toNat_lt
  have covered : (⟨base, bytes⟩ : Memory).contains base = true := by
    apply decide_eq_true
    change base.toNat ≤ base.toNat ∧ base.toNat + 1 ≤ base.toNat + bytes.size
    omega
  have served := agrees.contains base
  rw [(raw_blank reaches base).1, covered] at served
  cases served

/-- Four bytes that end just before the last address. -/
theorem four_bytes_below_top_agree :
    (0xFFFFFFFB : Word).toNat + (⟨#[1, 2, 3, 4]⟩ : ByteArray).size ≤ 2 ^ 32 ∧
    (raw 0xFFFFFFFB ⟨#[1, 2, 3, 4]⟩).AgreesWith ⟨0xFFFFFFFB, ⟨#[1, 2, 3, 4]⟩⟩ :=
  ⟨by decide, (raw_agrees_iff 0xFFFFFFFB ⟨#[1, 2, 3, 4]⟩ (by decide)).1.mpr (by decide)⟩

/-- The same bytes one address higher: the memory serves them, the image does not. -/
theorem four_bytes_at_top_disagree :
    (raw 0xFFFFFFFC ⟨#[1, 2, 3, 4]⟩).word? 0xFFFFFFFC = none ∧
    (⟨0xFFFFFFFC, ⟨#[1, 2, 3, 4]⟩⟩ : Memory).readWord 0xFFFFFFFC 4 = .ok 0x04030201 ∧
    ¬(raw 0xFFFFFFFC ⟨#[1, 2, 3, 4]⟩).AgreesWith ⟨0xFFFFFFFC, ⟨#[1, 2, 3, 4]⟩⟩ := by
  have blank : (raw 0xFFFFFFFC ⟨#[1, 2, 3, 4]⟩).word? 0xFFFFFFFC = none := by decide
  have held : (⟨0xFFFFFFFC, ⟨#[1, 2, 3, 4]⟩⟩ : Memory).readWord 0xFFFFFFFC 4 = .ok 0x04030201 := by
    decide
  refine ⟨blank, held, fun agrees => ?_⟩
  rw [← agrees.word, blank] at held
  cases held

end Image
end LoongArch
