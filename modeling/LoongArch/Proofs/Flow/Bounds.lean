import LoongArch.Proofs.Flow.Blocks

/-!
# Images are read inside their segments

A segment compares an address with an end that wraps, but its bytes are counted in full. The end that is
compared never lies behind the true one, so an address that passes the test has a byte, whatever the base
and the size are. No address that is read or listed wraps, since nothing contains the last address.
-/

set_option autoImplicit false

namespace LoongArch

namespace Image

variable {image : Image} {address : Word}

theorem byte_of_found {segment : Segment}
    (found : image.segments.find? (·.contains address) = some segment) :
    segment.base.toNat ≤ address.toNat ∧
      ∃ inside : address.toNat - segment.base.toNat < segment.bytes.size,
        image.byte? address = some segment.bytes[address.toNat - segment.base.toNat] := by
  have contained : segment.contains address = true := (List.find?_eq_some_iff_append.mp found).1
  obtain ⟨lower, inside⟩ := Segment.offset_lt_of_contains contained
  refine ⟨lower, inside, ?_⟩
  rw [byte?, found, Option.bind_some, Segment.byte_eq lower]
  exact getElem?_pos ..

theorem byte_is_some (image : Image) (address : Word) :
    (image.byte? address).isSome = image.contains address := by
  rw [contains, ← List.isSome_find?]
  cases found : image.segments.find? (·.contains address) with
  | none =>
    rw [byte?, found]
    rfl
  | some segment =>
    obtain ⟨_, _, served⟩ := byte_of_found found
    rw [served]
    rfl

theorem word_is_some_iff :
    (image.word? address).isSome = true ↔
      ∀ index < 4, image.contains (address + .ofNat index) = true := by
  simp only [← byte_is_some, Option.isSome_iff_exists]
  constructor
  · rintro ⟨value, served⟩ index bound
    obtain ⟨contents, ⟨length, bytes⟩, _⟩ := word_eq_some_iff.mp served
    exact ⟨_, bytes index (by omega)⟩
  · intro served
    choose! byte bytes using served
    refine ⟨_, word_eq_some_iff.mpr ⟨(List.range 4).map byte, ⟨by simp, fun index bound => ?_⟩, rfl⟩⟩
    rw [List.length_map, List.length_range] at bound
    simpa using bytes index bound

end Image

theorem Consecutive.place_lt {run : List (Word × Word)} (consecutive : Consecutive run) {index : Nat}
    (bound : index < run.length) : (Block.ofRun run).start.toNat + 4 * index + 4 < 2 ^ 32 := by
  rw [← consecutive.to_nat_get bound]
  exact consecutive.below index bound

/-- Every byte that is read lies inside the segment that serves it, every word that is read lies in the
image as a whole, and no address at which an instruction is listed wraps. -/
theorem Image.reads_in_bounds (image : Image) :
    (∀ address segment, image.segments.find? (·.contains address) = some segment →
      segment.base.toNat ≤ address.toNat ∧
      ∃ inside : address.toNat - segment.base.toNat < segment.bytes.size,
        image.byte? address = some segment.bytes[address.toNat - segment.base.toNat]) ∧
    (∀ address,
      ((image.word? address).isSome = true ↔
        ∀ index < 4, image.contains (address + .ofNat index) = true) ∧
      ((image.word? address).isSome = true → address.toNat + 3 < 2 ^ 32)) ∧
    ∀ entries limit seeds, ∀ block ∈ (Analysis.ofEntries image entries limit).blocks seeds,
      ∀ index < block.lines.size,
        block.start.toNat + 4 * index < 2 ^ 32 ∧
        (block.address index).toNat = block.start.toNat + 4 * index := by
  refine ⟨fun address segment => byte_of_found, fun address => ⟨word_is_some_iff, fun served => ?_⟩, ?_⟩
  · obtain ⟨value, served⟩ := Option.isSome_iff_exists.mp served
    have small := add_four_lt_of_word served
    omega
  · intro entries limit seeds block listed index bound
    obtain ⟨run, runListed, rfl⟩ := Analysis.mem_blocks_iff.mp listed
    have consecutive := Analysis.consecutive_of_mem_runs
      (Analysis.below_of_entries image entries limit) runListed
    rw [Block.size_of_run] at bound
    have small := consecutive.place_lt bound
    refine ⟨by omega, ?_⟩
    rw [consecutive.address_eq bound, consecutive.to_nat_get bound]

end LoongArch
