import LoongArch.Proofs.BitFields
import LoongArch.Proofs.Flow.Blocks
import LoongArch.Proofs.Flow.Reachability

/-!
# Alignment of the reached instructions

An edge leads a whole number of instructions forward or backward, and an instruction has four bytes. So
everything that is reached from an entry lies as that entry does with respect to multiples of four, also
where an address wraps. If all entries lie alike, reached instructions never overlap, and neither do the
blocks that are made of them.
-/

set_option autoImplicit false

namespace LoongArch

theorem Word.add_four_mul_mod_four (word count : Word) : (word + 4 * count) % 4 = word % 4 := by
  apply UInt32.toNat_inj.mp
  have four : (4 : Word).toNat = 4 := rfl
  simp only [UInt32.toNat_mod, UInt32.toNat_add, UInt32.toNat_mul, four]
  omega

theorem Edge.target_mod_four {pc word : Word} {edge : Edge} (leaves : edge ∈ leaving pc word) :
    edge.target % 4 = pc % 4 := by
  rcases target_of_mem_leaving leaves with following | named
  · rw [following]
    exact Word.add_four_mul_mod_four pc 1
  · rw [named, Instruction.target, Word.shift_left_two]
    exact Word.add_four_mul_mod_four pc _

/-- An address lies with respect to multiples of four as one of the entries in the image does. -/
def AlignedWith (image : Image) (entries : List Word) (address : Word) : Prop :=
  ∃ entry ∈ entries, image.contains entry = true ∧ address % 4 = entry % 4

theorem AlignedWith.of_leaving {image : Image} {entries : List Word} {pc word : Word} {edge : Edge}
    (aligned : AlignedWith image entries pc) (leaves : edge ∈ Edge.leaving pc word) :
    AlignedWith image entries edge.target := by
  obtain ⟨entry, listed, mapped, same⟩ := aligned
  exact ⟨entry, listed, mapped, (Edge.target_mod_four leaves).trans same⟩

theorem Reachable.aligned {image : Image} {entries : List Word} {pc : Word}
    (reachable : Reachable image entries pc) : AlignedWith image entries pc := by
  induction reachable with
  | entry listed readable => exact ⟨_, listed, Image.contains_of_word readable, rfl⟩
  | follow _ _ leaves _ hypothesis =>
    rw [← Edge.leaving_eq_successors] at leaves
    exact hypothesis.of_leaving leaves

theorem Word.add_four_le_of_lt {low high : Word} (less : low < high) (alike : low % 4 = high % 4) :
    low.toNat + 4 ≤ high.toNat := by
  have same : low.toNat % 4 = high.toNat % 4 := congrArg UInt32.toNat alike
  have ordered : low.toNat < high.toNat := UInt32.lt_iff_toNat_lt.mp less
  omega

def Block.Covers (block : Block) (address : Word) : Prop :=
  block.start ≤ address ∧ address < block.stop

theorem Consecutive.start_lt_stop {run : List (Word × Word)} (consecutive : Consecutive run) :
    (Block.ofRun run).start < (Block.ofRun run).stop := by
  have length := consecutive.length_pos
  have stop := consecutive.stop_eq
  rw [UInt32.lt_iff_toNat_lt]
  omega

theorem Consecutive.stop_le_start {left right : List (Word × Word)} (first : Consecutive left)
    (second : Consecutive right)
    (apart : ∀ low ∈ left, ∀ high ∈ right, low.1.toNat + 4 ≤ high.1.toNat) :
    (Block.ofRun left).stop ≤ (Block.ofRun right).start := by
  have leftLength := first.length_pos
  have rightLength := second.length_pos
  have last : left.length - 1 < left.length := by omega
  have stop := first.stop_eq
  have place := first.to_nat_get last
  have between := apart _ (List.getElem_mem last) _ (List.getElem_mem rightLength)
  rw [UInt32.le_iff_toNat_le, Block.start_of_run rightLength]
  omega

theorem Block.not_covers_of_stop_le {left right : Block} (ordered : left.stop ≤ right.start)
    {address : Word} (covered : left.Covers address) : ¬right.Covers address := by
  intro other
  exact absurd (UInt32.lt_of_lt_of_le covered.2 (UInt32.le_trans ordered other.1)) (UInt32.lt_irrefl _)

namespace Analysis

theorem blocks_ordered {analysis : Analysis} (entries : List Word)
    (below : ∀ instruction ∈ analysis.instructions, instruction.1.toNat + 4 < 2 ^ 32)
    (spaced : analysis.instructions.Pairwise fun low high => low.1.toNat + 4 ≤ high.1.toNat) :
    (analysis.blocks entries).Pairwise fun left right => left.stop ≤ right.start := by
  rw [blocks_eq, List.pairwise_map]
  refine (runs_pairwise spaced).imp_of_mem fun leftListed rightListed apart => ?_
  exact (consecutive_of_mem_runs below leftListed).stop_le_start
    (consecutive_of_mem_runs below rightListed) apart

section OfEntries

variable (image : Image) (entries : List Word) (limit : Nat)

theorem aligned_of_known {pc : Word} (known : pc ∈ (ofEntries image entries limit).words) :
    AlignedWith image entries pc :=
  (reachable_of_known image entries limit known).aligned

theorem aligned_of_edge {edge : Edge} (recorded : edge ∈ (ofEntries image entries limit).edges) :
    AlignedWith image entries edge.source ∧ AlignedWith image entries edge.target := by
  obtain ⟨word, known, leaves⟩ := (faithful_of_entries image entries limit).mem_edges_iff.mp recorded
  have source := aligned_of_known image entries limit (mem_words_of_known known)
  exact ⟨source, source.of_leaving leaves⟩

theorem add_four_le_of_alike (alike : ∀ entry ∈ entries, ∀ other ∈ entries, entry % 4 = other % 4)
    {low high : Word} (lowKnown : low ∈ (ofEntries image entries limit).words)
    (highKnown : high ∈ (ofEntries image entries limit).words) (less : low < high) :
    low.toNat + 4 ≤ high.toNat := by
  obtain ⟨entry, listed, _, lowSame⟩ := aligned_of_known image entries limit lowKnown
  obtain ⟨other, otherListed, _, highSame⟩ := aligned_of_known image entries limit highKnown
  apply Word.add_four_le_of_lt less
  rw [lowSame, highSame, alike entry listed other otherListed]

end OfEntries

/-- Reached instructions and both ends of every edge lie as entries in the image do. If all entries lie
alike, no two reached instructions overlap, and the blocks are disjoint ranges in ascending order. -/
theorem of_entries_aligned (image : Image) (entries : List Word) (limit : Nat) :
    let analysis := ofEntries image entries limit
    let blocks := analysis.blocks entries
    (∀ pc ∈ analysis.words, AlignedWith image entries pc) ∧
    (∀ edge ∈ analysis.edges,
      AlignedWith image entries edge.source ∧ AlignedWith image entries edge.target) ∧
    ((∀ entry ∈ entries, ∀ other ∈ entries, entry % 4 = other % 4) →
      (∀ low ∈ analysis.words, ∀ high ∈ analysis.words, low < high →
        low.toNat + 4 ≤ high.toNat) ∧
      (∀ block ∈ blocks, block.start < block.stop) ∧
      blocks.Pairwise fun left right =>
        left.stop ≤ right.start ∧ ∀ address, left.Covers address → ¬right.Covers address) := by
  intro analysis blocks
  refine ⟨fun pc => aligned_of_known image entries limit,
    fun edge => aligned_of_edge image entries limit, fun alike => ?_⟩
  have below := below_of_entries image entries limit
  have spaced : analysis.instructions.Pairwise fun low high => low.1.toNat + 4 ≤ high.1.toNat :=
    analysis.instructions_ascending.imp_of_mem fun lowListed highListed =>
      add_four_le_of_alike image entries limit alike (mem_words_of_mem_instructions lowListed)
        (mem_words_of_mem_instructions highListed)
  refine ⟨fun low lowKnown high highKnown =>
    add_four_le_of_alike image entries limit alike lowKnown highKnown, fun block listed => ?_, ?_⟩
  · obtain ⟨run, runListed, rfl⟩ := mem_blocks_iff.mp listed
    exact (consecutive_of_mem_runs below runListed).start_lt_stop
  · refine (blocks_ordered entries below spaced).imp fun ordered => ?_
    exact ⟨ordered, fun _ covered => Block.not_covers_of_stop_le ordered covered⟩

/-- Two entries that are no multiples of four but lie alike: a branch at the second one leads back to an
instruction between them. -/
theorem entries_two_bytes_off_aligned :
    let image := Image.raw 2 ⟨#[0, 0, 0x80, 2, 0, 0, 0x80, 2, 0, 0xFC, 0xFF, 0x5B, 0, 0, 0x2A, 0]⟩
    let entries : List Word := [10, 2]
    let analysis := ofEntries image entries 9
    (∀ entry ∈ entries, ∀ other ∈ entries, entry % 4 = other % 4) ∧
    (analysis.blocks entries).map (fun block => (block.start, block.stop)) =
      [(2, 6), (6, 10), (10, 14), (14, 18)] ∧
    ∀ low ∈ analysis.words, ∀ high ∈ analysis.words, low < high → low.toNat + 4 ≤ high.toNat := by
  intro image entries analysis
  have alike : ∀ entry ∈ entries, ∀ other ∈ entries, entry % 4 = other % 4 := by
    simp [entries]
  have blocks : (analysis.blocks entries).map (fun block => (block.start, block.stop)) =
      [(2, 6), (6, 10), (10, 14), (14, 18)] := by decide +kernel
  exact ⟨alike, blocks, ((of_entries_aligned image entries 9).2.2 alike).1⟩

end Analysis
end LoongArch
