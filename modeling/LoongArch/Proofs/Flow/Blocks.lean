import LoongArch.CommandLine.Disassembler
import LoongArch.Proofs.Flow.Search
import LoongArch.Proofs.ImageMemory
import Mathlib.Data.List.SplitBy

/-!
# Blocks hold every reached instruction

The pass that cuts instructions into blocks keeps the last block, its end and whether it may go on. What
it makes of them are the longest runs in which every instruction joins the one before. From there on the
blocks are read as runs: they hold all reached instructions, in the order of their addresses, each at the
place that its address says. No address wraps, since no image has a byte at the last address. The printed
report finds the addresses again from those places, and so each line has the address of its instruction.
-/

set_option autoImplicit false

namespace LoongArch

namespace Block

def ofRun (run : List (Word × Word)) : Block where
  start := (run.head?.map (·.1)).getD 0
  stop := (run.getLast?.map (·.1 + 4)).getD 0
  lines := (run.map fun (pc, word) => (Instruction.decode word).text pc).toArray

theorem of_run_concat {run : List (Word × Word)} (nonempty : run ≠ []) (pc word : Word) :
    ofRun (run ++ [(pc, word)]) = (ofRun run).extend pc word := by
  simp [ofRun, extend, List.head?_append_of_ne_nil run nonempty]

theorem start_of_run {run : List (Word × Word)} (nonempty : 0 < run.length) :
    (ofRun run).start = run[0].1 := by
  simp [ofRun, List.head?_eq_getElem?, List.getElem?_eq_getElem nonempty]

theorem size_of_run (run : List (Word × Word)) : (ofRun run).lines.size = run.length := by
  simp [ofRun]

/-- The addresses of the instructions of a block, as its listing gives them. -/
def addresses (block : Block) : List Word :=
  (List.range block.lines.size).map block.address

end Block

namespace Cutting

variable (starts ends : Std.TreeSet Word)

def joins (previous next : Word × Word) : Bool :=
  !ends.contains previous.1 && !starts.contains next.1 && previous.1 + 4 == next.1

/-- A pass that has just taken in `last`, behind the instructions of `run`, which are in reverse order as
are the completed runs. -/
def after (last : Word × Word) (run : List (Word × Word)) (runs : List (List (Word × Word))) :
    Cutting where
  blocks := (((last :: run).reverse) :: runs).map Block.ofRun
  isOpen := !ends.contains last.1

theorem add_after (last next : Word × Word) (run : List (Word × Word))
    (runs : List (List (Word × Word))) :
    (after ends last run runs).add starts ends next =
      if joins starts ends last next then after ends next (last :: run) runs
      else after ends next [] ((last :: run).reverse :: runs) := by
  obtain ⟨pc, word⟩ := next
  have stop : (Block.ofRun (last :: run).reverse).stop = last.1 + 4 := by
    simp [Block.ofRun]
  have joined : (!ends.contains last.1 && !starts.contains pc && last.1 + 4 == pc) =
      joins starts ends last (pc, word) := rfl
  simp only [after, add, List.map_cons, stop, joined]
  split
  next =>
    have longer : ((pc, word) :: last :: run).reverse = (last :: run).reverse ++ [(pc, word)] :=
      List.reverse_cons
    rw [longer, Block.of_run_concat (by simp)]
  next => rfl

theorem foldl_add_after (rest : List (Word × Word)) (last : Word × Word) (run : List (Word × Word))
    (runs : List (List (Word × Word))) :
    (rest.foldl (add starts ends) (after ends last run runs)).blocks.reverse =
      (List.splitBy.loop (joins starts ends) rest last run runs).map Block.ofRun := by
  induction rest generalizing last run runs with
  | nil => simp [List.splitBy.loop, after]
  | cons next rest hypothesis =>
    rw [List.foldl_cons, add_after, List.splitBy.loop]
    cases joins starts ends last next with
    | true => exact hypothesis next (last :: run) runs
    | false => exact hypothesis next [] ((last :: run).reverse :: runs)

end Cutting

namespace Analysis

/-- The reached instructions in the longest runs that nothing enters or leaves. -/
def runs (analysis : Analysis) (entries : List Word) : List (List (Word × Word)) :=
  analysis.instructions.splitBy (Cutting.joins (analysis.starts entries) analysis.ends)

theorem blocks_eq (analysis : Analysis) (entries : List Word) :
    analysis.blocks entries = (analysis.runs entries).map Block.ofRun := by
  unfold blocks runs
  cases analysis.instructions with
  | nil => rfl
  | cons first rest =>
    exact Cutting.foldl_add_after (analysis.starts entries) analysis.ends rest first [] []

end Analysis

/-- Instructions of which each one follows the one before in memory, none of them next to the end of the
address space. -/
structure Consecutive (run : List (Word × Word)) : Prop where
  nonempty : run ≠ []
  follows : ∀ index (bound : index + 1 < run.length), run[index].1 + 4 = run[index + 1].1
  below : ∀ index (bound : index < run.length), run[index].1.toNat + 4 < 2 ^ 32

namespace Consecutive

variable {run : List (Word × Word)} (consecutive : Consecutive run)
include consecutive

theorem length_pos : 0 < run.length :=
  List.length_pos_iff.mpr consecutive.nonempty

theorem to_nat_get {index : Nat} (bound : index < run.length) :
    run[index].1.toNat = (Block.ofRun run).start.toNat + 4 * index := by
  induction index with
  | zero => rw [Block.start_of_run bound, Nat.mul_zero, Nat.add_zero]
  | succ index hypothesis =>
    have before := consecutive.below index (by omega)
    have moved : (run[index].1 + 4).toNat = run[index].1.toNat + 4 := Word.to_nat_add_of_lt before
    rw [← consecutive.follows index bound, moved, hypothesis (by omega)]
    omega

theorem add_four_le {low high : Word × Word} (lowListed : low ∈ run) (highListed : high ∈ run)
    (less : low.1 < high.1) : low.1.toNat + 4 ≤ high.1.toNat := by
  obtain ⟨lowIndex, lowBound, rfl⟩ := List.getElem_of_mem lowListed
  obtain ⟨highIndex, highBound, rfl⟩ := List.getElem_of_mem highListed
  have lowPlace := consecutive.to_nat_get lowBound
  have highPlace := consecutive.to_nat_get highBound
  rw [UInt32.lt_iff_toNat_lt] at less
  omega

theorem address_eq {index : Nat} (bound : index < run.length) :
    (Block.ofRun run).address index = run[index].1 := by
  have place := consecutive.to_nat_get bound
  have small := run[index].1.toNat_lt
  have offset : (4 * .ofNat index : Word) = .ofNat (4 * index) := by
    rw [UInt32.ofNat_mul]
    rfl
  apply UInt32.toNat_inj.mp
  rw [Block.address, offset, Word.to_nat_add_of_lt (by omega), place]

theorem stop_eq : (Block.ofRun run).stop.toNat = (Block.ofRun run).start.toNat + 4 * run.length := by
  have positive := consecutive.length_pos
  have bound : run.length - 1 < run.length := by omega
  have last : (Block.ofRun run).stop = run[run.length - 1].1 + 4 := by
    simp [Block.ofRun, List.getLast?_eq_getElem?, List.getElem?_eq_getElem bound]
  have moved : (run[run.length - 1].1 + 4).toNat = run[run.length - 1].1.toNat + 4 :=
    Word.to_nat_add_of_lt (consecutive.below _ bound)
  rw [last, moved, consecutive.to_nat_get bound]
  omega

theorem addresses_eq : (Block.ofRun run).addresses = run.map (·.1) := by
  refine List.ext_getElem (by simp [Block.addresses, Block.size_of_run]) fun index _ bound => ?_
  rw [List.length_map] at bound
  simp only [Block.addresses, List.getElem_map, List.getElem_range]
  exact consecutive.address_eq bound

theorem listing_eq :
    (Block.ofRun run).listing =
      run.map fun (pc, word) => Report.line pc ((Instruction.decode word).text pc) := by
  refine List.ext_getElem (by simp [Block.listing, Block.ofRun]) fun index _ bound => ?_
  rw [List.length_map] at bound
  simp only [Block.listing, List.getElem_mapIdx, List.getElem_map, consecutive.address_eq bound]
  simp [Block.ofRun]

end Consecutive

/-- A block holds instructions of an analysis: their words as text, each at the address that its place in
the block tells, up to the end of the block. -/
structure Block.Holds (analysis : Analysis) (block : Block) : Prop where
  nonempty : block.lines ≠ #[]
  stop : block.stop.toNat = block.start.toNat + 4 * block.lines.size
  line : ∀ index (bound : index < block.lines.size),
    (block.address index).toNat = block.start.toNat + 4 * index ∧
    ∃ word, analysis.words[block.address index]? = some word ∧
      block.lines[index] = (Instruction.decode word).text (block.address index)

namespace Analysis

section Runs

variable {analysis : Analysis} {entries : List Word}

theorem flatten_runs : (analysis.runs entries).flatten = analysis.instructions :=
  List.flatten_splitBy ..

theorem mem_instructions_of_runs {run : List (Word × Word)} (listed : run ∈ analysis.runs entries)
    {instruction : Word × Word} (mem : instruction ∈ run) : instruction ∈ analysis.instructions := by
  have joined : (analysis.runs entries).flatten = analysis.instructions := flatten_runs
  rw [← joined]
  exact List.mem_flatten_of_mem listed mem

theorem consecutive_of_mem_runs
    (below : ∀ instruction ∈ analysis.instructions, instruction.1.toNat + 4 < 2 ^ 32)
    {run : List (Word × Word)} (listed : run ∈ analysis.runs entries) : Consecutive run where
  nonempty := List.ne_nil_of_mem_splitBy listed
  follows index bound := by
    have chain := List.isChain_of_mem_splitBy listed
    have joined := List.isChain_iff_getElem.mp chain index bound
    simp only [Cutting.joins, Bool.and_eq_true, beq_iff_eq] at joined
    exact joined.2
  below index bound := below _ (mem_instructions_of_runs listed (List.getElem_mem bound))

theorem mem_blocks_iff {block : Block} :
    block ∈ analysis.blocks entries ↔ ∃ run ∈ analysis.runs entries, Block.ofRun run = block := by
  rw [blocks_eq, List.mem_map]

theorem runs_pairwise {relation : Word × Word → Word × Word → Prop}
    (pairwise : analysis.instructions.Pairwise relation) :
    (analysis.runs entries).Pairwise fun left right =>
      ∀ first ∈ left, ∀ second ∈ right, relation first second := by
  have joined : (analysis.runs entries).flatten = analysis.instructions := flatten_runs
  rw [← joined] at pairwise
  exact (List.pairwise_flatten.mp pairwise).2

theorem flat_map_blocks {Item : Type} {items : Block → List Item} {item : Word × Word → Item}
    (same : ∀ run ∈ analysis.runs entries, items (.ofRun run) = run.map item) :
    (analysis.blocks entries).flatMap items = analysis.instructions.map item := by
  rw [blocks_eq, List.flatMap_map, List.flatMap_congr same, List.flatMap_def, ← List.map_flatten,
    flatten_runs]

theorem holds_of_run {run : List (Word × Word)} (consecutive : Consecutive run)
    (known : ∀ instruction ∈ run, instruction ∈ analysis.instructions) :
    (Block.ofRun run).Holds analysis where
  nonempty := by
    simp [Block.ofRun, consecutive.nonempty]
  stop := by
    rw [consecutive.stop_eq, Block.size_of_run]
  line index bound := by
    rw [Block.size_of_run] at bound
    rw [consecutive.address_eq bound]
    refine ⟨consecutive.to_nat_get bound, run[index].2, ?_, by simp [Block.ofRun]⟩
    exact mem_instructions_iff.mp (known _ (List.getElem_mem bound))

end Runs

theorem below_of_entries (image : Image) (entries : List Word) (limit : Nat) :
    ∀ instruction ∈ (ofEntries image entries limit).instructions,
      instruction.1.toNat + 4 < 2 ^ 32 := by
  intro instruction listed
  have known := mem_instructions_iff.mp listed
  exact Image.add_four_lt_of_word ((faithful_of_entries image entries limit).words _ _ known)

theorem instructions_ascending (analysis : Analysis) :
    analysis.instructions.Pairwise fun low high => low.1 < high.1 :=
  Std.TreeMap.ordered_keys_toList.imp Std.compare_eq_lt.mp

theorem keys_ascending (analysis : Analysis) : analysis.words.keys.Pairwise (· < ·) :=
  Std.TreeMap.ordered_keys.imp Std.compare_eq_lt.mp

/-- The lines that a report prints for a block: each address of the block with its instruction. -/
def printed (analysis : Analysis) (block : Block) : List String :=
  block.addresses.filterMap fun pc => analysis.words[pc]?.map fun word =>
    "  " ++ Numeral.address pc.toNat ++ ": " ++ (Instruction.decode word).text pc ++ "\n"

theorem printed_of_run {analysis : Analysis} {run : List (Word × Word)}
    (consecutive : Consecutive run)
    (known : ∀ instruction ∈ run, instruction ∈ analysis.instructions) :
    analysis.printed (.ofRun run) = run.map fun (pc, word) =>
      "  " ++ Numeral.address pc.toNat ++ ": " ++ (Instruction.decode word).text pc ++ "\n" := by
  rw [printed, consecutive.addresses_eq, List.filterMap_map, ← List.filterMap_eq_map]
  refine List.filterMap_congr fun instruction listed => ?_
  have found := mem_instructions_iff.mp (known instruction listed)
  rw [Function.comp_apply, found]
  rfl

theorem join_flat_map {Item : Type} (items : List Item) (lines : Item → List String) :
    String.join (items.flatMap lines) = String.join (items.map fun item => String.join (lines item)) := by
  induction items with
  | nil => rfl
  | cons item items hypothesis =>
    rw [List.flatMap_cons, List.map_cons, String.join_append, String.join_cons, hypothesis]

def reportLines (analysis : Analysis) (entries : List Word) : List String :=
  let blocks := analysis.blocks entries
  ["Analysis summary:\n",
    "  insts    : " ++ Numeral.decimal analysis.words.size ++ "\n",
    "  blocks   : " ++ Numeral.decimal blocks.length ++ "\n",
    "  edges    : " ++ Numeral.decimal analysis.edges.size ++ "\n",
    "  halts    : " ++ Numeral.decimal analysis.halts.size ++ "\n",
    "  indirect : " ++ Numeral.decimal analysis.indirect.size ++ "\n",
    "  mem      : " ++ Numeral.decimal analysis.memoryAccesses.size ++ "\n"] ++
  blocks.flatMap fun block =>
    ("\nloc_" ++ Numeral.hexDigits 8 block.start.toNat ++ ":\n") :: analysis.printed block

theorem text_report {analysis : Analysis} {entries : List Word}
    (listed : ∀ block ∈ analysis.blocks entries, block.listing = analysis.printed block) :
    (analysis.report entries).text analysis.words.size =
      String.join (analysis.reportLines entries) := by
  have texts : (analysis.blocks entries).map Block.text = (analysis.blocks entries).map fun block =>
      String.join
        (("\nloc_" ++ Numeral.hexDigits 8 block.start.toNat ++ ":\n") :: analysis.printed block) := by
    refine List.map_congr_left fun block mem => ?_
    rw [Block.text, String.join_cons, listed block mem]
  rw [reportLines, String.join_append, join_flat_map, ← texts, ← Array.length_toList,
    ← Std.TreeSet.length_toList, ← Std.TreeSet.length_toList, ← Std.TreeSet.length_toList]
  rfl

open CommandLine in
/-- The blocks hold every reached instruction once, in the order of the addresses, and the printed report
lists each of them at its address. -/
theorem blocks_partition (image : Image) (entries : List Word) (limit : Nat) :
    let analysis := ofEntries image entries limit
    let blocks := analysis.blocks entries
    (∀ block ∈ blocks, block.Holds analysis) ∧
    blocks.flatMap Block.addresses = analysis.words.keys ∧
    analysis.words.keys.Pairwise (· < ·) ∧
    (blocks.flatMap analysis.printed = analysis.words.toList.map fun (pc, word) =>
      "  " ++ Numeral.address pc.toNat ++ ": " ++ (Instruction.decode word).text pc ++ "\n") ∧
    ∀ options : FlowOptions, seeds image options.entries = entries → options.limit = limit →
      options.format = .text →
      ((View.analyze options).show image).Emits (String.join (analysis.reportLines entries))
        options.destination := by
  intro analysis blocks
  have consecutive : ∀ run ∈ analysis.runs entries, Consecutive run := fun run listed =>
    consecutive_of_mem_runs (below_of_entries image entries limit) listed
  have known {run : List (Word × Word)} (listed : run ∈ analysis.runs entries) :
      ∀ instruction ∈ run, instruction ∈ analysis.instructions :=
    fun _ => mem_instructions_of_runs listed
  have lines : ∀ run ∈ analysis.runs entries, analysis.printed (.ofRun run) = run.map fun (pc, word) =>
      "  " ++ Numeral.address pc.toNat ++ ": " ++ (Instruction.decode word).text pc ++ "\n" :=
    fun run listed => printed_of_run (consecutive run listed) (known listed)
  have texts : ∀ block ∈ blocks, block.listing = analysis.printed block := by
    intro block mem
    obtain ⟨run, listed, rfl⟩ := mem_blocks_iff.mp mem
    rw [(consecutive run listed).listing_eq, lines run listed]
    rfl
  refine ⟨fun block mem => ?_, ?_, analysis.keys_ascending, flat_map_blocks lines, ?_⟩
  · obtain ⟨run, listed, rfl⟩ := mem_blocks_iff.mp mem
    exact holds_of_run (consecutive run listed) (known listed)
  · rw [flat_map_blocks fun run listed => (consecutive run listed).addresses_eq]
    exact Std.TreeMap.map_fst_toList_eq_keys
  · rintro options rfl rfl text
    rw [View.show, ← text_report texts]
    simp only [reportText, text]
    exact Outcome.emits_text ..

open CommandLine in
/-- A loop of two instructions and what follows it are printed as two blocks. -/
theorem loop_printed :
    let image : Image := .raw 0x10 ⟨#[0, 0, 0x80, 2, 0, 0xFC, 0xFF, 0x5B, 0, 0, 0x2A, 0]⟩
    let analysis := ofEntries image [0x10] 9
    let text := "Analysis summary:\n  insts    : 3\n  blocks   : 2\n  edges    : 3\n" ++
      "  halts    : 1\n  indirect : 0\n  mem      : 0\n\nloc_00000010:\n" ++
      "  0x00000010: addi.w $zero, $zero, 0\n  0x00000014: beq $zero, $zero, 0x10\n" ++
      "\nloc_00000018:\n  0x00000018: break 0x0\n"
    (View.analyze { limit := 9 }).show image =
      { status := 0, output := text, complaint := "", written := [] } ∧
    (analysis.blocks [0x10]).flatMap Block.addresses = [0x10, 0x14, 0x18] ∧
    String.join (analysis.reportLines [0x10]) = text := by
  intro image analysis text
  have printed : (View.analyze { limit := 9 }).show image =
      { status := 0, output := text, complaint := "", written := [] } := by decide +kernel
  obtain ⟨_, addresses, _, _, shown⟩ := blocks_partition image [0x10] 9
  have keys : analysis.words.keys = [0x10, 0x14, 0x18] := by decide +kernel
  have emits := shown { limit := 9 } (by decide +kernel) rfl rfl
  refine ⟨printed, addresses.trans keys, ?_⟩
  rw [← (emits.printed rfl).1, printed]

end Analysis

end LoongArch
