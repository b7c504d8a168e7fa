import LoongArch.Proofs.Flow.Blocks
import LoongArch.Proofs.Flow.Reachability

/-!
# Blocks are straight, and as long as they can be

Control comes to an address from elsewhere if it is an entry or an edge other than a fallthrough leads to
it, and it may leave an instruction that halts, jumps through a register or has such an edge. Inside a
block neither happens, so all that leaves an instruction there is its fallthrough to the next one. Where
neither happens, two instructions in a row lie in one block, unless another one begins between them: a
block continues only what is last in the order of addresses.
-/

set_option autoImplicit false

namespace LoongArch

namespace Analysis

/-- Control comes to the address otherwise than from the instruction in front of it. -/
def Enters (analysis : Analysis) (entries : List Word) (pc : Word) : Prop :=
  pc ∈ entries ∨ ∃ edge ∈ analysis.edges, edge.kind ≠ .fallthrough ∧ edge.target = pc

/-- Control may go elsewhere from the instruction than to the one behind it. -/
def Leaves (analysis : Analysis) (pc : Word) : Prop :=
  pc ∈ analysis.halts ∨ pc ∈ analysis.indirect ∨
    ∃ edge ∈ analysis.edges, edge.kind ≠ .fallthrough ∧ edge.source = pc

instance (analysis : Analysis) (entries : List Word) (pc : Word) :
    Decidable (analysis.Enters entries pc) :=
  inferInstanceAs (Decidable (_ ∨ _))

instance (analysis : Analysis) (pc : Word) : Decidable (analysis.Leaves pc) :=
  inferInstanceAs (Decidable (_ ∨ _))

theorem mem_jumps_iff {analysis : Analysis} {edge : Edge} :
    edge ∈ analysis.jumps ↔ edge ∈ analysis.edges ∧ edge.kind ≠ .fallthrough := by
  simp [jumps]

theorem mem_starts_iff {analysis : Analysis} {entries : List Word} {pc : Word} :
    pc ∈ analysis.starts entries ↔ analysis.Enters entries pc := by
  simp only [starts, Enters, Std.TreeSet.mem_ofList, List.contains_iff_mem, List.mem_append,
    List.mem_map, mem_jumps_iff, and_assoc]

theorem mem_ends_iff {analysis : Analysis} {pc : Word} :
    pc ∈ analysis.ends ↔ analysis.Leaves pc := by
  simp only [ends, Leaves, Std.TreeSet.mem_ofList, List.contains_iff_mem, List.mem_append,
    Std.TreeSet.mem_toList, List.mem_map, mem_jumps_iff, and_assoc, or_assoc]

theorem joins_iff {analysis : Analysis} {entries : List Word} {previous next : Word × Word} :
    Cutting.joins (analysis.starts entries) analysis.ends previous next = true ↔
      ¬analysis.Leaves previous.1 ∧ ¬analysis.Enters entries next.1 ∧ previous.1 + 4 = next.1 := by
  simp only [Cutting.joins, ← mem_starts_iff, ← mem_ends_iff, Std.TreeSet.mem_iff_contains,
    Bool.and_eq_true, Bool.not_eq_true', Bool.not_eq_true, beq_iff_eq, and_assoc]

end Analysis

theorem Edge.leaving_eq_following {pc word : Word}
    (continues : (InstructionSet.lookup word).effects.has .halt = false)
    (direct : (InstructionSet.lookup word).effects.has .indirect = false)
    (plain : ∀ edge ∈ leaving pc word, edge.kind = .fallthrough) :
    leaving pc word = [⟨pc, pc + 4, .fallthrough⟩] := by
  simp only [leaving, continues, direct] at plain ⊢
  repeat' split at plain
  all_goals simp_all

namespace Analysis

theorem Faithful.edges_from_perm {image : Image} {analysis : Analysis}
    (faithful : analysis.Faithful image) {pc word : Word} (known : analysis.words[pc]? = some word) :
    (analysis.edges.toList.filter (·.source = pc)).Perm (Edge.leaving pc word) := by
  rw [List.perm_ext_iff_of_nodup (faithful.nodup_edges.filter _) (Edge.nodup_leaving pc word)]
  intro edge
  rw [List.mem_filter, Array.mem_toList_iff, faithful.mem_edges_iff, decide_eq_true_eq]
  constructor
  · rintro ⟨⟨found, recorded, leaves⟩, rfl⟩
    rw [known] at recorded
    cases recorded
    exact leaves
  · intro leaves
    have recorded := faithful.mem_edges_of_known known leaves
    exact ⟨faithful.mem_edges_iff.mp recorded, Edge.source_of_mem_leaving leaves⟩

theorem Faithful.edges_from_eq {image : Image} {analysis : Analysis}
    (faithful : analysis.Faithful image) {pc word : Word} (known : analysis.words[pc]? = some word)
    (stays : ¬analysis.Leaves pc) :
    analysis.edges.toList.filter (·.source = pc) = [⟨pc, pc + 4, .fallthrough⟩] := by
  have continues : (InstructionSet.lookup word).effects.has .halt = false := by
    by_contra halting
    refine stays (.inl ((faithful.halts.mem_iff_of_known known).mpr ?_))
    simpa using halting
  have direct : (InstructionSet.lookup word).effects.has .indirect = false := by
    by_contra indirect
    refine stays (.inr (.inl ((faithful.indirect.mem_iff_of_known known).mpr ?_)))
    simpa [continues] using indirect
  have plain : ∀ edge ∈ Edge.leaving pc word, edge.kind = .fallthrough := by
    intro edge leaves
    by_contra jumps
    have recorded := faithful.mem_edges_of_known known leaves
    exact stays (.inr (.inr ⟨edge, recorded, jumps, Edge.source_of_mem_leaving leaves⟩))
  have perm := faithful.edges_from_perm known
  rw [Edge.leaving_eq_following continues direct plain] at perm
  exact List.perm_singleton.mp perm

end Analysis

/-- Every instruction of a block but the last one has one edge, which falls through to the next one, and
every instruction but the first one is reached by no other way. -/
structure Block.Straight (analysis : Analysis) (entries : List Word) (block : Block) : Prop where
  onward : ∀ index, index + 1 < block.lines.size →
    analysis.edges.toList.filter (·.source = block.address index) =
      [⟨block.address index, block.address (index + 1), .fallthrough⟩]
  stays : ∀ index, index + 1 < block.lines.size → ¬analysis.Leaves (block.address index)
  unentered : ∀ index, index + 1 < block.lines.size →
    ¬analysis.Enters entries (block.address (index + 1))

namespace Analysis

section Runs

variable {analysis : Analysis} {entries : List Word}

theorem joined_of_mem_runs {run : List (Word × Word)} (listed : run ∈ analysis.runs entries)
    {index : Nat} (early : index < run.length) (bound : index + 1 < run.length) :
    ¬analysis.Leaves run[index].1 ∧ ¬analysis.Enters entries run[index + 1].1 ∧
      run[index].1 + 4 = run[index + 1].1 :=
  joins_iff.mp (List.isChain_iff_getElem.mp (List.isChain_of_mem_splitBy listed) index bound)

theorem straight_of_run {image : Image} (faithful : analysis.Faithful image)
    {run : List (Word × Word)} (listed : run ∈ analysis.runs entries)
    (consecutive : Consecutive run) : (Block.ofRun run).Straight analysis entries where
  onward index bound := by
    rw [Block.size_of_run] at bound
    have early : index < run.length := Nat.lt_of_succ_lt bound
    obtain ⟨stays, _, follows⟩ := joined_of_mem_runs listed early bound
    have known : analysis.words[run[index].1]? = some run[index].2 :=
      mem_instructions_iff.mp (mem_instructions_of_runs listed (List.getElem_mem early))
    rw [consecutive.address_eq early, consecutive.address_eq bound, ← follows]
    exact faithful.edges_from_eq known stays
  stays index bound := by
    rw [Block.size_of_run] at bound
    have early : index < run.length := Nat.lt_of_succ_lt bound
    rw [consecutive.address_eq early]
    exact (joined_of_mem_runs listed early bound).1
  unentered index bound := by
    rw [Block.size_of_run] at bound
    rw [consecutive.address_eq bound]
    exact (joined_of_mem_runs listed (Nat.lt_of_succ_lt bound) bound).2.1

end Runs

/-- Control enters a block at its first instruction only and leaves it after its last one only. -/
theorem blocks_straight (image : Image) (entries : List Word) (limit : Nat) :
    let analysis := ofEntries image entries limit
    ∀ block ∈ analysis.blocks entries, block.Holds analysis ∧ block.Straight analysis entries := by
  intro analysis block listed
  obtain ⟨run, runListed, rfl⟩ := mem_blocks_iff.mp listed
  have consecutive : Consecutive run :=
    consecutive_of_mem_runs (below_of_entries image entries limit) runListed
  exact ⟨holds_of_run consecutive fun _ => mem_instructions_of_runs runListed,
    straight_of_run (faithful_of_entries image entries limit) runListed consecutive⟩

end Analysis

theorem Cutting.exists_group_of_neighbours {Item : Type} {related : Item → Item → Bool}
    {groups : List (List Item)} (filled : [] ∉ groups)
    (ended : groups.IsChain fun left right =>
      ∃ leftFilled rightFilled, related (left.getLast leftFilled) (right.head rightFilled) = false)
    {front back : List Item} {item next : Item}
    (joined : groups.flatten = front ++ item :: next :: back) (neighbours : related item next = true) :
    ∃ group ∈ groups, item ∈ group ∧ next ∈ group := by
  induction groups generalizing front with
  | nil => simp at joined
  | cons first rest hypothesis =>
    have later : ∀ front, rest.flatten = front ++ item :: next :: back →
        ∃ group ∈ first :: rest, item ∈ group ∧ next ∈ group := by
      intro front joined
      obtain ⟨group, listed, both⟩ :=
        hypothesis (List.not_mem_of_not_mem_cons filled) ended.tail joined
      exact ⟨group, List.mem_cons_of_mem first listed, both⟩
    rw [List.flatten_cons, List.append_eq_append_iff] at joined
    rcases joined with ⟨behind, _, others⟩ | ⟨inside, same, others⟩
    · exact later behind others
    -- What is left of the two in the first group decides: nothing, one of them, or both.
    match inside with
    | [] => exact later [] others.symm
    | [_] =>
      match rest with
      | [] => simp at others
      | [] :: _ => simp at filled
      | (_ :: _) :: _ =>
        cases others
        obtain ⟨_, _, apart⟩ := (List.isChain_cons_cons.mp ended).1
        simp [same, neighbours] at apart
    | _ :: _ :: _ =>
      cases others
      exact ⟨first, List.mem_cons_self, by simp [same]⟩

namespace Analysis

section Maximal

variable {analysis : Analysis} {entries : List Word}

theorem neighbours_of_unseparated {low high : Word × Word} (lowListed : low ∈ analysis.instructions)
    (highListed : high ∈ analysis.instructions) (less : low.1 < high.1)
    (unseparated : ∀ between ∈ analysis.words, ¬(low.1 < between ∧ between < high.1)) :
    ∃ front back, analysis.instructions = front ++ low :: high :: back := by
  obtain ⟨front, rest, whole⟩ := List.append_of_mem lowListed
  have ascending := analysis.instructions_ascending
  rw [whole, List.pairwise_append, List.pairwise_cons] at ascending
  obtain ⟨_, ⟨above, others⟩, below⟩ := ascending
  have behind : high ∈ rest := by
    rw [whole, List.mem_append, List.mem_cons] at highListed
    rcases highListed with before | rfl | behind
    · have reversed := below high before low List.mem_cons_self
      exact absurd (UInt32.lt_trans less reversed) (UInt32.lt_irrefl _)
    · exact absurd less (UInt32.lt_irrefl _)
    · exact behind
  match rest with
  | next :: back =>
    rcases List.mem_cons.mp behind with rfl | later
    · exact ⟨front, back, whole⟩
    · have nextListed : next ∈ analysis.instructions := by simp [whole]
      refine absurd ⟨above next List.mem_cons_self, ?_⟩
        (unseparated next.1 (mem_words_of_mem_instructions nextListed))
      exact (List.pairwise_cons.mp others).1 high later

theorem exists_run_of_unseparated {low high : Word × Word} (lowListed : low ∈ analysis.instructions)
    (highListed : high ∈ analysis.instructions) (less : low.1 < high.1)
    (unseparated : ∀ between ∈ analysis.words, ¬(low.1 < between ∧ between < high.1))
    (joined : Cutting.joins (analysis.starts entries) analysis.ends low high = true) :
    ∃ run ∈ analysis.runs entries, low ∈ run ∧ high ∈ run := by
  obtain ⟨front, back, whole⟩ := neighbours_of_unseparated lowListed highListed less unseparated
  exact Cutting.exists_group_of_neighbours (List.nil_notMem_splitBy _ _)
    (List.isChain_getLast_head_splitBy _ _) (flatten_runs.trans whole) joined

theorem mem_run_of_between {run : List (Word × Word)} (listed : run ∈ analysis.runs entries)
    {low between high : Word × Word} (lowListed : low ∈ run) (highListed : high ∈ run)
    (known : between ∈ analysis.instructions) (above : low.1 < between.1)
    (below : between.1 < high.1) : between ∈ run := by
  obtain ⟨front, back, split⟩ := List.append_of_mem listed
  have whole : analysis.instructions = front.flatten ++ (run ++ back.flatten) := by
    have joined : (analysis.runs entries).flatten = analysis.instructions := flatten_runs
    rw [← joined, split]
    simp
  have ascending := analysis.instructions_ascending
  rw [whole, List.pairwise_append, List.pairwise_append] at ascending
  obtain ⟨_, ⟨_, _, later⟩, earlier⟩ := ascending
  rw [whole, List.mem_append, List.mem_append] at known
  rcases known with before | inside | behind
  · have reversed := earlier between before low (List.mem_append_left _ lowListed)
    exact absurd (UInt32.lt_trans above reversed) (UInt32.lt_irrefl _)
  · exact inside
  · exact absurd (UInt32.lt_trans below (later high highListed between behind)) (UInt32.lt_irrefl _)

theorem unseparated_of_mem_run {run : List (Word × Word)} (listed : run ∈ analysis.runs entries)
    (consecutive : Consecutive run) {low high : Word × Word} (lowListed : low ∈ run)
    (highListed : high ∈ run) (near : high.1.toNat = low.1.toNat + 4) :
    ∀ between ∈ analysis.words, ¬(low.1 < between ∧ between < high.1) := by
  rintro between known ⟨above, below⟩
  obtain ⟨word, found⟩ := exists_word_of_mem known
  have inside : (between, word) ∈ run :=
    mem_run_of_between listed lowListed highListed (mem_instructions_iff.mpr found) above below
  have apart : low.1.toNat + 4 ≤ between.toNat := consecutive.add_four_le lowListed inside above
  rw [UInt32.lt_iff_toNat_lt] at below
  omega

end Maximal

/-- Two reached instructions in a row, where control neither leaves the first nor comes to the second from
elsewhere, lie in one block exactly if no reached instruction begins between them. -/
theorem blocks_maximal (image : Image) (entries : List Word) (limit : Nat) (pc : Word)
    (known : pc ∈ (ofEntries image entries limit).words)
    (follows : pc + 4 ∈ (ofEntries image entries limit).words)
    (stays : ¬(ofEntries image entries limit).Leaves pc)
    (unentered : ¬(ofEntries image entries limit).Enters entries (pc + 4)) :
    let analysis := ofEntries image entries limit
    (∃ block ∈ analysis.blocks entries, pc ∈ block.addresses ∧ pc + 4 ∈ block.addresses) ↔
      ∀ between ∈ analysis.words, ¬(pc < between ∧ between < pc + 4) := by
  intro analysis
  have below := below_of_entries image entries limit
  obtain ⟨word, found⟩ := exists_word_of_mem known
  obtain ⟨following, foundNext⟩ := exists_word_of_mem follows
  have listed : (pc, word) ∈ analysis.instructions := mem_instructions_iff.mpr found
  have listedNext : (pc + 4, following) ∈ analysis.instructions := mem_instructions_iff.mpr foundNext
  have near : (pc + 4).toNat = pc.toNat + 4 := Word.to_nat_add_of_lt (below _ listed)
  constructor
  · rintro ⟨block, blockListed, member, memberNext⟩
    obtain ⟨run, runListed, rfl⟩ := mem_blocks_iff.mp blockListed
    have consecutive := consecutive_of_mem_runs below runListed
    rw [consecutive.addresses_eq, List.mem_map] at member memberNext
    obtain ⟨low, lowListed, rfl⟩ := member
    obtain ⟨high, highListed, same⟩ := memberNext
    rw [← same] at near ⊢
    exact unseparated_of_mem_run runListed consecutive lowListed highListed near
  · intro unseparated
    have less : pc < pc + 4 := UInt32.lt_iff_toNat_lt.mpr (by omega)
    obtain ⟨run, runListed, member, memberNext⟩ := exists_run_of_unseparated listed listedNext less
      unseparated (joins_iff.mpr ⟨stays, unentered, rfl⟩)
    refine ⟨.ofRun run, mem_blocks_iff.mpr ⟨run, runListed, rfl⟩, ?_⟩
    rw [(consecutive_of_mem_runs below runListed).addresses_eq]
    exact ⟨List.mem_map.mpr ⟨_, member, rfl⟩, List.mem_map.mpr ⟨_, memberNext, rfl⟩⟩

/-- Two instructions in a row stay together although another line of instructions, which lies two bytes
off, has been reached behind them. -/
theorem line_beside_another_kept :
    let image := Image.raw 0 ⟨#[0, 0, 0x80, 2, 0, 0, 0x80, 2, 0, 0, 0x2A, 0, 0, 0]⟩
    let analysis := ofEntries image [0, 10] 9
    0 ∈ analysis.words ∧ 0 + 4 ∈ analysis.words ∧
    ¬analysis.Leaves 0 ∧ ¬analysis.Enters [0, 10] (0 + 4) ∧
    ∃ block ∈ analysis.blocks [0, 10], 0 ∈ block.addresses ∧ 0 + 4 ∈ block.addresses := by
  intro image analysis
  have known : 0 ∈ analysis.words := by decide +kernel
  have follows : 0 + 4 ∈ analysis.words := by decide +kernel
  have stays : ¬analysis.Leaves 0 := by decide +kernel
  have unentered : ¬analysis.Enters [0, 10] (0 + 4) := by decide +kernel
  have keys : analysis.words.keys = [0, 4, 8, 10] := by decide +kernel
  have maximal := blocks_maximal image [0, 10] 9 0 known follows stays unentered
  refine ⟨known, follows, stays, unentered, maximal.mpr fun between listed => ?_⟩
  have cases : between ∈ ([0, 4, 8, 10] : List Word) := keys ▸ Std.TreeMap.mem_keys.mpr listed
  simp only [List.mem_cons, List.not_mem_nil, or_false] at cases
  rcases cases with rfl | rfl | rfl | rfl <;> decide

/-- Where an instruction of the other line begins between two in a row, these lie in different blocks. -/
theorem line_across_another_cut :
    let image := Image.raw 0 ⟨#[0, 0, 0x80, 2, 0, 0, 0x2A, 0]⟩
    let analysis := ofEntries image [0, 2] 9
    0 ∈ analysis.words ∧ 0 + 4 ∈ analysis.words ∧
    ¬analysis.Leaves 0 ∧ ¬analysis.Enters [0, 2] (0 + 4) ∧
    ¬∃ block ∈ analysis.blocks [0, 2], 0 ∈ block.addresses ∧ 0 + 4 ∈ block.addresses := by
  decide +kernel

end Analysis
end LoongArch
