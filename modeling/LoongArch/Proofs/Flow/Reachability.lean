import LoongArch.Proofs.BitFields
import LoongArch.Proofs.Flow.Search
import Mathlib.Data.FinEnum
import Mathlib.Data.List.Nodup
import Mathlib.Data.Set.Card

/-!
# The analysis finds what can be reached

The addresses that can be reached are the least set that holds every entry with a complete word and
every successor with a complete word of one of its members. The successors are given here by a table with
one row for each effect that counts, in the order in which they count. An analysis finds exactly what can
be reached if its limit allows, and otherwise as much of it as the limit allows.
-/

set_option autoImplicit false

namespace LoongArch

/-- The successors of an instruction by its effects. Only the first row that fits counts; an immediate
counts instructions, each of which has four bytes. -/
def Edge.successors (pc word : Word) : List Edge :=
  let effects := (InstructionSet.lookup word).effects
  let following : Edge := ⟨pc, pc + 4, .fallthrough⟩
  let named (kind : EdgeKind) : Edge := ⟨pc, pc + 4 * (Instruction.decode word).immediate, kind⟩
  match effects.has .halt, effects.has .indirect, effects.has .call, effects.has .jump,
    effects.has .branch with
  | true, _, _, _, _ => []
  | _, true, _, _, _ => if (Instruction.decode word).rd ≠ 0 then [following] else []
  | _, _, true, _, _ => [named .call, following]
  | _, _, _, true, _ => [named .jump]
  | _, _, _, _, true => [named .branch, following]
  | _, _, _, _, _ => [following]

theorem Edge.leaving_eq_successors (pc word : Word) : leaving pc word = successors pc word := by
  simp only [leaving, successors, Instruction.target, Word.shift_left_two]
  repeat' split
  all_goals simp_all

/-- The addresses that can be reached from entries along the edges of complete words. -/
inductive Reachable (image : Image) (entries : List Word) : Word → Prop where
  | entry {pc word : Word} (listed : pc ∈ entries) (readable : image.word? pc = some word) :
      Reachable image entries pc
  | follow {word following : Word} {edge : Edge} (source : Reachable image entries edge.source)
      (readable : image.word? edge.source = some word)
      (leaves : edge ∈ Edge.successors edge.source word)
      (present : image.word? edge.target = some following) : Reachable image entries edge.target

namespace Analysis

theorem Faithful.mem_edges_iff {image : Image} {analysis : Analysis}
    (faithful : analysis.Faithful image) {edge : Edge} :
    edge ∈ analysis.edges ↔
      ∃ word, analysis.words[edge.source]? = some word ∧ edge ∈ Edge.leaving edge.source word := by
  rw [← Array.mem_toList_iff, faithful.edges.mem_iff, List.mem_flatMap]
  constructor
  · rintro ⟨⟨pc, word⟩, recorded, leaves⟩
    have source : edge.source = pc := Edge.source_of_mem_leaving leaves
    subst source
    exact ⟨word, mem_instructions_iff.mp recorded, leaves⟩
  · rintro ⟨word, known, leaves⟩
    exact ⟨(edge.source, word), mem_instructions_iff.mpr known, leaves⟩

theorem Faithful.mem_edges_of_known {image : Image} {analysis : Analysis}
    (faithful : analysis.Faithful image) {pc word : Word} (known : analysis.words[pc]? = some word)
    {edge : Edge} (leaves : edge ∈ Edge.leaving pc word) : edge ∈ analysis.edges := by
  have source : edge.source = pc := Edge.source_of_mem_leaving leaves
  subst source
  exact faithful.mem_edges_iff.mpr ⟨word, known, leaves⟩

/-- No edge is recorded twice: the edges of one instruction differ, and those of two have different
sources. -/
theorem Faithful.nodup_edges {image : Image} {analysis : Analysis}
    (faithful : analysis.Faithful image) : analysis.edges.toList.Nodup := by
  rw [faithful.edges.nodup_iff, List.nodup_flatMap]
  constructor
  · intro instruction _
    exact Edge.nodup_leaving _ _
  · have distinct : analysis.instructions.Pairwise fun left right =>
        ¬compare left.1 right.1 = .eq := Std.TreeMap.distinct_keys_toList
    refine distinct.imp ?_
    intro left right different edge leavesLeft leavesRight
    have sourceLeft : edge.source = left.1 := Edge.source_of_mem_leaving leavesLeft
    have sourceRight : edge.source = right.1 := Edge.source_of_mem_leaving leavesRight
    exact different (Std.LawfulEqCmp.compare_eq_iff_eq.mpr (sourceLeft.symm.trans sourceRight))

theorem Faithful.reachable_of_linked {image : Image} {entries : List Word} {analysis : Analysis}
    (faithful : analysis.Faithful image) {pc : Word} (linked : Linked entries analysis.edges pc)
    {word : Word} (readable : image.word? pc = some word) : Reachable image entries pc := by
  induction linked generalizing word with
  | entry listed => exact .entry listed readable
  | edge _ recorded hypothesis =>
    obtain ⟨found, known, leaves⟩ := faithful.mem_edges_iff.mp recorded
    have before := faithful.words _ found known
    rw [Edge.leaving_eq_successors] at leaves
    exact .follow (hypothesis before) before leaves readable

theorem exists_word_of_mem {analysis : Analysis} {pc : Word} (known : pc ∈ analysis.words) :
    ∃ word, analysis.words[pc]? = some word :=
  Option.isSome_iff_exists.mp (Std.TreeMap.mem_iff_isSome_getElem?.mp known)

theorem Faithful.known_word {image : Image} {analysis : Analysis} (faithful : analysis.Faithful image)
    {pc word : Word} (known : pc ∈ analysis.words) (readable : image.word? pc = some word) :
    analysis.words[pc]? = some word := by
  obtain ⟨found, recorded⟩ := exists_word_of_mem known
  rw [recorded, ← faithful.words pc found recorded, readable]

theorem ncard_words (analysis : Analysis) :
    {pc : Word | pc ∈ analysis.words}.ncard = analysis.words.size := by
  have keys : {pc : Word | pc ∈ analysis.words} = (analysis.words.keys.toFinset : Set Word) := by
    ext pc
    simp
  rw [keys, Set.ncard_coe_finset, List.toFinset_card_of_nodup Std.TreeMap.nodup_keys,
    Std.TreeMap.length_keys]

section OfEntries

variable (image : Image) (entries : List Word) (limit : Nat)

theorem reachable_of_known {pc : Word} (known : pc ∈ (ofEntries image entries limit).words) :
    Reachable image entries pc := by
  have faithful := faithful_of_entries image entries limit
  obtain ⟨word, found⟩ := exists_word_of_mem known
  exact faithful.reachable_of_linked (linked_of_entries image entries limit known)
    (faithful.words pc word found)

theorem known_of_reachable (room : (ofEntries image entries limit).words.size < limit) {pc : Word}
    (reachable : Reachable image entries pc) : pc ∈ (ofEntries image entries limit).words := by
  have faithful := faithful_of_entries image entries limit
  induction reachable with
  | entry listed readable => exact covered_of_entries image entries limit room readable (.inl listed)
  | @follow word following edge _ readable leaves present known =>
    have recorded := faithful.known_word known readable
    rw [← Edge.leaving_eq_successors] at leaves
    have found := faithful.mem_edges_iff.mpr ⟨word, recorded, leaves⟩
    exact covered_of_entries image entries limit room present (.inr ⟨edge, found, rfl⟩)

theorem known_iff_reachable (fits : {pc | Reachable image entries pc}.ncard ≤ limit) (pc : Word) :
    pc ∈ (ofEntries image entries limit).words ↔ Reachable image entries pc := by
  refine ⟨reachable_of_known image entries limit, ?_⟩
  rcases (size_of_entries_le image entries limit).lt_or_eq with room | full
  · exact known_of_reachable image entries limit room
  · -- As many addresses are known as can be reached, and all of them can be.
    have subset : {pc | pc ∈ (ofEntries image entries limit).words} ⊆
        {pc | Reachable image entries pc} := fun _ => reachable_of_known image entries limit
    have same := Set.eq_of_subset_of_ncard_le subset (by rw [ncard_words, full]; exact fits)
    intro reachable
    have member : pc ∈ {pc | Reachable image entries pc} := reachable
    rw [← same] at member
    exact member

theorem size_of_limited (limited : limit < {pc | Reachable image entries pc}.ncard) :
    (ofEntries image entries limit).words.size = limit := by
  refine (size_of_entries_le image entries limit).antisymm (Nat.le_of_not_lt ?_)
  intro room
  have subset : {pc | Reachable image entries pc} ⊆
      {pc | pc ∈ (ofEntries image entries limit).words} :=
    fun _ => known_of_reachable image entries limit room
  have fewer := Set.ncard_le_ncard subset
  rw [ncard_words] at fewer
  omega

end OfEntries

/-- Two analyses found the same, up to the order in which they found it. -/
structure SameFindings (left right : Analysis) : Prop where
  instructions : left.instructions = right.instructions
  edges : left.edges.toList.Perm right.edges.toList
  halts : left.halts.toList = right.halts.toList
  indirect : left.indirect.toList = right.indirect.toList
  memoryAccesses : left.memoryAccesses.toList = right.memoryAccesses.toList

theorem Lists.mem_words {analysis : Analysis} {addresses : Std.TreeSet Word}
    {condition : Effects → Bool} (lists : analysis.Lists addresses condition) {pc : Word}
    (listed : pc ∈ addresses) : pc ∈ analysis.words := by
  obtain ⟨word, known, _⟩ := (lists pc).mp listed
  exact mem_words_of_known known

theorem Lists.to_list_eq {left right : Analysis} {condition : Effects → Bool}
    {leftAddresses rightAddresses : Std.TreeSet Word}
    (leftLists : left.Lists leftAddresses condition) (rightLists : right.Lists rightAddresses condition)
    (same : ∀ pc : Word, left.words[pc]? = right.words[pc]?) :
    leftAddresses.toList = rightAddresses.toList := by
  apply Std.TreeSet.equiv_iff_toList_eq.mp
  apply Std.TreeSet.Equiv.of_forall_mem_iff
  intro pc
  rw [leftLists pc, rightLists pc, same pc]

theorem Faithful.same_findings {image : Image} {left right : Analysis}
    (leftFaithful : left.Faithful image) (rightFaithful : right.Faithful image)
    (known : ∀ pc, pc ∈ left.words ↔ pc ∈ right.words) : left.SameFindings right := by
  have same : ∀ pc : Word, left.words[pc]? = right.words[pc]? := by
    intro pc
    by_cases member : pc ∈ left.words
    · obtain ⟨word, found⟩ := exists_word_of_mem member
      obtain ⟨other, foundOther⟩ := exists_word_of_mem ((known pc).mp member)
      have read := leftFaithful.words pc word found
      rw [rightFaithful.words pc other foundOther] at read
      rw [found, foundOther, read]
    · rw [Std.TreeMap.getElem?_eq_none member,
        Std.TreeMap.getElem?_eq_none (fun present => member ((known pc).mpr present))]
  have instructions : left.instructions = right.instructions :=
    Std.TreeMap.equiv_iff_toList_eq.mp (Std.TreeMap.Equiv.of_forall_constGet?_eq same)
  refine ⟨instructions, ?_, ?_, ?_, ?_⟩
  · refine leftFaithful.edges.trans ?_
    rw [instructions]
    exact rightFaithful.edges.symm
  · exact leftFaithful.halts.to_list_eq rightFaithful.halts same
  · exact leftFaithful.indirect.to_list_eq rightFaithful.indirect same
  · exact leftFaithful.memoryAccesses.to_list_eq rightFaithful.memoryAccesses same

end Analysis

theorem Reachable.of_subset {image : Image} {entries others : List Word} {pc : Word}
    (subset : entries ⊆ others) (reachable : Reachable image entries pc) :
    Reachable image others pc := by
  induction reachable with
  | entry listed readable => exact .entry (subset listed) readable
  | follow _ readable leaves present hypothesis => exact .follow hypothesis readable leaves present

theorem Reachable.mem_of_closed {image : Image} {entries addresses : List Word}
    (start : entries ⊆ addresses)
    (closed : ∀ edge ∈ addresses.flatMap fun pc =>
      (image.word? pc).toList.flatMap (Edge.successors pc), edge.target ∈ addresses)
    {pc : Word} (reachable : Reachable image entries pc) : pc ∈ addresses := by
  induction reachable with
  | entry listed _ => exact start listed
  | follow _ readable leaves _ hypothesis =>
    refine closed _ (List.mem_flatMap.mpr ⟨_, hypothesis, ?_⟩)
    rw [readable]
    simpa using leaves

namespace Analysis

/-- An analysis comes to an end and finds exactly what can be reached, or as much of it as its limit
allows. It records each successor of each instruction once, and lists the instructions by their effects.
What it finds depends neither on the limit, if that allows all of it, nor on the order and repetition of
entries. -/
theorem of_entries_exact (image : Image) (entries : List Word) (limit : Nat) :
    let analysis := ofEntries image entries limit
    let reachable := {pc | Reachable image entries pc}
    (∃ count last, Search.Rounds image limit count (.start image entries) last ∧
      last.round image limit = .finished analysis ∧
      count ≤ entries.length + 2 * analysis.words.size) ∧
    (reachable.ncard ≤ limit → ∀ pc, pc ∈ analysis.words ↔ pc ∈ reachable) ∧
    (limit < reachable.ncard → analysis.words.size = limit ∧
      ∀ pc ∈ analysis.words, pc ∈ reachable) ∧
    (∀ pc ∈ analysis.words, Linked entries analysis.edges pc) ∧
    (∀ pc word, analysis.words[pc]? = some word → image.word? pc = some word) ∧
    analysis.edges.toList.Perm
      (analysis.words.toList.flatMap fun (pc, word) => Edge.successors pc word) ∧
    analysis.edges.toList.Nodup ∧
    (∀ pc word, analysis.words[pc]? = some word →
      let effects := (InstructionSet.lookup word).effects
      (pc ∈ analysis.halts ↔ effects.has .halt = true) ∧
      (pc ∈ analysis.indirect ↔ effects.has .indirect = true ∧ effects.has .halt = false) ∧
      (pc ∈ analysis.memoryAccesses ↔ effects.has .load = true ∨ effects.has .store = true)) ∧
    (∀ pc, pc ∈ analysis.halts ∨ pc ∈ analysis.indirect ∨ pc ∈ analysis.memoryAccesses →
      pc ∈ analysis.words) ∧
    (reachable.ncard ≤ limit → ∀ (others : List Word) (bound : Nat),
      (∀ pc, pc ∈ others ↔ pc ∈ entries) → reachable.ncard ≤ bound →
      (ofEntries image others bound).SameFindings analysis) := by
  intro analysis reachable
  have faithful : analysis.Faithful image := faithful_of_entries image entries limit
  refine ⟨?_, known_iff_reachable image entries limit, ?_,
    fun pc => linked_of_entries image entries limit, faithful.words, ?_, faithful.nodup_edges,
    ?_, ?_, ?_⟩
  · obtain ⟨count, last, rounds, finished⟩ := Search.explore_rounds image limit (.start image entries)
    refine ⟨count, last, rounds, finished, ?_⟩
    have found : last.analysis = analysis := (Search.round_finished finished).1.symm
    have bounded := rounds.count_le
    have waiting : (Search.start image entries).queue.length ≤ entries.length :=
      List.length_filter_le ..
    rw [← found]
    omega
  · intro limited
    exact ⟨size_of_limited image entries limit limited,
      fun pc => reachable_of_known image entries limit⟩
  · simp only [← Edge.leaving_eq_successors]
    exact faithful.edges
  · intro pc word known effects
    have halts := faithful.halts.mem_iff_of_known known
    have indirect := faithful.indirect.mem_iff_of_known known
    have memoryAccesses := faithful.memoryAccesses.mem_iff_of_known known
    rw [Bool.and_eq_true, Bool.not_eq_true'] at indirect
    rw [Bool.or_eq_true] at memoryAccesses
    exact ⟨halts, indirect, memoryAccesses⟩
  · rintro pc (listed | listed | listed)
    · exact faithful.halts.mem_words listed
    · exact faithful.indirect.mem_words listed
    · exact faithful.memoryAccesses.mem_words listed
  · intro fits others bound same roomy
    have reach : ∀ pc, Reachable image others pc ↔ Reachable image entries pc := fun pc =>
      ⟨.of_subset fun pc => (same pc).mp, .of_subset fun pc => (same pc).mpr⟩
    apply (faithful_of_entries image others bound).same_findings faithful
    intro pc
    rw [known_iff_reachable image entries limit fits, known_iff_reachable image others bound, reach]
    simpa only [reach] using roomy

/-- A call, a branch, a jump to a register that keeps a return address, and a stop: the analysis of these
four instructions finds five edges. -/
theorem calling_program_exact :
    let image : Image := .raw 0
      ⟨#[0, 8, 0, 0x54, 0, 8, 0, 0x58, 0x21, 0, 0, 0x4C, 0, 0, 0x2A, 0]⟩
    let analysis := ofEntries image [0] 4
    {pc | Reachable image [0] pc}.ncard ≤ 4 ∧
    (∀ pc, Reachable image [0] pc ↔ pc ∈ ([0, 4, 8, 12] : List Word)) ∧
    analysis.edges.toList.Perm
      [⟨0, 8, .call⟩, ⟨0, 4, .fallthrough⟩, ⟨4, 12, .branch⟩, ⟨4, 8, .fallthrough⟩,
        ⟨8, 12, .fallthrough⟩] ∧
    12 ∈ analysis.halts ∧ 8 ∈ analysis.indirect := by
  intro image analysis
  have closed : ∀ edge ∈ ([0, 4, 8, 12] : List Word).flatMap fun pc =>
      (image.word? pc).toList.flatMap (Edge.successors pc),
        edge.target ∈ ([0, 4, 8, 12] : List Word) := by decide +kernel
  have within : {pc | Reachable image [0] pc} ⊆ (([0, 4, 8, 12] : List Word).toFinset : Set Word) :=
    fun pc reachable => by simpa using Reachable.mem_of_closed (by simp) closed reachable
  have fits : {pc | Reachable image [0] pc}.ncard ≤ 4 := by
    refine (Set.ncard_le_ncard within).trans ?_
    rw [Set.ncard_coe_finset]
    exact List.toFinset_card_le _
  have words : analysis.words.toList =
      [(0, 0x54000800), (4, 0x58000800), (8, 0x4C000021), (12, 0x002A0000)] := by decide +kernel
  have keys : analysis.words.keys = [0, 4, 8, 12] := by
    rw [← Std.TreeMap.map_fst_toList_eq_keys, words]
    rfl
  have recorded {pc word : Word} (listed : (pc, word) ∈ analysis.words.toList) :
      analysis.words[pc]? = some word := mem_instructions_iff.mp listed
  obtain ⟨_, known_iff, _, _, _, edges, _, lists, _⟩ := of_entries_exact image [0] 4
  have stop := lists 12 0x002A0000 (recorded (by simp [words]))
  have jump := lists 8 0x4C000021 (recorded (by simp [words]))
  refine ⟨fits, fun pc => ?_, ?_, stop.1.mpr (by decide), jump.2.1.mpr (by decide)⟩
  · rw [← keys, Std.TreeMap.mem_keys]
    exact (known_iff fits pc).symm
  · have rows : (analysis.words.toList.flatMap fun (pc, word) => Edge.successors pc word) =
        [⟨0, 8, .call⟩, ⟨0, 4, .fallthrough⟩, ⟨4, 12, .branch⟩, ⟨4, 8, .fallthrough⟩,
          ⟨8, 12, .fallthrough⟩] := by
      rw [words]
      decide
    exact rows ▸ edges

end Analysis
end LoongArch
