import LoongArch.Flow.Analysis
import Mathlib.Data.List.Perm.Basic

/-!
# What a search keeps

A search is a sequence of rounds. Every round keeps the findings in agreement with the image and with
the instructions known so far, and it loses no address: whatever an entry or an edge leads to is known,
waits, or holds no complete word.
-/

set_option autoImplicit false

namespace LoongArch

theorem Image.contains_of_word {image : Image} {address word : Word}
    (readable : image.word? address = some word) : image.contains address = true := by
  obtain ⟨contents, ⟨length, bytes⟩, _⟩ := word_eq_some_iff.mp readable
  have first : image.byte? (address + 0) = some contents[0] := bytes 0 (by omega)
  rw [UInt32.add_zero] at first
  exact List.any_eq_true.mpr (exists_segment_of_byte first)

namespace Analysis

/-- A list of addresses holds the known instructions whose effects meet a condition. -/
def Lists (analysis : Analysis) (addresses : Std.TreeSet Word) (condition : Effects → Bool) : Prop :=
  ∀ pc, pc ∈ addresses ↔
    ∃ word, analysis.words[pc]? = some word ∧ condition (InstructionSet.lookup word).effects = true

theorem Lists.mem_iff_of_known {analysis : Analysis} {addresses : Std.TreeSet Word}
    {condition : Effects → Bool} (lists : analysis.Lists addresses condition) {pc word : Word}
    (known : analysis.words[pc]? = some word) :
    pc ∈ addresses ↔ condition (InstructionSet.lookup word).effects = true := by
  rw [lists pc, known]
  constructor
  · rintro ⟨found, same, meets⟩
    cases same
    exact meets
  · exact fun meets => ⟨word, rfl, meets⟩

/-- The findings agree with the image and with each other. -/
structure Faithful (image : Image) (analysis : Analysis) : Prop where
  words : ∀ pc word, analysis.words[pc]? = some word → image.word? pc = some word
  edges : analysis.edges.toList.Perm
    (analysis.instructions.flatMap fun (pc, word) => Edge.leaving pc word)
  halts : analysis.Lists analysis.halts (·.has .halt)
  indirect : analysis.Lists analysis.indirect fun effects => effects.has .indirect && !effects.has .halt
  memoryAccesses : analysis.Lists analysis.memoryAccesses fun effects =>
    effects.has .load || effects.has .store

/-- An address to which the edges found so far lead from an entry. -/
inductive Linked (entries : List Word) (edges : Array Edge) : Word → Prop where
  | entry {pc : Word} (listed : pc ∈ entries) : Linked entries edges pc
  | edge {edge : Edge} (source : Linked entries edges edge.source) (found : edge ∈ edges) :
      Linked entries edges edge.target

theorem Linked.append {entries : List Word} {edges : Array Edge} {pc : Word}
    (linked : Linked entries edges pc) (more : Array Edge) : Linked entries (edges ++ more) pc := by
  induction linked with
  | entry listed => exact .entry listed
  | edge _ found hypothesis => exact .edge hypothesis (Array.mem_append_left more found)

theorem mem_instructions_iff {analysis : Analysis} {pc word : Word} :
    (pc, word) ∈ analysis.instructions ↔ analysis.words[pc]? = some word :=
  Std.TreeMap.mem_toList_iff_getElem?_eq_some

theorem mem_words_of_known {analysis : Analysis} {pc word : Word}
    (known : analysis.words[pc]? = some word) : pc ∈ analysis.words := by
  rw [Std.TreeMap.mem_iff_isSome_getElem?, known]
  rfl

theorem mem_words_of_mem_instructions {analysis : Analysis} {instruction : Word × Word}
    (listed : instruction ∈ analysis.instructions) : instruction.1 ∈ analysis.words :=
  mem_words_of_known (mem_instructions_iff.mp listed)

theorem instructions_record_perm {analysis : Analysis} {pc : Word} (unknown : pc ∉ analysis.words)
    (word : Word) :
    (analysis.record pc word).instructions.Perm ((pc, word) :: analysis.instructions) := by
  have inserted : (analysis.words.insert pc word).toList.Perm
      ((pc, word) :: analysis.words.toList.filter (¬pc == ·.1)) :=
    Std.TreeMap.toList_insert_perm
  have kept : analysis.words.toList.filter (¬pc == ·.1) = analysis.words.toList := by
    apply List.filter_eq_self.mpr
    rintro ⟨address, found⟩ listed
    have known : address ∈ analysis.words := mem_words_of_mem_instructions listed
    have different : pc ≠ address := fun same => unknown (same ▸ known)
    simp [different]
  rw [kept] at inserted
  exact inserted

theorem words_record_eq_some_iff {analysis : Analysis} {pc : Word} (unknown : pc ∉ analysis.words)
    (word address found : Word) :
    (analysis.record pc word).words[address]? = some found ↔
      (address = pc ∧ found = word) ∨ analysis.words[address]? = some found := by
  have absent : analysis.words[pc]? = none := Std.TreeMap.getElem?_eq_none unknown
  simp only [record, Std.TreeMap.getElem?_insert, Std.LawfulEqCmp.compare_eq_iff_eq]
  by_cases same : pc = address
  · subst same
    simp [absent, eq_comm]
  · have different : ¬address = pc := fun equal => same equal.symm
    simp [same, different]

theorem lists_record {analysis : Analysis} {pc : Word} (unknown : pc ∉ analysis.words) (word : Word)
    {addresses : Std.TreeSet Word} {condition : Effects → Bool}
    (lists : analysis.Lists addresses condition) :
    (analysis.record pc word).Lists
      (record.list pc (condition (InstructionSet.lookup word).effects) addresses) condition := by
  intro address
  have listed : address ∈ record.list pc (condition (InstructionSet.lookup word).effects) addresses ↔
      (address = pc ∧ condition (InstructionSet.lookup word).effects = true) ∨
        address ∈ addresses := by
    unfold record.list
    split
    next belongs =>
      simp [belongs, Std.TreeSet.mem_insert, Std.LawfulEqCmp.compare_eq_iff_eq, @eq_comm _ pc]
    next outside => simp [outside]
  rw [listed, lists address]
  constructor
  · rintro (⟨rfl, belongs⟩ | ⟨found, known, belongs⟩)
    · exact ⟨word, (words_record_eq_some_iff unknown word ..).mpr (.inl ⟨rfl, rfl⟩), belongs⟩
    · exact ⟨found, (words_record_eq_some_iff unknown word ..).mpr (.inr known), belongs⟩
  · rintro ⟨found, known, belongs⟩
    rcases (words_record_eq_some_iff unknown word ..).mp known with ⟨rfl, rfl⟩ | known
    · exact .inl ⟨rfl, belongs⟩
    · exact .inr ⟨found, known, belongs⟩

theorem Faithful.of_empty (image : Image) : Analysis.empty.Faithful image := by
  have unlisted : ∀ condition, Analysis.empty.Lists ∅ condition := by
    intro condition pc
    simp [empty]
  refine ⟨?_, ?_, unlisted _, unlisted _, unlisted _⟩
  · intro pc word known
    simp [empty] at known
  · simp [empty, instructions]

theorem Faithful.record {image : Image} {analysis : Analysis} (faithful : analysis.Faithful image)
    {pc word : Word} (unknown : pc ∉ analysis.words) (readable : image.word? pc = some word) :
    Faithful image
      { analysis.record pc word with
        edges := analysis.edges ++ (Edge.leaving pc word).toArray } where
  words address found known := by
    rcases (words_record_eq_some_iff unknown word ..).mp known with ⟨rfl, rfl⟩ | known
    · exact readable
    · exact faithful.words address found known
  edges := by
    have perm := (instructions_record_perm unknown word).flatMap_right fun (pc, word) =>
      Edge.leaving pc word
    rw [Array.toList_append, List.toList_toArray]
    refine List.Perm.trans ?_ perm.symm
    rw [List.flatMap_cons]
    exact (faithful.edges.append_right _).trans List.perm_append_comm
  halts := lists_record unknown word faithful.halts
  indirect := lists_record unknown word faithful.indirect
  memoryAccesses := lists_record unknown word faithful.memoryAccesses

end Analysis

namespace Search

/-- What holds of a search at every moment. -/
structure Sound (image : Image) (entries : List Word) (search : Search) : Prop where
  faithful : search.analysis.Faithful image
  linked : ∀ pc, pc ∈ search.analysis.words ∨ pc ∈ search.queue →
    Analysis.Linked entries search.analysis.edges pc
  covered : ∀ pc word, image.word? pc = some word →
    (pc ∈ entries ∨ ∃ edge ∈ search.analysis.edges, edge.target = pc) →
    pc ∈ search.analysis.words ∨ pc ∈ search.queue

theorem sound_start (image : Image) (entries : List Word) : Sound image entries (start image entries) where
  faithful := .of_empty image
  linked pc waits := by
    rcases waits with known | waits
    · simp [start, Analysis.empty] at known
    · exact .entry (List.mem_filter.mp waits).1
  covered pc word readable source := by
    rcases source with listed | ⟨edge, found, _⟩
    · exact .inr (List.mem_filter.mpr ⟨listed, Image.contains_of_word readable⟩)
    · simp [start, Analysis.empty] at found

theorem Sound.skip {image : Image} {entries : List Word} {search : Search}
    (sound : Sound image entries search) {pc : Word} {rest : List Word}
    (front : search.queue = pc :: rest)
    (settled : pc ∈ search.analysis.words ∨ image.word? pc = none) :
    Sound image entries { search with queue := rest } where
  faithful := sound.faithful
  linked address known := by
    apply sound.linked
    rw [front]
    exact known.imp_right (List.mem_cons_of_mem pc)
  covered address word readable source := by
    have before := sound.covered address word readable source
    rw [front, List.mem_cons] at before
    rcases before with known | rfl | waits
    · exact .inl known
    · rcases settled with known | unreadable
      · exact .inl known
      · rw [readable] at unreadable
        cases unreadable
    · exact .inr waits

theorem mem_words_visit {image : Image} {search : Search} {pc word address : Word} :
    address ∈ (search.visit image pc word).analysis.words ↔
      address = pc ∨ address ∈ search.analysis.words := by
  simp [visit_eq, Analysis.record, Std.TreeMap.mem_insert, Std.LawfulEqCmp.compare_eq_iff_eq,
    @eq_comm _ pc]

theorem edges_visit (image : Image) (search : Search) (pc word : Word) :
    (search.visit image pc word).analysis.edges =
      search.analysis.edges ++ (Edge.leaving pc word).toArray := by
  rw [visit_eq]

theorem mem_queue_visit {image : Image} {search : Search} {pc word address : Word} :
    address ∈ (search.visit image pc word).queue ↔
      address ∈ search.queue ∨ (∃ edge ∈ Edge.leaving pc word, edge.target = address) ∧
        image.contains address = true ∧ address ∉ (search.visit image pc word).analysis.words := by
  rw [visit_eq]
  simp [Analysis.isOpen, ← Std.TreeMap.contains_iff_mem]

theorem Sound.visit {image : Image} {entries : List Word} {search : Search}
    (sound : Sound image entries search) {pc word : Word} {rest : List Word}
    (front : search.queue = pc :: rest) (unknown : pc ∉ search.analysis.words)
    (readable : image.word? pc = some word) :
    Sound image entries (Search.visit image { search with queue := rest } pc word) where
  faithful := by
    rw [visit_eq]
    exact sound.faithful.record unknown readable
  linked address known := by
    have before : ∀ address, address ∈ search.analysis.words ∨ address ∈ pc :: rest →
        Analysis.Linked entries (search.analysis.edges ++ (Edge.leaving pc word).toArray) address :=
      fun address known => (sound.linked address (front ▸ known)).append _
    have visited := before pc (.inr List.mem_cons_self)
    rw [edges_visit]
    rw [mem_words_visit, mem_queue_visit] at known
    rcases known with (rfl | known) | waits | ⟨⟨edge, leaves, rfl⟩, _⟩
    · exact visited
    · exact before address (.inl known)
    · exact before address (.inr (List.mem_cons_of_mem pc waits))
    · refine .edge ?_ (Array.mem_append_right _ (List.mem_toArray.mpr leaves))
      rw [Edge.source_of_mem_leaving leaves]
      exact visited
  covered address found present source := by
    by_cases known : address ∈
        (Search.visit image { search with queue := rest } pc word).analysis.words
    · exact .inl known
    right
    rw [mem_queue_visit]
    -- A target of a new edge waits now; what an entry or an older edge leads to was waiting before.
    have split : (∃ edge ∈ Edge.leaving pc word, edge.target = address) ∨
        (address ∈ entries ∨ ∃ edge ∈ search.analysis.edges, edge.target = address) := by
      rw [edges_visit] at source
      rcases source with listed | ⟨edge, recorded, target⟩
      · exact .inr (.inl listed)
      · rcases Array.mem_append.mp recorded with old | leaves
        · exact .inr (.inr ⟨edge, old, target⟩)
        · exact .inl ⟨edge, List.mem_toArray.mp leaves, target⟩
    rcases split with target | old
    · exact .inr ⟨target, Image.contains_of_word present, known⟩
    · left
      have waited := sound.covered address found present old
      rw [mem_words_visit, not_or] at known
      rw [front, List.mem_cons] at waited
      exact (waited.resolve_left known.2).resolve_left known.1

theorem Sound.round {image : Image} {entries : List Word} {limit : Nat} {search later : Search}
    (sound : Sound image entries search)
    (continued : search.round image limit = .continued later) : Sound image entries later := by
  obtain ⟨_, pc, rest, front, shape⟩ := round_continued continued
  rcases shape with ⟨rfl, settled⟩ | ⟨word, unknown, readable, rfl⟩
  · exact sound.skip front settled
  · exact sound.visit front unknown readable

inductive Rounds (image : Image) (limit : Nat) : Nat → Search → Search → Prop where
  | none (search : Search) : Rounds image limit 0 search search
  | more {count : Nat} {search later last : Search}
      (continued : search.round image limit = .continued later)
      (rest : Rounds image limit count later last) : Rounds image limit (count + 1) search last

theorem Rounds.invariant {image : Image} {limit : Nat} {holds : Search → Prop}
    (kept : ∀ search later : Search, holds search → search.round image limit = .continued later →
      holds later)
    {count : Nat} {search last : Search} (rounds : Rounds image limit count search last)
    (start : holds search) : holds last := by
  induction rounds with
  | none => exact start
  | more continued _ hypothesis => exact hypothesis (kept _ _ start continued)

theorem Rounds.count_le {image : Image} {limit count : Nat} {search last : Search}
    (rounds : Rounds image limit count search last) :
    count + last.queue.length + 2 * search.analysis.words.size ≤
      search.queue.length + 2 * last.analysis.words.size := by
  induction rounds with
  | none => omega
  | more continued _ hypothesis =>
    have progress := round_progress continued
    omega

theorem explore_rounds (image : Image) (limit : Nat) (search : Search) :
    ∃ count last, Rounds image limit count search last ∧
      last.round image limit = .finished (search.explore image limit) := by
  fun_induction explore image limit search with
  | case1 search analysis finished => exact ⟨0, search, .none search, finished⟩
  | case2 search later continued hypothesis =>
    obtain ⟨count, last, rounds, finished⟩ := hypothesis
    exact ⟨count + 1, last, .more continued rounds, finished⟩

end Search

namespace Analysis

variable (image : Image) (entries : List Word) (limit : Nat)

/-- An analysis is what a sound search has found that has no room left or nothing waiting. -/
theorem of_entries_search :
    ∃ last : Search, last.Sound image entries ∧ last.analysis = ofEntries image entries limit ∧
      last.analysis.words.size ≤ limit ∧
      (last.queue = [] ∨ limit ≤ last.analysis.words.size) := by
  obtain ⟨count, last, rounds, finished⟩ := Search.explore_rounds image limit (.start image entries)
  obtain ⟨found, ended⟩ := Search.round_finished finished
  have sound : last.Sound image entries :=
    rounds.invariant (fun _ _ sound => sound.round) (Search.sound_start image entries)
  have kept : ∀ search later : Search, search.analysis.words.size ≤ limit →
      search.round image limit = .continued later → later.analysis.words.size ≤ limit := by
    intro search later _ continued
    have room := (Search.round_continued continued).1
    have progress := Search.round_progress continued
    omega
  have bounded : last.analysis.words.size ≤ limit := rounds.invariant kept (Nat.zero_le limit)
  exact ⟨last, sound, found.symm, bounded, ended⟩

theorem faithful_of_entries : (ofEntries image entries limit).Faithful image := by
  obtain ⟨last, sound, found, _⟩ := of_entries_search image entries limit
  exact found ▸ sound.faithful

theorem size_of_entries_le : (ofEntries image entries limit).words.size ≤ limit := by
  obtain ⟨last, _, found, bounded, _⟩ := of_entries_search image entries limit
  exact found ▸ bounded

theorem linked_of_entries {pc : Word} (known : pc ∈ (ofEntries image entries limit).words) :
    Linked entries (ofEntries image entries limit).edges pc := by
  obtain ⟨last, sound, found, _⟩ := of_entries_search image entries limit
  rw [← found] at known ⊢
  exact sound.linked pc (.inl known)

theorem covered_of_entries (room : (ofEntries image entries limit).words.size < limit)
    {pc word : Word} (readable : image.word? pc = some word)
    (source : pc ∈ entries ∨ ∃ edge ∈ (ofEntries image entries limit).edges, edge.target = pc) :
    pc ∈ (ofEntries image entries limit).words := by
  obtain ⟨last, sound, found, _, ended⟩ := of_entries_search image entries limit
  rw [← found] at room source ⊢
  have empty : last.queue = [] := ended.resolve_right (Nat.not_le_of_lt room)
  have known := sound.covered pc word readable source
  simpa [empty] using known

end Analysis
end LoongArch
