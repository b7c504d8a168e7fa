import LoongArch.Proofs.Flow.Reachability

/-!
# The limit only truncates

Under a larger limit a search passes through the same rounds, and possibly through more of them behind
those. A round forgets nothing and appends its edges, so what an analysis has found under a smaller limit
is where the one under a larger limit begins.
-/

set_option autoImplicit false

namespace LoongArch

namespace Analysis

/-- What one analysis has found is where the findings of another begin. -/
structure Begins (shorter longer : Analysis) : Prop where
  words : ∀ pc word : Word, shorter.words[pc]? = some word → longer.words[pc]? = some word
  edges : shorter.edges.toList <+: longer.edges.toList

theorem Begins.refl (analysis : Analysis) : analysis.Begins analysis where
  words _ _ known := known
  edges := List.prefix_refl _

theorem Begins.trans {first second third : Analysis} (left : first.Begins second)
    (right : second.Begins third) : first.Begins third where
  words pc word known := right.words pc word (left.words pc word known)
  edges := left.edges.trans right.edges

theorem Begins.size_le {shorter longer : Analysis} (begins : shorter.Begins longer) :
    shorter.words.size ≤ longer.words.size := by
  rw [← ncard_words, ← ncard_words]
  refine Set.ncard_le_ncard fun pc known => ?_
  obtain ⟨word, found⟩ := exists_word_of_mem known
  exact mem_words_of_known (begins.words pc word found)

theorem Lists.mono {shorter longer : Analysis} {condition : Effects → Bool}
    {shorterAddresses longerAddresses : Std.TreeSet Word}
    (shorterLists : shorter.Lists shorterAddresses condition)
    (longerLists : longer.Lists longerAddresses condition) (begins : shorter.Begins longer) :
    ∀ pc ∈ shorterAddresses, pc ∈ longerAddresses := by
  intro pc listed
  obtain ⟨word, known, belongs⟩ := (shorterLists pc).mp listed
  exact (longerLists pc).mpr ⟨word, begins.words pc word known, belongs⟩

end Analysis

namespace Search

variable {image : Image}

theorem begins_visit (search : Search) {pc : Word} (unknown : pc ∉ search.analysis.words)
    (word : Word) : search.analysis.Begins (search.visit image pc word).analysis where
  words address found known := by
    rw [visit_eq]
    exact (Analysis.words_record_eq_some_iff unknown word address found).mpr (.inr known)
  edges := by
    rw [edges_visit, Array.toList_append]
    exact List.prefix_append _ _

theorem begins_round {limit : Nat} {search later : Search}
    (continued : search.round image limit = .continued later) :
    search.analysis.Begins later.analysis := by
  obtain ⟨_, pc, rest, _, shape⟩ := round_continued continued
  rcases shape with ⟨rfl, _⟩ | ⟨word, unknown, _, rfl⟩
  · exact .refl _
  · exact begins_visit { search with queue := rest } unknown word

theorem Rounds.begins {limit count : Nat} {search last : Search}
    (rounds : Rounds image limit count search last) : search.analysis.Begins last.analysis := by
  induction rounds with
  | none => exact .refl _
  | more continued _ hypothesis => exact (begins_round continued).trans hypothesis

theorem begins_explore (limit : Nat) (search : Search) :
    search.analysis.Begins (search.explore image limit) := by
  obtain ⟨_, last, rounds, finished⟩ := explore_rounds image limit search
  rw [(round_finished finished).1]
  exact rounds.begins

theorem round_of_le {less more : Nat} (fewer : less ≤ more) {search later : Search}
    (continued : search.round image less = .continued later) :
    search.round image more = .continued later := by
  have room := (round_continued continued).1
  have roomy : search.analysis.words.size < more := Nat.lt_of_lt_of_le room fewer
  unfold round at continued ⊢
  simpa only [if_pos room, if_pos roomy] using continued

theorem Rounds.of_le {less more : Nat} (fewer : less ≤ more) {count : Nat} {search last : Search}
    (rounds : Rounds image less count search last) : Rounds image more count search last := by
  induction rounds with
  | none search => exact .none search
  | more continued _ hypothesis => exact .more (round_of_le fewer continued) hypothesis

/-- Exploring may as well begin where some of its rounds have led. -/
theorem Rounds.explore_eq {limit count : Nat} {search last : Search}
    (rounds : Rounds image limit count search last) :
    search.explore image limit = last.explore image limit := by
  induction rounds with
  | none => rfl
  | @more _ search later _ continued _ hypothesis =>
    rw [explore]
    split
    next analysis finished =>
      rw [continued] at finished
      cases finished
    next other progress =>
      rw [continued] at progress
      cases progress
      exact hypothesis

theorem explore_of_empty {search : Search} (empty : search.queue = []) (limit : Nat) :
    search.explore image limit = search.analysis := by
  obtain ⟨_, last, rounds, finished⟩ := explore_rounds image limit search
  cases rounds with
  | none => exact (round_finished finished).1
  | more continued _ =>
    obtain ⟨_, pc, rest, front, _⟩ := round_continued continued
    rw [empty] at front
    cases front

end Search

namespace Analysis

/-- A smaller limit only cuts an analysis short: what is found is found under a larger limit as well, its
edges in front of all others, and there are as many instructions as the limit allows. -/
theorem of_entries_truncated (image : Image) (entries : List Word) {less more : Nat}
    (fewer : less ≤ more) :
    let shorter := ofEntries image entries less
    let longer := ofEntries image entries more
    (∀ pc word : Word, shorter.words[pc]? = some word → longer.words[pc]? = some word) ∧
    (∀ pc ∈ shorter.halts, pc ∈ longer.halts) ∧
    (∀ pc ∈ shorter.indirect, pc ∈ longer.indirect) ∧
    (∀ pc ∈ shorter.memoryAccesses, pc ∈ longer.memoryAccesses) ∧
    shorter.edges.toList <+: longer.edges.toList ∧
    shorter.words.size = min less longer.words.size := by
  intro shorter longer
  obtain ⟨count, last, rounds, finished⟩ := Search.explore_rounds image less (.start image entries)
  obtain ⟨found, ended⟩ := Search.round_finished finished
  have same : shorter = last.analysis := found
  have onward : longer = last.explore image more := (rounds.of_le fewer).explore_eq
  have begins : shorter.Begins longer := by
    rw [same, onward]
    exact Search.begins_explore more last
  have bounded : shorter.words.size ≤ less := size_of_entries_le image entries less
  have size : shorter.words.size = min less longer.words.size := by
    rcases ended with empty | full
    · -- Nothing was left to find, so the larger limit adds nothing.
      have equal : longer = shorter := by
        rw [same, onward]
        exact Search.explore_of_empty empty more
      rw [equal]
      omega
    · have atLeast : less ≤ shorter.words.size := by
        rw [same]
        exact full
      have monotone := begins.size_le
      omega
  have shorterFaithful := faithful_of_entries image entries less
  have longerFaithful := faithful_of_entries image entries more
  exact ⟨begins.words, shorterFaithful.halts.mono longerFaithful.halts begins,
    shorterFaithful.indirect.mono longerFaithful.indirect begins,
    shorterFaithful.memoryAccesses.mono longerFaithful.memoryAccesses begins, begins.edges, size⟩

/-- Three instructions, found from an entry that is named twice and beside one that holds no complete
word: under a limit of two the last one is missing. -/
theorem of_entries_truncated_at_two :
    let image := Image.raw 0 ⟨#[0, 0, 0x80, 2, 0, 0, 0x80, 0x29, 0, 0, 0x2A, 0]⟩
    let shorter := ofEntries image [10, 0, 0] 2
    let longer := ofEntries image [10, 0, 0] 9
    2 ≤ 9 ∧ shorter.words.keys = [0, 4] ∧ longer.words.keys = [0, 4, 8] ∧
    (∀ pc word : Word, shorter.words[pc]? = some word → longer.words[pc]? = some word) ∧
    (∀ pc ∈ shorter.memoryAccesses, pc ∈ longer.memoryAccesses) ∧
    shorter.edges.toList <+: longer.edges.toList ∧
    shorter.words.size = min 2 longer.words.size := by
  intro image shorter longer
  obtain ⟨words, _, _, memoryAccesses, edges, size⟩ :=
    of_entries_truncated image [10, 0, 0] (by decide : 2 ≤ 9)
  have shorterKeys : shorter.words.keys = [0, 4] := by decide +kernel
  have longerKeys : longer.words.keys = [0, 4, 8] := by decide +kernel
  exact ⟨by decide, shorterKeys, longerKeys, words, memoryAccesses, edges, size⟩

end Analysis
end LoongArch
