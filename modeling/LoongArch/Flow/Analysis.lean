import LoongArch.Flow.Edge
import LoongArch.Image
import Std.Data.TreeMap
import Std.Data.TreeSet

/-!
# Analysis of the control flow

The instructions of an image that can be reached from given entries. Addresses wait in a queue; the one
in front is recorded, and the targets of its edges join the queue at the end, so instructions are found
in the order of their distance from the entries. A limit on their number may cut the search short.
-/

set_option autoImplicit false

namespace LoongArch

/-- What has been found out about the instructions that have been reached. -/
structure Analysis where
  words : Std.TreeMap Word Word
  edges : Array Edge
  halts : Std.TreeSet Word
  indirect : Std.TreeSet Word
  memoryAccesses : Std.TreeSet Word

namespace Analysis

def empty : Analysis where
  words := ∅
  edges := #[]
  halts := ∅
  indirect := ∅
  memoryAccesses := ∅

/-- Records the instruction `word` at `pc` under the headings to which its effects assign it. -/
def record (analysis : Analysis) (pc word : Word) : Analysis :=
  let effects := (InstructionSet.lookup word).effects
  { analysis with
    words := analysis.words.insert pc word
    halts := list (effects.has .halt) analysis.halts
    indirect := list (effects.has .indirect && !effects.has .halt) analysis.indirect
    memoryAccesses := list (effects.has .load || effects.has .store) analysis.memoryAccesses }
where
  list (belongs : Bool) (addresses : Std.TreeSet Word) : Std.TreeSet Word :=
    if belongs then addresses.insert pc else addresses

def addEdge (analysis : Analysis) (edge : Edge) : Analysis :=
  { analysis with edges := analysis.edges.push edge }

def isOpen (image : Image) (analysis : Analysis) (address : Word) : Bool :=
  image.contains address && !analysis.words.contains address

def instructions (analysis : Analysis) : List (Word × Word) :=
  analysis.words.toList

end Analysis

structure Search where
  analysis : Analysis
  /-- The addresses that wait, the next one in front. -/
  queue : List Word

namespace Search

inductive Progress where
  | finished (analysis : Analysis)
  | continued (search : Search)

def start (image : Image) (entries : List Word) : Search where
  analysis := .empty
  queue := entries.filter image.contains

/-- Records an edge and lets its target wait, unless that is outside the image or already reached. -/
def follow (image : Image) (search : Search) (edge : Edge) : Search :=
  let queue :=
    if search.analysis.isOpen image edge.target then search.queue ++ [edge.target]
    else search.queue
  { analysis := search.analysis.addEdge edge, queue }

def visit (image : Image) (search : Search) (pc word : Word) : Search :=
  (Edge.leaving pc word).foldl (follow image)
    { search with analysis := search.analysis.record pc word }

/-- Takes up the address in front, if there is one and fewer than `limit` instructions are known. An
address that is known already or holds no complete word is passed over. -/
def round (image : Image) (limit : Nat) (search : Search) : Progress :=
  match search.queue with
  | [] => .finished search.analysis
  | pc :: rest =>
    if search.analysis.words.size < limit then
      let remaining := { search with queue := rest }
      if search.analysis.words.contains pc then .continued remaining
      else
        match image.word? pc with
        | none => .continued remaining
        | some word => .continued (remaining.visit image pc word)
    else .finished search.analysis

theorem foldl_follow (image : Image) (edges : List Edge) (search : Search) :
    edges.foldl (follow image) search =
      { analysis := { search.analysis with edges := search.analysis.edges ++ edges.toArray }
        queue := search.queue ++
          (edges.map (·.target)).filter (search.analysis.isOpen image) } := by
  induction edges generalizing search with
  | nil => simp
  | cons edge edges hypothesis =>
    rw [List.foldl_cons, hypothesis]
    have same : (follow image search edge).analysis.isOpen image = search.analysis.isOpen image := rfl
    rw [same]
    by_cases waits : search.analysis.isOpen image edge.target
    · simp [follow, Analysis.addEdge, waits]
    · simp [follow, Analysis.addEdge, waits]

theorem visit_eq (image : Image) (search : Search) (pc word : Word) :
    search.visit image pc word =
      { analysis := { search.analysis.record pc word with
          edges := search.analysis.edges ++ (Edge.leaving pc word).toArray }
        queue := search.queue ++ ((Edge.leaving pc word).map (·.target)).filter
          ((search.analysis.record pc word).isOpen image) } :=
  foldl_follow ..

theorem round_continued {image : Image} {limit : Nat} {search later : Search}
    (continued : search.round image limit = .continued later) :
    search.analysis.words.size < limit ∧ ∃ pc rest, search.queue = pc :: rest ∧
      ((later = { search with queue := rest } ∧
          (pc ∈ search.analysis.words ∨ image.word? pc = none)) ∨
        ∃ word, pc ∉ search.analysis.words ∧ image.word? pc = some word ∧
          later = visit image { search with queue := rest } pc word) := by
  unfold round at continued
  split at continued
  · cases continued
  next pc rest front =>
    split at continued
    next room =>
      refine ⟨room, pc, rest, front, ?_⟩
      split at continued
      next known =>
        cases continued
        exact .inl ⟨rfl, .inl (Std.TreeMap.mem_iff_contains.mpr known)⟩
      next unknown =>
        split at continued
        next unreadable =>
          cases continued
          exact .inl ⟨rfl, .inr unreadable⟩
        next word readable =>
          cases continued
          exact .inr ⟨word, by simpa using unknown, readable, rfl⟩
    next => cases continued

theorem round_finished {image : Image} {limit : Nat} {search : Search} {analysis : Analysis}
    (finished : search.round image limit = .finished analysis) :
    analysis = search.analysis ∧ (search.queue = [] ∨ limit ≤ search.analysis.words.size) := by
  unfold round at finished
  split at finished
  next empty =>
    cases finished
    exact ⟨rfl, .inl empty⟩
  next pc rest front =>
    split at finished
    next room =>
      split at finished
      · cases finished
      · split at finished <;> cases finished
    next full =>
      cases finished
      exact ⟨rfl, .inr (Nat.le_of_not_lt full)⟩

theorem size_visit {image : Image} {search : Search} {pc word : Word}
    (unknown : pc ∉ search.analysis.words) :
    (search.visit image pc word).analysis.words.size = search.analysis.words.size + 1 := by
  simp [visit_eq, Analysis.record, Std.TreeMap.size_insert, unknown]

theorem length_queue_visit_le (image : Image) (search : Search) (pc word : Word) :
    (search.visit image pc word).queue.length ≤ search.queue.length + 2 := by
  rw [visit_eq, List.length_append]
  have filtered := List.length_filter_le ((search.analysis.record pc word).isOpen image)
    ((Edge.leaving pc word).map (·.target))
  have targets := Edge.length_leaving_le pc word
  rw [List.length_map] at filtered
  omega

theorem round_progress {image : Image} {limit : Nat} {search later : Search}
    (continued : search.round image limit = .continued later) :
    search.analysis.words.size ≤ later.analysis.words.size ∧
    later.analysis.words.size ≤ search.analysis.words.size + 1 ∧
    later.queue.length + 1 + 2 * search.analysis.words.size ≤
      search.queue.length + 2 * later.analysis.words.size := by
  obtain ⟨_, pc, rest, front, shape⟩ := round_continued continued
  have length : search.queue.length = rest.length + 1 := by simp [front]
  rcases shape with ⟨rfl, _⟩ | ⟨word, unknown, _, rfl⟩
  · simp only
    omega
  · let remaining : Search := { search with queue := rest }
    have size : (remaining.visit image pc word).analysis.words.size =
        search.analysis.words.size + 1 := size_visit unknown
    have waiting : (remaining.visit image pc word).queue.length ≤ rest.length + 2 :=
      length_queue_visit_le image remaining pc word
    change _ ≤ (remaining.visit image pc word).analysis.words.size ∧
      (remaining.visit image pc word).analysis.words.size ≤ _ ∧
      (remaining.visit image pc word).queue.length + 1 + _ ≤
        _ + 2 * (remaining.visit image pc word).analysis.words.size
    omega

def outstanding (limit : Nat) (search : Search) : Nat :=
  3 * (limit - search.analysis.words.size) + search.queue.length

theorem outstanding_round {image : Image} {limit : Nat} {search later : Search}
    (continued : search.round image limit = .continued later) :
    later.outstanding limit < search.outstanding limit := by
  have room := (round_continued continued).1
  have progress := round_progress continued
  unfold outstanding
  omega

def explore (image : Image) (limit : Nat) (search : Search) : Analysis :=
  match _progress : search.round image limit with
  | .finished analysis => analysis
  | .continued later => explore image limit later
termination_by search.outstanding limit
decreasing_by exact outstanding_round _progress

end Search

/-- The instructions reached from those entries that lie in the image, at most `limit` of them. -/
def Analysis.ofEntries (image : Image) (entries : List Word) (limit : Nat) : Analysis :=
  (Search.start image entries).explore image limit

end LoongArch
