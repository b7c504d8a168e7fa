import LoongArch.Proofs.Flow.Bounds

/-!
# Cutting a segment in two

An analysis asks an image only which addresses it contains and which words are there, and both answers
follow from the bytes that it serves. So images that serve the same bytes are analysed alike, and how
these bytes are spread over segments does not show.
-/

set_option autoImplicit false

namespace LoongArch

section Alike

variable {left right : Image} (same : ∀ address, left.byte? address = right.byte? address)
include same

theorem Image.contains_congr (address : Word) : left.contains address = right.contains address := by
  rw [← byte_is_some, ← byte_is_some, same]

theorem Image.word_congr (address : Word) : left.word? address = right.word? address := by
  simp only [word?, same]

namespace Search

theorem visit_congr (search : Search) (pc word : Word) :
    search.visit left pc word = search.visit right pc word := by
  have waiting : ∀ analysis : Analysis, analysis.isOpen left = analysis.isOpen right := by
    intro analysis
    funext address
    rw [Analysis.isOpen, Analysis.isOpen, Image.contains_congr same]
  simp only [visit_eq, waiting]

theorem round_congr (limit : Nat) (search : Search) :
    search.round left limit = search.round right limit := by
  simp only [round, Image.word_congr same, visit_congr same]

theorem explore_congr (limit : Nat) (search : Search) :
    search.explore left limit = search.explore right limit := by
  fun_induction explore left limit search with
  | case1 search analysis finished =>
    rw [round_congr same] at finished
    rw [explore]
    split
    next found ended =>
      rw [finished] at ended
      cases ended
      rfl
    next later continued =>
      rw [finished] at continued
      cases continued
  | case2 search later continued hypothesis =>
    rw [round_congr same] at continued
    rw [hypothesis, explore.eq_def right limit search]
    split
    next found ended =>
      rw [continued] at ended
      cases ended
    next other progress =>
      rw [continued] at progress
      cases progress
      rfl

end Search

theorem Analysis.of_entries_congr (entries : List Word) (limit : Nat) :
    ofEntries left entries limit = ofEntries right entries limit := by
  have contains : left.contains = right.contains := funext (Image.contains_congr same)
  rw [ofEntries, ofEntries, Search.explore_congr same, Search.start, Search.start, contains]

end Alike

namespace Segment

/-- Two segments share the bytes of one: those before a place are at its base, the others behind them. -/
structure CutAt (segment : Segment) (place : Nat) (front back : Segment) : Prop where
  frontBase : front.base = segment.base
  frontBytes : front.bytes = segment.bytes.extract 0 place
  backBase : back.base = segment.base + .ofNat place
  backBytes : back.bytes = segment.bytes.extract place segment.bytes.size

theorem get_extract {bytes : ByteArray} {start stop index : Nat} (before : start + index < stop)
    (inside : start + index < bytes.size) :
    (bytes.extract start stop)[index]? = bytes[start + index]? := by
  have bound : index < (bytes.extract start stop).size := by
    rw [ByteArray.size_extract]
    omega
  rw [getElem?_pos _ index bound, getElem?_pos bytes (start + index) inside,
    ByteArray.getElem_extract]

namespace CutAt

variable {segment front back : Segment} {place : Nat} (cut : segment.CutAt place front back)
  (below : segment.base.toNat + segment.bytes.size < 2 ^ 32)
include cut

theorem size_front : front.bytes.size = min place segment.bytes.size := by
  rw [cut.frontBytes, ByteArray.size_extract, Nat.sub_zero]

theorem size_back : back.bytes.size = segment.bytes.size - place := by
  rw [cut.backBytes, ByteArray.size_extract, Nat.min_self]

include below

theorem front_contains_iff (address : Word) :
    front.contains address = true ↔
      segment.base.toNat ≤ address.toNat ∧
        address.toNat < segment.base.toNat + min place segment.bytes.size := by
  rw [contains_iff] <;> rw [cut.frontBase, cut.size_front]
  omega

theorem back_contains_iff (address : Word) :
    back.contains address = true ↔
      segment.base.toNat + place ≤ address.toNat ∧
        address.toNat < segment.base.toNat + segment.bytes.size := by
  by_cases within : place ≤ segment.bytes.size
  · have base : back.base.toNat = segment.base.toNat + place := by
      rw [cut.backBase, Word.to_nat_add_of_lt (by omega)]
    rw [contains_iff] <;> rw [base, cut.size_back]
    · omega
    · omega
  · -- Nothing is left behind the place, and a segment without bytes contains nothing.
    constructor
    · intro inside
      have bound := (offset_lt_of_contains inside).2
      rw [cut.size_back] at bound
      omega
    · omega

theorem front_byte {address : Word} (inside : front.contains address = true) :
    front.byte? address = segment.byte? address := by
  have range := (cut.front_contains_iff below address).mp inside
  have lower : front.base.toNat ≤ address.toNat := cut.frontBase ▸ range.1
  rw [byte_eq lower, byte_eq range.1, cut.frontBase, cut.frontBytes, get_extract, Nat.zero_add]
  · omega
  · omega

theorem back_byte {address : Word} (inside : back.contains address = true) :
    back.byte? address = segment.byte? address := by
  have range := (cut.back_contains_iff below address).mp inside
  have base : back.base.toNat = segment.base.toNat + place := by
    rw [cut.backBase, Word.to_nat_add_of_lt (by omega)]
  have distance : place + (address.toNat - back.base.toNat) =
      address.toNat - segment.base.toNat := by omega
  rw [byte_eq (by omega : back.base.toNat ≤ _), byte_eq (by omega : segment.base.toNat ≤ _),
    cut.backBytes, get_extract, distance]
  · omega
  · omega

theorem contains_iff (address : Word) :
    segment.contains address = true ↔ front.contains address = true ∨ back.contains address = true := by
  rw [Segment.contains_iff below, cut.front_contains_iff below, cut.back_contains_iff below]
  omega

end CutAt
end Segment

namespace Image

variable {before after : List Segment} {segment front back : Segment} {place : Nat}

/-- An image serves the same bytes after a cut. Segments in front of the parts or behind them may
overlap these: they come first or last as before. -/
theorem byte_of_cut (below : segment.base.toNat + segment.bytes.size < 2 ^ 32)
    (cut : segment.CutAt place front back) (address : Word) :
    (⟨before ++ front :: back :: after⟩ : Image).byte? address =
      (⟨before ++ segment :: after⟩ : Image).byte? address := by
  have parts := cut.contains_iff below address
  simp only [byte?, List.find?_append, List.find?_cons]
  cases before.find? (·.contains address) with
  | some earlier => rfl
  | none =>
    simp only [Option.none_or]
    cases inFront : front.contains address with
    | true =>
      rw [parts.mpr (.inl inFront)]
      exact cut.front_byte below inFront
    | false =>
      cases inBack : back.contains address with
      | true =>
        rw [parts.mpr (.inr inBack)]
        exact cut.back_byte below inBack
      | false =>
        have outside : segment.contains address = false := by
          rw [← Bool.not_eq_true, parts, inFront, inBack]
          simp
        rw [outside]

/-- Cutting a segment in two, wherever in the image it stands, changes no answer of the image, and hence
neither an analysis nor its blocks. -/
theorem unchanged_by_cut (before after : List Segment)
    (below : segment.base.toNat + segment.bytes.size < 2 ^ 32)
    (cut : segment.CutAt place front back) :
    let whole : Image := ⟨before ++ segment :: after⟩
    let parts : Image := ⟨before ++ front :: back :: after⟩
    (∀ address, parts.byte? address = whole.byte? address ∧
      parts.word? address = whole.word? address ∧
      parts.contains address = whole.contains address) ∧
    ∀ entries limit,
      Analysis.ofEntries parts entries limit = Analysis.ofEntries whole entries limit ∧
      ∀ seeds, (Analysis.ofEntries parts entries limit).blocks seeds =
        (Analysis.ofEntries whole entries limit).blocks seeds := by
  intro whole parts
  have same : ∀ address, parts.byte? address = whole.byte? address := byte_of_cut below cut
  refine ⟨fun address => ⟨same address, word_congr same address, contains_congr same address⟩, ?_⟩
  intro entries limit
  have analyses := Analysis.of_entries_congr same entries limit
  exact ⟨analyses, fun seeds => by rw [analyses]⟩

/-- Six bytes, of which another segment hides the third, are cut behind it: the word at their start is
made of three segments then. -/
theorem hidden_byte_unchanged_by_cut :
    let cover : Segment := .raw 0 6 ⟨#[0x80]⟩
    let segment : Segment := .raw 1 4 ⟨#[0, 0, 1, 2, 0, 0]⟩
    let front : Segment := .raw 1 4 ⟨#[0, 0, 1]⟩
    let back : Segment := .raw 2 7 ⟨#[2, 0, 0]⟩
    segment.base.toNat + segment.bytes.size < 2 ^ 32 ∧ segment.CutAt 3 front back ∧
    (⟨[cover] ++ segment :: []⟩ : Image).word? 4 = some 0x02800000 ∧
    (⟨[cover] ++ front :: back :: []⟩ : Image).word? 4 =
      (⟨[cover] ++ segment :: []⟩ : Image).word? 4 ∧
    Analysis.ofEntries ⟨[cover] ++ front :: back :: []⟩ [4] 9 =
      Analysis.ofEntries ⟨[cover] ++ segment :: []⟩ [4] 9 := by
  intro cover segment front back
  have below : segment.base.toNat + segment.bytes.size < 2 ^ 32 := by decide
  have cut : segment.CutAt 3 front back := ⟨rfl, by decide, rfl, by decide⟩
  have word : (⟨[cover] ++ segment :: []⟩ : Image).word? 4 = some 0x02800000 := by decide
  obtain ⟨answers, analyses⟩ := unchanged_by_cut [cover] [] below cut
  exact ⟨below, cut, word, (answers 4).2.1, (analyses [4] 9).1⟩

end Image
end LoongArch
