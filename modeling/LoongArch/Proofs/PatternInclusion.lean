import LoongArch.InstructionSet
import LoongArch.Proofs.PatternText
import Mathlib.Data.List.Basic

/-!
# Inclusion of patterns

The patterns of texts are those whose bits lie within their mask. Between two of them one comparison of
masks and bits decides whether all words of the first belong to the second. Only two words are needed to
see that it must succeed: the lowest and the highest that the first pattern accepts. An entry of a table
is therefore hidden by an earlier one exactly if its pattern lies within the pattern of that entry.
-/

set_option autoImplicit false

namespace LoongArch

namespace Pattern

def Compiled (pattern : Pattern) : Prop :=
  ∃ text, ofText text = .ok pattern

def positionAt (pattern : Pattern) (index : Nat) : Char :=
  if pattern.mask.testBit index then
    if pattern.bits.testBit index then '1' else '0'
  else '?'

def text (pattern : Pattern) : String :=
  .ofList ((List.range 32).map fun place => pattern.positionAt (31 - place))

section Text

variable {pattern : Pattern} {index : Nat}

theorem is_position_position_at : IsPosition (pattern.positionAt index) := by
  unfold positionAt
  split_ifs <;> decide

theorem position_at_ne_unknown_iff :
    pattern.positionAt index ≠ '?' ↔ pattern.mask.testBit index = true := by
  unfold positionAt
  split_ifs with fixed set
  · exact iff_of_true (by decide) fixed
  · exact iff_of_true (by decide) fixed
  · exact iff_of_false (by decide) fixed

theorem position_at_eq_one_iff (formed : pattern.WellFormed) (small : index < 32) :
    pattern.positionAt index = '1' ↔ pattern.bits.testBit index = true := by
  unfold positionAt
  split_ifs with fixed set
  · exact iff_of_true rfl set
  · exact iff_of_false (by decide) set
  · have within := well_formed_iff_test_bit.mp formed index small
    exact iff_of_false (by decide) fun set => fixed (within set)

theorem written_text :
    written pattern.text.toList =
      (List.range 32).map fun place => pattern.positionAt (31 - place) := by
  rw [text, String.toList_ofList, written, List.filter_eq_self]
  intro character listed
  obtain ⟨place, _, rfl⟩ := List.mem_map.mp listed
  rw [decide_eq_true_eq]
  intro separator
  exact separator.not_is_position is_position_position_at

theorem of_text_text (formed : pattern.WellFormed) : ofText pattern.text = .ok pattern := by
  have listed : ∀ character ∈ written pattern.text.toList, IsPosition character := by
    rw [written_text]
    intro character listed
    obtain ⟨place, _, rfl⟩ := List.mem_map.mp listed
    exact is_position_position_at
  have full : (written pattern.text.toList).length = 32 := by
    rw [written_text, List.length_map, List.length_range]
  have count : (written pattern.text.toList).length % 2 ^ 32 = 32 := by omega
  refine of_text_eq_ok_iff.mpr ⟨⟨count, listed⟩, ?_⟩
  have enough : 32 ≤ (written pattern.text.toList).length := Nat.le_of_eq full.symm
  have whole := (kept_of_length_le (Nat.le_of_eq full)).trans written_text
  have records := Reading.records_after (written pattern.text.toList)
  have found {index : Nat} (small : index < 32) :
      (Reading.after (written pattern.text.toList)).mask.testBit index =
          pattern.mask.testBit index ∧
        (Reading.after (written pattern.text.toList)).bits.testBit index =
          pattern.bits.testBit index := by
    have inside : 31 - index < (kept (written pattern.text.toList)).length := by
      rw [length_kept enough]
      omega
    have same : 31 - (31 - index) = index := by omega
    obtain ⟨mask, bits⟩ := records.bits_at enough inside
    simp only [whole, List.getElem_map, List.getElem_range, same] at mask bits
    rw [mask, bits]
    exact ⟨Bool.eq_iff_iff.mpr (decide_eq_true_iff.trans position_at_ne_unknown_iff),
      Bool.eq_iff_iff.mpr (decide_eq_true_iff.trans (position_at_eq_one_iff formed small))⟩
  have mask : (Reading.after (written pattern.text.toList)).mask = pattern.mask :=
    Word.eq_iff_test_bit.mpr fun _ small => (found small).1
  have bits : (Reading.after (written pattern.text.toList)).bits = pattern.bits :=
    Word.eq_iff_test_bit.mpr fun _ small => (found small).2
  rw [Reading.pattern, mask, bits]

theorem compiled_iff : pattern.Compiled ↔ pattern.WellFormed := by
  constructor
  · rintro ⟨text, compiled⟩
    obtain ⟨⟨full, _⟩, rfl⟩ := of_text_eq_ok_iff.mp compiled
    have enough : 32 ≤ (written text.toList).length := full ▸ Nat.mod_le ..
    exact (Reading.records_after _).well_formed enough
  · exact fun formed => ⟨pattern.text, of_text_text formed⟩

end Text

section Within

variable {inner outer : Pattern}

theorem within_iff_test_bit :
    inner.within outer = true ↔ ∀ index < 32,
      (outer.mask.testBit index = true → inner.mask.testBit index = true) ∧
      (inner.bits.testBit index && outer.mask.testBit index) = outer.bits.testBit index := by
  rw [within, Bool.and_eq_true, beq_iff_eq, beq_iff_eq, Word.eq_iff_test_bit, Word.eq_iff_test_bit,
    ← forall₂_and]
  refine forall₂_congr fun index small => and_congr ?_ ?_
  · rw [Word.test_bit_and, Word.test_bit_not _ _ small, Word.test_bit_zero]
    cases outer.mask.testBit index <;> cases inner.mask.testBit index <;> decide
  · rw [Word.test_bit_and]

theorem accepts_of_within (included : inner.within outer = true) {word : Word}
    (accepted : inner.accepts word = true) : outer.accepts word = true := by
  rw [within_iff_test_bit] at included
  rw [accepts_iff_test_bit] at accepted ⊢
  intro index small
  obtain ⟨mask, bits⟩ := included index small
  rw [← bits, ← accepted index small]
  cases fixed : outer.mask.testBit index with
  | false => rw [Bool.and_false, Bool.and_false]
  | true => simp only [mask fixed, Bool.and_true]

/-- The highest word that a pattern accepts: every open bit is set. -/
def highest (pattern : Pattern) : Word :=
  pattern.bits ||| ~~~pattern.mask

section WellFormed

variable (formed : inner.WellFormed)
include formed

theorem bits_and_mask {index : Nat} (small : index < 32) :
    (inner.bits.testBit index && inner.mask.testBit index) = inner.bits.testBit index := by
  cases set : inner.bits.testBit index with
  | false => rfl
  | true => exact well_formed_iff_test_bit.mp formed index small set

theorem accepts_bits : inner.accepts inner.bits = true :=
  accepts_iff_test_bit.mpr fun _ => bits_and_mask formed

theorem accepts_highest : inner.accepts inner.highest = true := by
  rw [accepts_iff_test_bit]
  intro index small
  have kept := bits_and_mask formed small
  rw [highest, Word.test_bit_or, Word.test_bit_not _ _ small]
  cases fixed : inner.mask.testBit index with
  | false =>
    rw [fixed, Bool.and_false] at kept
    rw [Bool.and_false, kept]
  | true => rw [Bool.not_true, Bool.or_false, Bool.and_true]

/-- A bit that the outer pattern fixes has one value in the lowest and the highest word of the inner
one, so the inner one fixes it too. -/
theorem within_of_accepts
    (included : ∀ word, inner.accepts word = true → outer.accepts word = true) :
    inner.within outer = true := by
  have lowest := accepts_iff_test_bit.mp (included _ (accepts_bits formed))
  have highest := accepts_iff_test_bit.mp (included _ (accepts_highest formed))
  rw [within_iff_test_bit]
  intro index small
  refine ⟨?_, lowest index small⟩
  intro fixed
  have below := lowest index small
  have above := highest index small
  have within := well_formed_iff_test_bit.mp formed index small
  rw [fixed, Bool.and_true] at below above
  rw [Pattern.highest, Word.test_bit_or, Word.test_bit_not _ _ small, ← below] at above
  cases open_ : inner.mask.testBit index with
  | true => rfl
  | false =>
    rw [open_, Bool.not_false, Bool.or_true] at above
    exact open_ ▸ within above.symm

theorem within_iff_accepts :
    inner.within outer = true ↔
      ∀ word, inner.accepts word = true → outer.accepts word = true :=
  ⟨fun included _ => accepts_of_within included, within_of_accepts formed⟩

theorem eq_of_within (left : inner.within outer = true) (right : outer.within inner = true) :
    inner = outer := by
  rw [within_iff_test_bit] at left right
  have mask : inner.mask = outer.mask :=
    Word.eq_iff_test_bit.mpr fun index small =>
      Bool.eq_iff_iff.mpr ⟨(right index small).1, (left index small).1⟩
  have bits : inner.bits = outer.bits := by
    refine Word.eq_iff_test_bit.mpr fun index small => ?_
    rw [← (left index small).2, ← mask, bits_and_mask formed small]
  cases inner
  cases outer
  cases mask
  cases bits
  rfl

end WellFormed
end Within

end Pattern

namespace InstructionSet

/-- The entry at a place of a table is never the first that accepts a word. -/
def Unreachable (table : List Template) (place : Nat) : Prop :=
  ∀ word, table.findIdx? (·.pattern.accepts word) ≠ some place

/-- What the test for shadowed entries reports: places whose pattern lies within the pattern of an
earlier place, each with that place. -/
def shadowings (table : List Template) : List (Nat × Nat) :=
  table.zipIdx.flatMap fun (later, place) =>
    ((table.take place).zipIdx.filter fun (earlier, _) => later.pattern.within earlier.pattern).map
      fun (_, before) => (place, before)

section Shadowings

variable {table : List Template} {place before : Nat}

theorem mem_shadowings :
    (place, before) ∈ shadowings table ↔
      ∃ (inside : place < table.length) (earlier : before < place),
        table[place].pattern.within table[before].pattern = true := by
  simp only [shadowings, List.mem_flatMap, List.mem_map, List.mem_filter, Prod.exists,
    List.mem_zipIdx_iff_getElem?, List.getElem?_take]
  constructor
  · rintro ⟨later, _, at_, earlier, _, ⟨before_, included⟩, same⟩
    cases same
    obtain ⟨first, found⟩ := Option.ite_none_right_eq_some.mp before_
    obtain ⟨inside, rfl⟩ := List.getElem?_eq_some_iff.mp at_
    obtain ⟨_, rfl⟩ := List.getElem?_eq_some_iff.mp found
    exact ⟨inside, first, included⟩
  · rintro ⟨inside, first, included⟩
    refine ⟨_, place, List.getElem?_eq_getElem inside, _, before, ⟨?_, included⟩, rfl⟩
    rw [if_pos first]
    exact List.getElem?_eq_getElem (Nat.lt_trans first inside)

theorem unreachable_of_included (inside : place < table.length) (earlier : before < place)
    (included : ∀ word, table[place].pattern.accepts word = true →
      table[before].pattern.accepts word = true) : Unreachable table place := by
  intro word selected
  obtain ⟨_, accepted, first⟩ := List.findIdx?_eq_some_iff_getElem.mp selected
  exact first before earlier (included word accepted)

theorem unreachable_pair_iff {earlier later : Template} :
    Unreachable [earlier, later] 1 ↔
      ∀ word, later.pattern.accepts word = true → earlier.pattern.accepts word = true := by
  constructor
  · intro unreachable word accepted
    by_contra refused
    refine unreachable word (List.findIdx?_eq_some_iff_getElem.mpr ⟨Nat.one_lt_two, accepted, ?_⟩)
    intro place first
    obtain rfl : place = 0 := Nat.lt_one_iff.mp first
    exact refused
  · have inside : 1 < [earlier, later].length := Nat.one_lt_two
    exact unreachable_of_included inside Nat.zero_lt_one

end Shadowings

theorem compiled_of_mem_templates :
    ∀ template ∈ templates, template.pattern.Compiled := by
  have formed : ∀ template ∈ templates, template.pattern.WellFormed := by decide
  exact fun template listed => Pattern.compiled_iff.mpr (formed template listed)

/-- Between patterns of texts the comparison of masks and bits decides inclusion, so it is an order. In a
table of such patterns, as the instruction set is one, the test for shadowed entries reports a place and
an earlier one exactly if the earlier one alone makes the place unreachable. -/
theorem within_decides_inclusion :
    (∀ inner outer : Pattern, inner.Compiled → outer.Compiled →
      (inner.within outer = true ↔
        ∀ word, inner.accepts word = true → outer.accepts word = true)) ∧
    (∀ pattern : Pattern, pattern.Compiled → pattern.within pattern = true) ∧
    (∀ first second third : Pattern, first.Compiled → second.Compiled → third.Compiled →
      first.within second = true → second.within third = true → first.within third = true) ∧
    (∀ first second : Pattern, first.Compiled → second.Compiled →
      first.within second = true → second.within first = true → first = second) ∧
    (∀ template ∈ templates, template.pattern.Compiled) ∧
    ∀ table : List Template, (∀ template ∈ table, template.pattern.Compiled) →
      ∀ place before, (place, before) ∈ shadowings table ↔
        ∃ (inside : place < table.length) (earlier : before < place),
          Unreachable [table[before], table[place]] 1 ∧ Unreachable table place := by
  refine ⟨?_, ?_, ?_, ?_, compiled_of_mem_templates, ?_⟩
  · intro inner outer compiled _
    exact Pattern.within_iff_accepts (Pattern.compiled_iff.mp compiled)
  · intro pattern compiled
    exact Pattern.within_of_accepts (Pattern.compiled_iff.mp compiled) fun _ => id
  · intro first second third compiled _ _ left right
    apply Pattern.within_of_accepts (Pattern.compiled_iff.mp compiled)
    exact fun word accepted => Pattern.accepts_of_within right (Pattern.accepts_of_within left accepted)
  · intro first second compiled _ left right
    exact Pattern.eq_of_within (Pattern.compiled_iff.mp compiled) left right
  · intro table compiled place before
    rw [mem_shadowings]
    refine exists₂_congr fun inside earlier => ?_
    rw [Pattern.within_iff_accepts (Pattern.compiled_iff.mp (compiled _ (List.getElem_mem inside))),
      unreachable_pair_iff]
    exact ⟨fun included => ⟨included, unreachable_of_included inside earlier included⟩, And.left⟩

/-- Additions lie within the pattern of their first 14 bits, which accepts other words as well. -/
theorem addition_within_leading :
    let inner : Pattern := ⟨0xFFFF8000, 0x00100000⟩
    let outer : Pattern := ⟨0xFFFC0000, 0x00100000⟩
    inner.Compiled ∧ outer.Compiled ∧
    (∀ word, inner.accepts word = true → outer.accepts word = true) ∧
    ¬∀ word, outer.accepts word = true → inner.accepts word = true := by
  intro inner outer
  have first : inner.Compiled := ⟨"0000000000 0100000 ????? ????? ?????", rfl⟩
  have second : outer.Compiled := ⟨"0000_0000_0001_00?? ????_????_????_????", rfl⟩
  obtain ⟨decides, _⟩ := within_decides_inclusion
  refine ⟨first, second, (decides inner outer first second).mp (by decide), ?_⟩
  rw [← decides outer inner second first]
  decide

end InstructionSet
end LoongArch
