import LoongArch.Pattern
import Mathlib.Algebra.Order.Ring.Int

/-!
# Patterns and their texts

A text is read byte by byte, and every position comes in from below. What has been read is described by
the positions so far: the lowest bits of the mask and of the fixed bits belong to the last position, the
next ones to the position before it, and so on, however long the text is. With exactly 32 positions none
has been moved out, and the pattern accepts the words that the text describes position by position. The
number of positions is counted in 32 bits, so a text that is longer by a multiple of `2 ^ 32` passes for
one of that length, and its last 32 positions are what is left of it.
-/

set_option autoImplicit false

namespace LoongArch

namespace Word

def testBit (word : Word) (index : Nat) : Bool :=
  word.toNat.testBit index

section TestBit

variable (first second word : Word) (index : Nat)

@[simp] theorem test_bit_zero : (0 : Word).testBit index = false :=
  Nat.zero_testBit index

@[simp] theorem test_bit_and :
    (first &&& second).testBit index = (first.testBit index && second.testBit index) := by
  rw [testBit, UInt32.toNat_and, Nat.testBit_and]
  rfl

@[simp] theorem test_bit_or :
    (first ||| second).testBit index = (first.testBit index || second.testBit index) := by
  rw [testBit, UInt32.toNat_or, Nat.testBit_or]
  rfl

theorem test_bit_not (small : index < 32) : (~~~word).testBit index = !word.testBit index := by
  change (~~~word.toBitVec).getLsbD index = _
  rw [BitVec.getLsbD_not, decide_eq_true small, Bool.true_and]
  rfl

theorem test_bit_push_zero (lowest : Bool) :
    (word <<< 1 ||| ofBool lowest).testBit 0 = lowest := by
  have moved : (word <<< 1).testBit 0 = false := by
    rw [testBit, UInt32.toNat_shiftLeft, Nat.testBit_mod_two_pow, Nat.testBit_shiftLeft]
    rfl
  rw [test_bit_or, moved, Bool.false_or]
  cases lowest <;> rfl

theorem test_bit_push_succ (lowest : Bool) (small : index + 1 < 32) :
    (word <<< 1 ||| ofBool lowest).testBit (index + 1) = word.testBit index := by
  have moved : (word <<< 1).testBit (index + 1) = word.testBit index := by
    rw [testBit, UInt32.toNat_shiftLeft, Nat.testBit_mod_two_pow, decide_eq_true small,
      Bool.true_and, Nat.testBit_shiftLeft]
    simp [testBit]
  have above : (ofBool lowest).testBit (index + 1) = false := by
    cases lowest <;> simp [ofBool, testBit, Nat.testBit_add_one]
  rw [test_bit_or, moved, above, Bool.or_false]

end TestBit

theorem eq_iff_test_bit {first second : Word} :
    first = second ↔ ∀ index < 32, first.testBit index = second.testBit index := by
  constructor
  · rintro rfl index _
    rfl
  · intro same
    exact UInt32.toBitVec_inj.mp (BitVec.eq_of_getLsbD_eq same)

end Word

namespace Pattern

def IsPosition (character : Char) : Prop :=
  character = '0' ∨ character = '1' ∨ character = '?'
deriving Decidable

def IsSeparator (character : Char) : Prop :=
  character = ' ' ∨ character = '_'
deriving Decidable

theorem IsSeparator.not_is_position {character : Char} (separator : IsSeparator character) :
    ¬IsPosition character := by
  rcases separator with rfl | rfl <;> decide

/-- What is left of a text when its separators are taken out. -/
def written (characters : List Char) : List Char :=
  characters.filter (¬IsSeparator ·)

/-- The positions that a reading still knows at the end, the last 32. -/
def kept (positions : List Char) : List Char :=
  positions.drop (positions.length - 32)

theorem kept_of_length_le {positions : List Char} (short : positions.length ≤ 32) :
    kept positions = positions := by
  rw [kept, Nat.sub_eq_zero_of_le short, List.drop_zero]

theorem length_kept {positions : List Char} (enough : 32 ≤ positions.length) :
    (kept positions).length = 32 := by
  rw [kept, List.length_drop]
  omega

/-- The positions describe the word bit by bit, from its highest bit on: each is open or is the bit at
its place. -/
def Describes (positions : List Char) (word : Word) : Prop :=
  ∀ (place : Nat) (inside : place < positions.length),
    positions[place] = '?' ∨ positions[place] = if word.testBit (31 - place) then '1' else '0'

/-- The pattern's bits lie within its mask. -/
def WellFormed (pattern : Pattern) : Prop :=
  pattern.bits &&& ~~~pattern.mask = 0
deriving Decidable

/-! ## Bytes and characters -/

section Characters

variable {character : Char}

theorem encode_of_permitted (permitted : IsPosition character ∨ IsSeparator character) :
    String.utf8EncodeChar character = [character.toUInt8] ∧
      character.toUInt8.toNat = character.toNat ∧ character.toNat < 128 := by
  rcases permitted with (rfl | rfl | rfl) | rfl | rfl <;> exact ⟨rfl, rfl, by decide⟩

theorem exists_first_byte (character : Char) :
    ∃ first rest, String.utf8EncodeChar character = first :: rest ∧
      (first.toNat = character.toNat ∨ 128 ≤ first.toNat) := by
  have byte (number : Nat) : (UInt8.ofNat number).toNat = number % 2 ^ 8 := UInt8.toNat_ofNat'
  unfold String.utf8EncodeChar
  simp only
  split_ifs with one two three
  · refine ⟨_, _, rfl, .inl ?_⟩
    rw [byte]
    exact Nat.mod_eq_of_lt (by omega)
  all_goals
    refine ⟨_, _, rfl, .inr ?_⟩
    rw [byte]
    omega

namespace Reading

def push (reading : Reading) (position : Char) : Reading where
  mask := reading.mask <<< 1 ||| Word.ofBool (position ≠ '?')
  bits := reading.bits <<< 1 ||| Word.ofBool (position = '1')
  count := reading.count + 1

variable (reading : Reading)

theorem read_position (position : IsPosition character) :
    reading.read character.toUInt8 = .ok (reading.push character) := by
  rcases position with rfl | rfl | rfl
  · have zero : reading.push '0' =
        ⟨reading.mask <<< 1 ||| 1, reading.bits <<< 1, reading.count + 1⟩ := by
      simp [push, Word.ofBool]
    rw [zero]
    rfl
  · rfl
  · have unknown : reading.push '?' =
        ⟨reading.mask <<< 1, reading.bits <<< 1, reading.count + 1⟩ := by
      simp [push, Word.ofBool]
    rw [unknown]
    rfl

theorem read_separator (separator : IsSeparator character) :
    reading.read character.toUInt8 = .ok reading := by
  rcases separator with rfl | rfl <;> rfl

theorem read_stray {byte : UInt8}
    (stray : ∀ character, IsPosition character ∨ IsSeparator character →
      byte ≠ character.toUInt8) : reading.read byte = .error .unexpectedCharacter := by
  have position : ¬(byte = '0'.toUInt8 ∨ byte = '1'.toUInt8 ∨ byte = '?'.toUInt8) := by
    rintro (zero | one | unknown)
    · exact stray '0' (by decide) zero
    · exact stray '1' (by decide) one
    · exact stray '?' (by decide) unknown
  have separator : ¬(byte = ' '.toUInt8 ∨ byte = '_'.toUInt8) := by
    rintro (space | underscore)
    · exact stray ' ' (by decide) space
    · exact stray '_' (by decide) underscore
  rw [read, if_neg position, if_neg separator]

/-- The bytes of a character are read as the character: one that is neither a position nor a separator
is refused at its first byte. -/
theorem read_character (character : Char) :
    (String.utf8EncodeChar character).foldlM read reading =
      if IsPosition character then .ok (reading.push character)
      else if IsSeparator character then .ok reading
      else .error .unexpectedCharacter := by
  split_ifs with position separator
  · rw [(encode_of_permitted (.inl position)).1, List.foldlM_cons, reading.read_position position]
    rfl
  · rw [(encode_of_permitted (.inr separator)).1, List.foldlM_cons,
      reading.read_separator separator]
    rfl
  · obtain ⟨first, rest, encoded, starts⟩ := exists_first_byte character
    have refused : reading.read first = .error .unexpectedCharacter := by
      apply read_stray
      rintro other permitted rfl
      obtain ⟨_, byte, short⟩ := encode_of_permitted permitted
      rw [byte] at starts
      have same : other = character := Char.toNat_inj.mp (by omega)
      exact permitted.elim (same ▸ position) (same ▸ separator)
    rw [encoded, List.foldlM_cons, refused]
    rfl

theorem read_characters (characters : List Char) :
    (characters.flatMap String.utf8EncodeChar).foldlM read reading =
      if (written characters).all (IsPosition ·) then
        .ok ((written characters).foldl push reading)
      else .error .unexpectedCharacter := by
  unfold written
  induction characters generalizing reading with
  | nil => rfl
  | cons character characters hypothesis =>
    rw [List.flatMap_cons, List.foldlM_append, read_character]
    by_cases separator : IsSeparator character
    · rw [if_neg separator.not_is_position, if_pos separator,
        List.filter_cons_of_neg (by simpa using separator)]
      exact hypothesis reading
    · rw [List.filter_cons_of_pos (by simpa using separator), List.all_cons]
      by_cases position : IsPosition character
      · rw [if_pos position, decide_eq_true position, Bool.true_and]
        exact hypothesis (reading.push character)
      -- The stray character ends the reading, whatever follows it.
      · rw [if_neg position, if_neg separator, decide_eq_false position, Bool.false_and]
        rfl

end Reading
end Characters

/-! ## What has been read -/

namespace Reading

/-- What is kept of the positions of a text: their number, and of the last 32 which ones are fixed and
which ones are set, the last one lowest. -/
structure Records (reading : Reading) (positions : List Char) : Prop where
  count : reading.count = .ofNat positions.length
  mask : ∀ index < 32,
    reading.mask.testBit index = positions.reverse[index]?.any (· ≠ '?')
  bits : ∀ index < 32,
    reading.bits.testBit index = positions.reverse[index]?.any (· = '1')

theorem records_start : Records {} [] where
  count := rfl
  mask _ _ := Word.test_bit_zero _
  bits _ _ := Word.test_bit_zero _

variable {reading : Reading} {positions : List Char}

theorem test_bit_push {word : Word} {holds : Char → Bool}
    (kept : ∀ index < 32, word.testBit index = positions.reverse[index]?.any holds)
    (position : Char) : ∀ index < 32,
      (word <<< 1 ||| Word.ofBool (holds position)).testBit index =
        (positions ++ [position]).reverse[index]?.any holds := by
  intro index small
  rw [List.reverse_append]
  cases index with
  | zero => exact Word.test_bit_push_zero ..
  | succ index => exact (Word.test_bit_push_succ _ _ _ small).trans (kept index (by omega))

theorem Records.push (records : reading.Records positions) (position : Char) :
    (reading.push position).Records (positions ++ [position]) where
  count := by
    rw [List.length_append, Int32.ofNat_add, ← records.count]
    rfl
  mask := test_bit_push records.mask position
  bits := test_bit_push records.bits position

/-- The invariant of the loop, for a text of any length. -/
theorem Records.foldl (records : reading.Records positions) (rest : List Char) :
    (rest.foldl Reading.push reading).Records (positions ++ rest) := by
  induction rest generalizing reading positions with
  | nil => rwa [List.append_nil]
  | cons position rest hypothesis =>
    rw [List.foldl_cons, List.append_cons]
    exact hypothesis (records.push position)

def after (positions : List Char) : Reading :=
  positions.foldl push {}

def pattern (reading : Reading) : Pattern :=
  ⟨reading.mask, reading.bits⟩

theorem records_after (positions : List Char) : (after positions).Records positions :=
  records_start.foldl positions

theorem Records.count_eq_iff (records : reading.Records positions) :
    reading.count = 32 ↔ positions.length % 2 ^ 32 = 32 := by
  rw [records.count, ← Int32.toBitVec_inj, Int32.toBitVec_ofNat']
  change _ = BitVec.ofNat 32 32 ↔ _
  rw [← BitVec.toNat_inj, BitVec.toNat_ofNat]
  rfl

end Reading

/-- The positions of a text decide how reading it ends: at a stray one, with a count other than 32, or
with what has been recorded. -/
theorem of_text_eq (text : String) :
    let positions := written text.toList
    ofText text =
      if positions.all (IsPosition ·) then
        if positions.length % 2 ^ 32 = 32 then .ok (Reading.after positions).pattern
        else .error .wrongLength
      else .error .unexpectedCharacter := by
  intro positions
  have bytes : text.toUTF8.data.toList = text.toList.flatMap String.utf8EncodeChar := by
    rw [String.toUTF8_eq_toByteArray, ← String.utf8Encode_toList, List.utf8Encode,
      List.toList_data_toByteArray]
  have count : (Reading.after positions).count = 32 ↔ positions.length % 2 ^ 32 = 32 :=
    (Reading.records_after positions).count_eq_iff
  rw [ofText, bytes, Reading.read_characters]
  simp only [← count]
  split <;> rfl

theorem all_is_position_iff {positions : List Char} :
    positions.all (IsPosition ·) = true ↔ ∀ character ∈ positions, IsPosition character := by
  simp only [List.all_eq_true, decide_eq_true_eq]

section OfText

variable {text : String}

theorem of_text_eq_ok_iff {pattern : Pattern} :
    ofText text = .ok pattern ↔
      ((written text.toList).length % 2 ^ 32 = 32 ∧
        ∀ character ∈ written text.toList, IsPosition character) ∧
      (Reading.after (written text.toList)).pattern = pattern := by
  rw [of_text_eq, ← all_is_position_iff]
  split_ifs with listed full
  · rw [Except.ok.injEq]
    exact (and_iff_right ⟨full, listed⟩).symm
  · exact iff_of_false nofun fun formed => full formed.1.1
  · exact iff_of_false nofun fun formed => listed formed.1.2

end OfText

/-! ## What a pattern says of a word -/

theorem accepts_iff_test_bit {pattern : Pattern} {word : Word} :
    pattern.accepts word = true ↔ ∀ index < 32,
      (word.testBit index && pattern.mask.testBit index) = pattern.bits.testBit index := by
  rw [accepts, beq_iff_eq, Word.eq_iff_test_bit]
  simp only [Word.test_bit_and]

theorem well_formed_iff_test_bit {pattern : Pattern} :
    pattern.WellFormed ↔ ∀ index < 32,
      pattern.bits.testBit index = true → pattern.mask.testBit index = true := by
  rw [WellFormed, Word.eq_iff_test_bit]
  refine forall₂_congr fun index small => ?_
  rw [Word.test_bit_and, Word.test_bit_not _ _ small, Word.test_bit_zero]
  cases pattern.bits.testBit index <;> cases pattern.mask.testBit index <;> decide

section Recorded

variable {reading : Reading} {positions : List Char} (records : reading.Records positions)
  (enough : 32 ≤ positions.length)
include records enough

theorem Reading.Records.bits_at {place : Nat} (inside : place < (kept positions).length) :
    reading.mask.testBit (31 - place) = decide ((kept positions)[place] ≠ '?') ∧
      reading.bits.testBit (31 - place) = decide ((kept positions)[place] = '1') := by
  have length := length_kept enough
  have small : 31 - place < 32 := by omega
  have found : positions.reverse[31 - place]? = some (kept positions)[place] := by
    have same : positions.length - 1 - (31 - place) = positions.length - 32 + place := by omega
    rw [List.getElem?_reverse (by omega), same, ← List.getElem?_drop]
    exact List.getElem?_eq_getElem inside
  constructor
  · rw [records.mask _ small, found, Option.any_some]
  · rw [records.bits _ small, found, Option.any_some]

theorem Reading.Records.well_formed : reading.pattern.WellFormed := by
  have length := length_kept enough
  rw [well_formed_iff_test_bit]
  intro index small
  have inside : 31 - index < (kept positions).length := by omega
  obtain ⟨mask, bits⟩ := records.bits_at enough inside
  have same : 31 - (31 - index) = index := by omega
  rw [same] at mask bits
  simp only [Reading.pattern, mask, bits, decide_eq_true_eq]
  intro one
  rw [one]
  decide

theorem Reading.Records.accepts_iff (listed : ∀ character ∈ positions, IsPosition character)
    (word : Word) :
    reading.pattern.accepts word = true ↔ Describes (kept positions) word := by
  have agrees (bit : Bool) {position : Char} (allowed : IsPosition position) :
      (bit && decide (position ≠ '?')) = decide (position = '1') ↔
        position = '?' ∨ position = if bit then '1' else '0' := by
    rcases allowed with rfl | rfl | rfl <;> cases bit <;> decide
  have permitted {place : Nat} (inside : place < (kept positions).length) :
      IsPosition (kept positions)[place] :=
    listed _ (List.mem_of_mem_drop (List.getElem_mem inside))
  have length := length_kept enough
  rw [accepts_iff_test_bit]
  constructor
  · intro accepted place inside
    obtain ⟨mask, bits⟩ := records.bits_at enough inside
    have here := accepted (31 - place) (by omega)
    simp only [Reading.pattern, mask, bits] at here
    exact (agrees _ (permitted inside)).mp here
  · intro described index small
    have inside : 31 - index < (kept positions).length := by omega
    obtain ⟨mask, bits⟩ := records.bits_at enough inside
    have here := (agrees _ (permitted inside)).mpr (described _ inside)
    have same : 31 - (31 - index) = index := by omega
    rw [same] at mask bits here
    simp only [Reading.pattern, mask, bits]
    exact here

end Recorded

end Pattern
end LoongArch
