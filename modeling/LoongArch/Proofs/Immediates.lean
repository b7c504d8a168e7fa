import LoongArch.Proofs.Checked.Instruction
import LoongArch.Proofs.PatternText
import Mathlib.Data.Int.ModEq

/-!
# Fields and immediates are exact

A field is the number that its bits spell. Extending its sign gives the one number of its width that is
congruent to it, at every width from one bit to a whole word, and every immediate is made in this way
from the field of its format. So an immediate is determined by the bits of its field and determines them.
-/

set_option autoImplicit false

namespace LoongArch

/-- A number is what a field of `width` bits says in two's complement: it has the range of that width
and is congruent to the field. -/
structure TwosComplement (width : Nat) (field number : Int) : Prop where
  least : -2 ^ (width - 1) ≤ number
  below : number < 2 ^ (width - 1)
  congruent : number ≡ field [ZMOD 2 ^ width]

theorem twos_complement_iff {width : Nat} (positive : 0 < width) {field number : Int} :
    TwosComplement width field number ↔ Int.bmod field (2 ^ width) = number := by
  -- The modulus is even, so the bounds of a balanced remainder are its halves.
  have whole : ((2 ^ width : Nat) : Int) = 2 * 2 ^ (width - 1) := by
    rw [← pow_succ', Nat.sub_add_cancel positive]
    push_cast
    rfl
  have congruent : number ≡ field [ZMOD 2 ^ width] ↔
      ((2 ^ width : Nat) : Int) ∣ number - field := by
    rw [Int.modEq_comm, Int.modEq_iff_dvd]
    push_cast
    rfl
  rw [Int.bmod_eq_iff (Nat.two_pow_pos width), ← congruent, whole]
  constructor
  · rintro ⟨least, below, same⟩
    exact ⟨by omega, by omega, same⟩
  · rintro ⟨least, below, same⟩
    exact ⟨by omega, by omega, same⟩

namespace Word

section SignExtend

variable {width : Word} (positive : 1 ≤ width) (small : width ≤ 32)
include positive small

theorem to_nat_sign_extend_mod (value : Word) :
    (value.signExtend width).toNat % 2 ^ width.toNat = value.toNat % 2 ^ width.toNat :=
  to_nat_mod_of_signed (UInt32.le_iff_toNat_le.mp small) (to_int_sign_extend value positive small)

theorem sign_extend_eq_iff (first second : Word) :
    first.signExtend width = second.signExtend width ↔
      first.toNat % 2 ^ width.toNat = second.toNat % 2 ^ width.toNat :=
  eq_iff_of_signed (UInt32.le_iff_toNat_le.mp small) (to_int_sign_extend first positive small)
    (to_int_sign_extend second positive small)

theorem sign_extend_sign_extend (value : Word) :
    (value.signExtend width).signExtend width = value.signExtend width :=
  (sign_extend_eq_iff positive small _ _).mpr (to_nat_sign_extend_mod positive small value)

end SignExtend

theorem unsigned_at_eq_iff (first second : Word) (low width : Nat) :
    first.unsignedAt low width = second.unsignedAt low width ↔
      ∀ position, low ≤ position → position < low + width →
        first.testBit position = second.testBit position := by
  have bit (word : Word) (index : Nat) : (word.unsignedAt low width).testBit index =
      (decide (index < width) && word.testBit (index + low)) := by
    rw [unsignedAt, Nat.testBit_mod_two_pow, Nat.testBit_div_two_pow, testBit]
  constructor
  · intro same position above below
    have inside : position - low < width := by omega
    have place : position - low + low = position := Nat.sub_add_cancel above
    have read (word : Word) :
        (word.unsignedAt low width).testBit (position - low) = word.testBit position := by
      rw [bit, decide_eq_true inside, place, Bool.true_and]
    rw [← read first, same, read second]
  · intro agree
    apply Nat.eq_of_testBit_eq
    intro index
    rw [bit, bit]
    by_cases inside : index < width
    · rw [agree (index + low) (Nat.le_add_left ..) (by omega)]
    · rw [decide_eq_false inside, Bool.false_and, Bool.false_and]

end Word

namespace Format

/-- The lowest bit of a word that belongs to the immediate field of a format. The bits of the field lie
together, although a long offset has its two parts exchanged. -/
def fieldStart : Format → Nat
  | reg3 | bare | si26 | hint16 => 0
  | reg2Si12 | reg2Ui12 | reg2Si16 | reg2Ui5 => 10
  | reg1Si20 => 5

theorem immediate_bits_pos {format : Format} (registers : format ≠ .reg3)
    (operands : format ≠ .bare) : 0 < format.immediateBits := by
  cases format with
  | reg3 => contradiction
  | bare => contradiction
  | _ => decide

/-- A field is a run of bits, except that the long offset has its high part below its low one. -/
theorem field_eq (format : Format) (word : Word) :
    format.field word =
      if format = .si26 then (word.bits 9 0).toNat * 2 ^ 16 + (word.bits 25 10).toNat
      else word.unsignedAt format.fieldStart format.immediateBits := by
  cases format with
  | si26 =>
    obtain ⟨high, low⟩ := to_nat_offset_parts word
    rw [if_pos rfl, high, low]
    rfl
  | reg3 | bare => exact (Nat.mod_one _).symm
  | hint16 => exact congrArg (· % 2 ^ 16) (Nat.div_one word.toNat).symm
  | _ => rfl

theorem field_lt (format : Format) (word : Word) : format.field word < 2 ^ format.immediateBits := by
  cases format <;> simp only [field, immediateBits] <;> omega

theorem exchanged_eq_iff {high low otherHigh otherLow : Nat}
    (highSmall : high < 2 ^ 10) (lowSmall : low < 2 ^ 16)
    (otherHighSmall : otherHigh < 2 ^ 10) (otherLowSmall : otherLow < 2 ^ 16) :
    high * 2 ^ 16 + low = otherHigh * 2 ^ 16 + otherLow ↔
      high + 2 ^ 10 * low = otherHigh + 2 ^ 10 * otherLow := by
  omega

theorem long_offset_eq_iff (first second : Word) :
    field si26 first = field si26 second ↔ first.unsignedAt 0 26 = second.unsignedAt 0 26 := by
  have run (word : Word) : word.unsignedAt 0 26 =
      word.toNat % 2 ^ 10 + 2 ^ 10 * (word.toNat / 2 ^ 10 % 2 ^ 16) := by
    rw [Word.unsignedAt, Nat.pow_zero, Nat.div_one, Nat.pow_add 2 10 16, Nat.mod_mul]
  have high (word : Word) : word.toNat % 2 ^ 10 < 2 ^ 10 := Nat.mod_lt _ (by decide)
  have low (word : Word) : word.toNat / 2 ^ 10 % 2 ^ 16 < 2 ^ 16 := Nat.mod_lt _ (by decide)
  rw [run, run]
  exact exchanged_eq_iff (high first) (low first) (high second) (low second)

theorem field_eq_iff (format : Format) (first second : Word) :
    format.field first = format.field second ↔
      ∀ position, format.fieldStart ≤ position →
        position < format.fieldStart + format.immediateBits →
        first.testBit position = second.testBit position := by
  rw [← Word.unsigned_at_eq_iff]
  -- The parts of a long offset fill one run of bits too, but the field is not the number of that run.
  by_cases long : format = .si26
  · subst long
    exact long_offset_eq_iff first second
  · rw [field_eq, field_eq, if_neg long, if_neg long]

theorem immediate_eq_iff (format : Format) (first second : Word) :
    format.immediate first = format.immediate second ↔ format.field first = format.field second := by
  rw [Word.eq_iff_of_signed format.immediate_bits_le (format.to_int_immediate first)
    (format.to_int_immediate second), Nat.mod_eq_of_lt (format.field_lt first),
    Nat.mod_eq_of_lt (format.field_lt second)]

end Format

structure Word.ExtendsExactly (value width : Word) : Prop where
  defined : Checked.signExtend value width = .ok (value.signExtend width)
  signed : ∀ number, (value.signExtend width).toInt32.toInt = number ↔
    TwosComplement width.toNat value.toNat number
  /-- The bits above the width do not matter, and all others do. -/
  determined : ∀ other : Word, value.signExtend width = other.signExtend width ↔
    value.toNat % 2 ^ width.toNat = other.toNat % 2 ^ width.toNat
  idempotent : (value.signExtend width).signExtend width = value.signExtend width

structure Format.ReadsExactly (format : Format) : Prop where
  defined : ∀ word, Checked.immediate format word = .ok (format.immediate word)
  field : ∀ word, format.field word =
    if format = .si26 then (word.bits 9 0).toNat * 2 ^ 16 + (word.bits 25 10).toNat
    else word.unsignedAt format.fieldStart format.immediateBits
  signed : ∀ word number, (format.immediate word).toInt32.toInt = number ↔
    TwosComplement format.immediateBits (format.field word) number
  distinct : ∀ first second, format.immediate first = format.immediate second ↔
    format.field first = format.field second
  positions : ∀ first second, format.immediate first = format.immediate second ↔
    ∀ position, format.fieldStart ≤ position → position < format.fieldStart + format.immediateBits →
      first.testBit position = second.testBit position

theorem Word.extends_exactly (value : Word) {width : Word} (positive : 1 ≤ width)
    (small : width ≤ 32) : value.ExtendsExactly width where
  defined := Checked.sign_extend_eq value positive small
  signed number := by
    have wide : 0 < width.toNat := UInt32.le_iff_toNat_le.mp positive
    rw [to_int_sign_extend value positive small, twos_complement_iff wide]
  determined := sign_extend_eq_iff positive small value
  idempotent := sign_extend_sign_extend positive small value

theorem Format.reads_exactly {format : Format} (registers : format ≠ .reg3)
    (operands : format ≠ .bare) : format.ReadsExactly where
  defined := Checked.immediate_eq format
  field := format.field_eq
  signed word number := by
    rw [format.to_int_immediate, twos_complement_iff (immediate_bits_pos registers operands)]
  distinct := format.immediate_eq_iff
  positions first second := by
    rw [format.immediate_eq_iff, format.field_eq_iff]

/-- Fields are cut out, extended and read as immediates without loss, whatever the word. -/
theorem Word.fields_and_immediates_exact :
    (∀ word high low : Word, low ≤ high → high ≤ 31 →
      Checked.bits word high low = .ok (word.bits high low) ∧
      (word.bits high low).toNat =
        word.toNat / 2 ^ low.toNat % 2 ^ (high.toNat - low.toNat + 1)) ∧
    (∀ value width : Word, 1 ≤ width → width ≤ 32 → value.ExtendsExactly width) ∧
    ∀ format : Format, format ≠ .reg3 → format ≠ .bare → format.ReadsExactly :=
  ⟨fun word _ _ ordered small =>
      ⟨Checked.bits_eq ordered small word, to_nat_bits word ordered small⟩,
    fun value _ positive small => value.extends_exactly positive small,
    fun _ registers operands => Format.reads_exactly registers operands⟩

/-- A field as wide as its word, the sign of a single bit and that of a whole word, and the offset of a
call two instructions back, which the bits that make it a call do not enter. -/
theorem Word.whole_word_and_backward_call_exact :
    ((0 : Word) ≤ 31 ∧ (31 : Word) ≤ 31 ∧ Checked.bits 0xDEADBEEF 31 0 = .ok 0xDEADBEEF ∧
      (bits 0xDEADBEEF 31 0).toNat = 0xDEADBEEF) ∧
    ((1 : Word) ≤ 1 ∧ (1 : Word) ≤ 32 ∧ (signExtend 0xFFFFFFF1 1).toInt32.toInt = -1 ∧
      signExtend 0xFFFFFFF1 1 = signExtend 1 1) ∧
    ((1 : Word) ≤ 32 ∧ (32 : Word) ≤ 32 ∧ (signExtend 0x80000000 32).toInt32.toInt = -2 ^ 31) ∧
    Format.si26 ≠ .reg3 ∧ Format.si26 ≠ .bare ∧
      (Format.immediate .si26 0x57FFFBFF).toInt32.toInt = -2 ∧
      Format.immediate .si26 0x57FFFBFF = Format.immediate .si26 0x03FFFBFF := by
  obtain ⟨cut, extend, read⟩ := fields_and_immediates_exact
  obtain ⟨defined, whole⟩ := cut 0xDEADBEEF 31 0 (by decide) (by decide)
  have single := extend 0xFFFFFFF1 1 (by decide) (by decide)
  have widest := extend 0x80000000 32 (by decide) (by decide)
  have offset := read .si26 (by decide) (by decide)
  refine ⟨⟨by decide, by decide, defined, whole⟩, ⟨by decide, by decide, ?_, ?_⟩,
    ⟨by decide, by decide, ?_⟩, by decide, by decide, ?_, ?_⟩
  · exact (single.signed (-1)).mpr ⟨by decide, by decide, by decide⟩
  · exact (single.determined 1).mpr (by decide)
  · exact (widest.signed (-2 ^ 31)).mpr ⟨by decide, by decide, by decide⟩
  · exact (offset.signed 0x57FFFBFF (-2)).mpr ⟨by decide, by decide, by decide⟩
  · exact (offset.distinct _ _).mpr (by decide)

end LoongArch
