import LoongArch.Instruction
import Mathlib.Algebra.Order.Ring.Int

/-!
# Fields of a word as numbers

The shifts that cut a field out of a word are division and remainder by powers of two, and the shifts
that extend its sign give the signed number that is congruent to it. Every fact about operands is read
off these two.
-/

set_option autoImplicit false

namespace LoongArch

namespace Word

theorem mul_mod_div_mul (value above below width : Nat) :
    value * 2 ^ above % 2 ^ (above + (below + width)) / 2 ^ (above + below) =
      value / 2 ^ below % 2 ^ width := by
  rw [Nat.pow_add 2 above below, ← Nat.div_div_eq_div_mul, Nat.pow_add 2 above (below + width),
    Nat.mul_comm value, Nat.mul_mod_mul_left, Nat.mul_div_cancel_left _ (Nat.two_pow_pos above),
    Nat.pow_add, Nat.mod_mul_right_div_self]

/-- A field is the quotient by what lies below it, without what lies above it. -/
theorem to_nat_bits (word : Word) {high low : Word} (ordered : low ≤ high) (small : high ≤ 31) :
    (word.bits high low).toNat =
      word.toNat / 2 ^ low.toNat % 2 ^ (high.toNat - low.toNat + 1) := by
  have orderedNat : low.toNat ≤ high.toNat := UInt32.le_iff_toNat_le.mp ordered
  have smallNat : high.toNat ≤ 31 := UInt32.le_iff_toNat_le.mp small
  have above : (31 - high).toNat = 31 - high.toNat := UInt32.toNat_sub_of_le _ _ small
  have right : (31 - high + low).toNat = 31 - high.toNat + low.toNat := by
    rw [UInt32.toNat_add, above]
    omega
  have whole : 31 - high.toNat + (low.toNat + (high.toNat - low.toNat + 1)) = 32 := by omega
  have shifted := mul_mod_div_mul word.toNat (31 - high.toNat) low.toNat
    (high.toNat - low.toNat + 1)
  rw [whole] at shifted
  rw [bits, UInt32.toNat_shiftRight, UInt32.toNat_shiftLeft, above, right,
    Nat.mod_eq_of_lt (by omega : 31 - high.toNat < 32),
    Nat.mod_eq_of_lt (by omega : 31 - high.toNat + low.toNat < 32), Nat.shiftLeft_eq,
    Nat.shiftRight_eq_div_pow, shifted]

theorem to_int_shift_right_signed (word : Word) {amount : Word} (small : amount < 32) :
    (word.shiftRightSigned amount).toInt32.toInt = word.toInt32.toInt / 2 ^ amount.toNat := by
  have smallNat : amount.toNat < 32 := UInt32.lt_iff_toNat_lt.mp small
  have distance : (amount.toInt32.toBitVec.smod 32).toNat = amount.toNat := by
    have nonnegative : amount.toBitVec.msb = false := by
      rw [BitVec.msb_eq_false_iff_two_mul_lt]
      change 2 * amount.toNat < _
      omega
    change (amount.toBitVec.smod 32).toNat = amount.toNat
    rw [BitVec.toNat_smod, nonnegative]
    change amount.toNat % 32 = amount.toNat
    exact Nat.mod_eq_of_lt smallNat
  unfold shiftRightSigned
  rw [Int32.toInt32_toUInt32, ← Int32.toInt_toBitVec, Int32.toBitVec_shiftRight,
    BitVec.sshiftRight_eq', BitVec.toInt_sshiftRight, distance, Int.shiftRight_eq_div_pow]
  norm_cast

theorem to_int_shift_left (value amount : Word) :
    (value <<< amount).toInt32.toInt =
      Int.bmod (2 ^ (amount.toNat % 32) * value.toNat) (2 ^ 32) := by
  have moved : (value <<< amount).toNat = value.toNat * 2 ^ (amount.toNat % 32) % 2 ^ 32 := by
    rw [UInt32.toNat_shiftLeft, Nat.shiftLeft_eq]
  rw [← Int32.toInt_toBitVec, UInt32.toBitVec_toInt32, BitVec.toInt_eq_toNat_bmod,
    UInt32.toNat_toBitVec, moved, Nat.mul_comm]
  push_cast
  exact Int.emod_bmod ..

/-- The bits that the sign fills are those of the signed number congruent to the field. -/
theorem to_int_sign_extend (value : Word) {width : Word} (positive : 1 ≤ width) (small : width ≤ 32) :
    (value.signExtend width).toInt32.toInt = Int.bmod value.toNat (2 ^ width.toNat) := by
  have positiveNat : 1 ≤ width.toNat := UInt32.le_iff_toNat_le.mp positive
  have smallNat : width.toNat ≤ 32 := UInt32.le_iff_toNat_le.mp small
  have free : (32 - width).toNat = 32 - width.toNat := UInt32.toNat_sub_of_le _ _ small
  have shift : (32 - width).toNat < 32 := by omega
  have split : 2 ^ 32 = 2 ^ (32 - width.toNat) * 2 ^ width.toNat := by
    rw [← Nat.pow_add, Nat.sub_add_cancel smallNat]
  have moved : (value <<< (32 - width)).toInt32.toInt =
      (2 ^ (32 - width.toNat) : Nat) * Int.bmod value.toNat (2 ^ width.toNat) := by
    rw [to_int_shift_left, Nat.mod_eq_of_lt shift, free, split]
    exact_mod_cast Int.mod_bmod_mul_of_pos (value.toNat : Int) (2 ^ width.toNat)
      (Nat.two_pow_pos _) (Dvd.dvd.pow dvd_rfl (by omega))
  unfold signExtend
  rw [to_int_shift_right_signed _ (UInt32.lt_iff_toNat_lt.mpr shift), moved, free]
  exact_mod_cast Int.mul_ediv_cancel_left _ (Int.natCast_ne_zero.mpr (Nat.two_pow_pos _).ne')

theorem to_int_emod (word : Word) {width : Nat} (small : width ≤ 32) :
    word.toInt32.toInt % (2 ^ width : Nat) = (word.toNat % 2 ^ width : Nat) := by
  have divides : ((2 ^ width : Nat) : Int) ∣ (2 ^ 32 : Nat) :=
    Int.natCast_dvd_natCast.mpr (Nat.pow_dvd_pow 2 small)
  rw [← Int32.toInt_toBitVec, UInt32.toBitVec_toInt32, BitVec.toInt_eq_toNat_bmod,
    UInt32.toNat_toBitVec, ← Int.emod_emod_of_dvd _ divides, Int.bmod_emod,
    Int.emod_emod_of_dvd _ divides, Int.natCast_emod]

theorem of_int_eq {word : Word} {value : Int} (congruent : value % 2 ^ 32 = word.toNat) :
    UInt32.ofInt value = word := by
  rw [UInt32.ofInt, congruent, Int.toNat_natCast, UInt32.ofNat_toNat]

theorem of_int_to_nat (word : Word) : UInt32.ofInt word.toNat = word :=
  of_int_eq (Int.emod_eq_of_lt (Int.natCast_nonneg _) (by exact_mod_cast word.toNat_lt))

theorem of_int_to_int32 (word : Word) : UInt32.ofInt word.toInt32.toInt = word := by
  apply of_int_eq
  have congruent := to_int_emod word (Nat.le_refl 32)
  rw [Nat.mod_eq_of_lt word.toNat_lt] at congruent
  exact_mod_cast congruent

theorem to_nat_of_int (value : Int) : ((UInt32.ofInt value).toNat : Int) = value % 2 ^ 32 := by
  have bounded : (value % 2 ^ 32).toNat < 2 ^ 32 := by omega
  rw [UInt32.ofInt, UInt32.toNat_ofNat', Nat.mod_eq_of_lt bounded]
  omega

theorem of_int_bmod (value : Int) : UInt32.ofInt (value.bmod (2 ^ 32)) = UInt32.ofInt value := by
  apply of_int_eq
  rw [to_nat_of_int]
  exact Int.bmod_emod

section Signed

variable {first second : Word} {left right width : Nat} (small : width ≤ 32)
  (leftSigned : first.toInt32.toInt = Int.bmod left (2 ^ width))
include small leftSigned

theorem to_nat_mod_of_signed : first.toNat % 2 ^ width = left % 2 ^ width := by
  have signed := to_int_emod first small
  rw [leftSigned, Int.bmod_emod, ← Int.natCast_emod] at signed
  exact_mod_cast signed.symm

theorem eq_iff_of_signed (rightSigned : second.toInt32.toInt = Int.bmod right (2 ^ width)) :
    first = second ↔ left % 2 ^ width = right % 2 ^ width := by
  constructor
  · rintro rfl
    rw [← to_nat_mod_of_signed small leftSigned, to_nat_mod_of_signed small rightSigned]
  · intro same
    have balanced : Int.bmod left (2 ^ width) = Int.bmod right (2 ^ width) := by
      rw [← Int.emod_bmod left, ← Int.emod_bmod right, ← Int.natCast_emod, ← Int.natCast_emod, same]
    rw [← of_int_to_int32 first, leftSigned, balanced, ← rightSigned, of_int_to_int32]

end Signed

theorem shift_left_two (word : Word) : word <<< 2 = 4 * word := by
  apply UInt32.toNat_inj.mp
  rw [UInt32.toNat_shiftLeft, UInt32.toNat_mul, Nat.shiftLeft_eq, Nat.mul_comm]
  rfl

/-- A run of bits of a word as a number, named by its lowest bit. -/
def unsignedAt (word : Word) (low width : Nat) : Nat :=
  word.toNat / 2 ^ low % 2 ^ width

/-- A run of bits of a word, read in two's complement. -/
def signedAt (word : Word) (low width : Nat) : Int :=
  Int.bmod (word.unsignedAt low width) (2 ^ width)

end Word

namespace Format

def immediateBits : Format → Nat
  | reg3 | bare => 0
  | reg2Si12 | reg2Ui12 => 12
  | reg2Si16 | hint16 => 16
  | reg1Si20 => 20
  | si26 => 26
  | reg2Ui5 => 5

theorem immediate_bits_le (format : Format) : format.immediateBits ≤ 32 := by
  cases format <;> decide

/-- The immediate field of a word before its sign is extended. -/
def field (format : Format) (word : Word) : Nat :=
  match format with
  | reg3 | bare => 0
  | reg2Si12 | reg2Ui12 => word.toNat / 2 ^ 10 % 2 ^ 12
  | reg2Si16 => word.toNat / 2 ^ 10 % 2 ^ 16
  | reg1Si20 => word.toNat / 2 ^ 5 % 2 ^ 20
  | si26 => word.toNat % 2 ^ 10 * 2 ^ 16 + word.toNat / 2 ^ 10 % 2 ^ 16
  | reg2Ui5 => word.toNat / 2 ^ 10 % 2 ^ 5
  | hint16 => word.toNat % 2 ^ 16

theorem to_nat_offset_parts (word : Word) :
    (word.bits 9 0).toNat = word.toNat % 2 ^ 10 ∧
    (word.bits 25 10).toNat = word.toNat / 2 ^ 10 % 2 ^ 16 := by
  have high : (word.bits 9 0).toNat = word.toNat / 2 ^ 0 % 2 ^ 10 :=
    Word.to_nat_bits word (by decide) (by decide)
  have low : (word.bits 25 10).toNat = word.toNat / 2 ^ 10 % 2 ^ 16 :=
    Word.to_nat_bits word (by decide) (by decide)
  rw [Nat.pow_zero, Nat.div_one] at high
  exact ⟨high, low⟩

theorem to_nat_long_offset (word : Word) :
    (word.bits 25 10 ||| word.bits 9 0 <<< 16).toNat = field si26 word := by
  obtain ⟨high, low⟩ := to_nat_offset_parts word
  have small : (word.bits 25 10).toNat < 2 ^ 16 := by omega
  have moved : (word.bits 9 0 <<< 16).toNat = (word.bits 9 0).toNat <<< 16 := by
    rw [UInt32.toNat_shiftLeft]
    apply Nat.mod_eq_of_lt
    rw [Nat.shiftLeft_eq]
    change (word.bits 9 0).toNat * 2 ^ 16 < _
    omega
  rw [UInt32.toNat_or, moved, Nat.or_comm, ← Nat.shiftLeft_add_eq_or_of_lt small, Nat.shiftLeft_eq,
    low, high]
  rfl

theorem immediate_eq_sign_extend (format : Format) (word : Word) : ∃ value : Word,
    value.toNat = format.field word ∧
      format.immediate word = value.signExtend (.ofNat format.immediateBits) := by
  cases format with
  | reg3 | bare => exact ⟨0, rfl, rfl⟩
  | si26 => exact ⟨_, to_nat_long_offset word, rfl⟩
  | hint16 =>
    refine ⟨_, ?_, rfl⟩
    rw [Word.to_nat_bits word (by decide) (by decide)]
    exact congrArg (· % 2 ^ 16) (Nat.div_one _)
  | _ => exact ⟨_, Word.to_nat_bits word (by decide) (by decide), rfl⟩

/-- The signed reading of an immediate is the signed number of its width that is congruent to its
field. -/
theorem to_int_immediate (format : Format) (word : Word) :
    (format.immediate word).toInt32.toInt =
      Int.bmod (format.field word) (2 ^ format.immediateBits) := by
  obtain ⟨value, same, extended⟩ := format.immediate_eq_sign_extend word
  cases format with
  | reg3 | bare => rfl
  | _ =>
    rw [extended, Word.to_int_sign_extend _ (by decide) (by decide), same]
    rfl

theorem immediate_eq (format : Format) (word : Word) :
    format.immediate word =
      .ofInt (Int.bmod (format.field word) (2 ^ format.immediateBits)) := by
  rw [← to_int_immediate, Word.of_int_to_int32]

theorem to_nat_immediate_mod (format : Format) (word : Word) :
    (format.immediate word).toNat % 2 ^ format.immediateBits =
      format.field word % 2 ^ format.immediateBits :=
  Word.to_nat_mod_of_signed format.immediate_bits_le (format.to_int_immediate word)

end Format

theorem Instruction.to_nat_registers (operation : Operation) (format : Format) (word : Word) :
    (ofFields operation format word).rd.toNat = word.toNat % 2 ^ 5 ∧
    (ofFields operation format word).rj.toNat = word.toNat / 2 ^ 5 % 2 ^ 5 ∧
    (ofFields operation format word).rk.toNat = word.toNat / 2 ^ 10 % 2 ^ 5 := by
  have rd : (word.bits 4 0).toNat = word.toNat / 2 ^ 0 % 2 ^ 5 :=
    Word.to_nat_bits word (by decide) (by decide)
  have rj : (word.bits 9 5).toNat = word.toNat / 2 ^ 5 % 2 ^ 5 :=
    Word.to_nat_bits word (by decide) (by decide)
  have rk : (word.bits 14 10).toNat = word.toNat / 2 ^ 10 % 2 ^ 5 :=
    Word.to_nat_bits word (by decide) (by decide)
  simp only [ofFields, UInt32.toNat_toUInt8, rd, rj, rk]
  omega

end LoongArch
