import LoongArch.Assembly
import LoongArch.Proofs.BitFields
import LoongArch.Proofs.Checked.Operators

/-!
# Decoding and assembly text, checked

Fields are cut out of a word by shifts whose amounts are computed, and register names are found by
numbers that were cut out. The bounds come from the places of the fields, which are constants, so no
operator is undefined for any word.
-/

set_option autoImplicit false

namespace LoongArch

namespace Checked

def bits (word high low : Word) : Checked Word := do
  let shifted ← shiftRight word low
  let distance ← subtract high low
  let unused ← subtract 31 distance
  let mask ← shiftRight 0xFFFFFFFF unused
  return shifted &&& mask

def signExtend (value width : Word) : Checked Word := do
  let free ← subtract 32 width
  let raised ← shiftLeft value free
  shiftRightSigned raised free

def immediate (format : Format) (word : Word) : Checked Word :=
  match format with
  | .reg3 | .bare => return 0
  | .reg2Si12 | .reg2Ui12 => do signExtend (← bits word 21 10) 12
  | .reg2Si16 => do signExtend (← bits word 25 10) 16
  | .reg1Si20 => do signExtend (← bits word 24 5) 20
  | .si26 => do
    let low ← bits word 25 10
    let high ← bits word 9 0
    signExtend (low ||| (← shiftLeft high 16)) 26
  | .reg2Ui5 => do signExtend (← bits word 14 10) 5
  | .hint16 => do signExtend (← bits word 15 0) 16

def decode (word : Word) : Checked Instruction := do
  let template := InstructionSet.lookup word
  return {
    operation := template.operation
    format := template.format
    raw := word
    rd := (← bits word 4 0).toUInt8
    rj := (← bits word 9 5).toUInt8
    rk := (← bits word 14 10).toUInt8
    immediate := ← immediate template.format word }

def registerText (number : UInt8) : Checked String := do
  let name ← indexed Register.names[number.toNat &&& 0x1F]?
  return "$" ++ name

def target (instruction : Instruction) (pc : Word) : Checked Word := do
  return pc + (← shiftLeft instruction.immediate 2)

/-- The operands of an instruction. All three registers are looked up, whether or not they occur. -/
def operandText (instruction : Instruction) (pc : Word) : Checked String := do
  let rd ← registerText instruction.rd
  let rj ← registerText instruction.rj
  let rk ← registerText instruction.rk
  let immediate := instruction.immediate
  match instruction.operation with
  | .invalid => return Numeral.address instruction.raw.toNat
  | .breakpoint => return Numeral.hex (instruction.raw &&& 0x7FFF).toNat
  | .dataBarrier | .instructionBarrier => return Numeral.hex (immediate &&& 0x7FFF).toNat
  | .jump | .call => return Numeral.hex (← target instruction pc).toNat
  | .jumpRegister =>
    return rd ++ ", " ++ rj ++ ", " ++ Numeral.signed (← shiftLeft immediate 2)
  | .branch _ => return rj ++ ", " ++ rd ++ ", " ++ Numeral.hex (← target instruction pc).toNat
  | _ =>
    match instruction.format with
    | .reg3 => return rd ++ ", " ++ rj ++ ", " ++ rk
    | .reg2Ui12 => return rd ++ ", " ++ rj ++ ", " ++ Numeral.hex (immediate &&& 0xFFF).toNat
    | .reg2Ui5 => return rd ++ ", " ++ rj ++ ", " ++ Numeral.decimal (immediate &&& 0x1F).toNat
    | .reg1Si20 => return rd ++ ", " ++ Numeral.signed immediate
    | _ => return rd ++ ", " ++ rj ++ ", " ++ Numeral.signed immediate

def text (instruction : Instruction) (pc : Word) : Checked String := do
  let head := match instruction.operation with
    | .invalid => ".word"
    | operation => (InstructionSet.describe operation).mnemonic
  return head ++ " " ++ (← operandText instruction pc)

section Fields

theorem to_nat_mask {unused : Word} (small : unused < 32) :
    ((0xFFFFFFFF : Word) >>> unused).toNat = 2 ^ (32 - unused.toNat) - 1 := by
  have smallNat : unused.toNat < 32 := UInt32.lt_iff_toNat_lt.mp small
  have all : (0xFFFFFFFF : Word).toNat = 2 ^ 32 - 1 := rfl
  apply Nat.eq_of_testBit_eq
  intro index
  rw [UInt32.toNat_shiftRight, Nat.mod_eq_of_lt smallNat, Nat.testBit_shiftRight, all,
    Nat.testBit_two_pow_sub_one, Nat.testBit_two_pow_sub_one, decide_eq_decide]
  omega

section Bounds

variable {high low : Word} (ordered : low ≤ high) (small : high ≤ 31)
include ordered small

theorem distance_le : high - low ≤ 31 := by
  have smallNat : high.toNat ≤ 31 := UInt32.le_iff_toNat_le.mp small
  rw [UInt32.le_iff_toNat_le, UInt32.toNat_sub_of_le _ _ ordered]
  exact Nat.le_trans (Nat.sub_le ..) smallNat

theorem to_nat_unused : (31 - (high - low)).toNat = 31 - (high.toNat - low.toNat) := by
  rw [UInt32.toNat_sub_of_le _ _ (distance_le ordered small), UInt32.toNat_sub_of_le _ _ ordered]
  rfl

theorem low_lt : low < 32 := by
  have orderedNat : low.toNat ≤ high.toNat := UInt32.le_iff_toNat_le.mp ordered
  have smallNat : high.toNat ≤ 31 := UInt32.le_iff_toNat_le.mp small
  exact lt_of_to_nat_lt (by omega)

theorem unused_lt : 31 - (high - low) < 32 := by
  apply lt_of_to_nat_lt
  rw [to_nat_unused ordered small]
  omega

theorem and_mask_eq (word : Word) :
    word >>> low &&& (0xFFFFFFFF : Word) >>> (31 - (high - low)) = word.bits high low := by
  have smallNat : high.toNat ≤ 31 := UInt32.le_iff_toNat_le.mp small
  have lowNat : low.toNat < 32 := UInt32.lt_iff_toNat_lt.mp (low_lt ordered small)
  have width : 32 - (31 - (high.toNat - low.toNat)) = high.toNat - low.toNat + 1 := by omega
  apply UInt32.toNat_inj.mp
  rw [Word.to_nat_bits word ordered small, UInt32.toNat_and, to_nat_mask (unused_lt ordered small),
    to_nat_unused ordered small, width, Nat.and_two_pow_sub_one_eq_mod, UInt32.toNat_shiftRight,
    Nat.mod_eq_of_lt lowNat, Nat.shiftRight_eq_div_pow]

theorem bits_eq (word : Word) : bits word high low = .ok (word.bits high low) := by
  simp only [bits, shiftRight, subtract, guarded_eq (low_lt ordered small), guarded_eq ordered,
    guarded_eq (distance_le ordered small), guarded_eq (unused_lt ordered small), ok_bind, pure_eq,
    and_mask_eq ordered small]

end Bounds

theorem sign_extend_eq (value : Word) {width : Word} (positive : 1 ≤ width) (small : width ≤ 32) :
    signExtend value width = .ok (value.signExtend width) := by
  have positiveNat : 1 ≤ width.toNat := UInt32.le_iff_toNat_le.mp positive
  have free : (32 - width).toNat = 32 - width.toNat := UInt32.toNat_sub_of_le _ _ small
  have shift : 32 - width < 32 := lt_of_to_nat_lt (by omega)
  simp only [signExtend, subtract, shiftLeft, shiftRightSigned, guarded_eq small, guarded_eq shift,
    ok_bind, Word.signExtend]

theorem immediate_eq (format : Format) (word : Word) :
    immediate format word = .ok (format.immediate word) := by
  cases format with
  | reg3 | bare => rfl
  | si26 =>
    have moved (high : Word) : shiftLeft high 16 = .ok (high <<< 16) := guarded_eq (by decide) ..
    simp (disch := decide) only [immediate, bits_eq, sign_extend_eq, moved, ok_bind, Format.immediate]
  | _ =>
    simp (disch := decide) only [immediate, bits_eq, sign_extend_eq, ok_bind, Format.immediate]

theorem decode_eq (word : Word) : decode word = .ok (Instruction.decode word) := by
  simp (disch := decide) only [decode, bits_eq, immediate_eq, ok_bind, pure_eq, Instruction.decode,
    Instruction.ofFields]

end Fields

section Text

theorem register_text_eq (number : UInt8) :
    registerText number = .ok (Instruction.registerText number) := by
  have reduced : number.toNat &&& 0x1F = number.toNat % 32 := Nat.and_two_pow_sub_one_eq_mod _ 5
  have inside : number.toNat % 32 < 32 := Nat.mod_lt _ (by decide)
  simp only [registerText, reduced, Vector.getElem?_eq_getElem inside, indexed_some, ok_bind, pure_eq]
  rfl

theorem shift_left_two_eq (word : Word) : shiftLeft word 2 = .ok (word <<< 2) :=
  guarded_eq (by decide) ..

theorem target_eq (instruction : Instruction) (pc : Word) :
    target instruction pc = .ok (instruction.target pc) := by
  simp only [target, shift_left_two_eq, ok_bind, pure_eq, Instruction.target]

theorem operand_text_eq (instruction : Instruction) (pc : Word) :
    operandText instruction pc = .ok (instruction.operandText pc) := by
  unfold operandText Instruction.operandText
  simp only [register_text_eq, target_eq, shift_left_two_eq, ok_bind, pure_eq]
  -- The format decides only where the operation leaves it open.
  cases instruction.operation <;> first | rfl | (cases instruction.format <;> rfl)

theorem text_eq (instruction : Instruction) (pc : Word) :
    text instruction pc = .ok (instruction.text pc) := by
  simp only [text, operand_text_eq, ok_bind, pure_eq]
  rfl

end Text
end Checked
end LoongArch
