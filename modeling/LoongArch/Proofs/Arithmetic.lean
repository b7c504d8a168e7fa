import LoongArch.Arithmetic
import LoongArch.Proofs.BitFields

/-!
# Arithmetic as arithmetic on numbers

The values that operations compute, and the comparisons that branches make, as numbers: from the values
of their sources and from the fields of their words. An unsigned immediate is decoded with its sign like
any other, and the operation takes the sign away again; seen from outside it is the number in its field.
-/

set_option autoImplicit false

namespace LoongArch

namespace Word

theorem of_bool_eq {answer holds : Prop} [Decidable answer] [Decidable holds]
    (same : answer ↔ holds) : ofBool answer = .ofInt (if holds then 1 else 0) := by
  by_cases positive : holds
  · simp [ofBool, same, positive]
  · simp only [ofBool, same, positive, decide_false, Bool.false_eq_true, if_false]
    rfl

theorem add_of_int (word : Word) (value : Int) : word + .ofInt value = .ofInt (word.toNat + value) := by
  rw [UInt32.ofInt_add, of_int_to_nat]

theorem sub_eq (first second : Word) :
    first - second = .ofInt (first.toNat - second.toNat) := by
  rw [Int.sub_eq_add_neg, UInt32.ofInt_add, UInt32.ofInt_neg, of_int_to_nat, of_int_to_nat,
    UInt32.sub_eq_add_neg]

theorem and_eq (first second : Word) :
    first &&& second = .ofInt (first.toNat &&& second.toNat : Nat) := by
  rw [← UInt32.toNat_and, of_int_to_nat]

theorem or_eq (first second : Word) :
    first ||| second = .ofInt (first.toNat ||| second.toNat : Nat) := by
  rw [← UInt32.toNat_or, of_int_to_nat]

theorem xor_eq (first second : Word) :
    first ^^^ second = .ofInt (first.toNat ^^^ second.toNat : Nat) := by
  rw [← UInt32.toNat_xor, of_int_to_nat]

theorem nor_eq (first second : Word) :
    ~~~(first ||| second) = .ofInt (2 ^ 32 - 1 - (first.toNat ||| second.toNat : Nat)) := by
  have bounded := (first ||| second).toNat_lt
  have flipped : (~~~(first ||| second)).toNat = 2 ^ 32 - 1 - (first ||| second).toNat :=
    UInt32.toNat_not ..
  refine (of_int_eq ?_).symm
  rw [flipped, ← UInt32.toNat_or]
  omega

theorem shift_left_eq (value amount : Word) {count : Nat} (counted : amount.toNat = count)
    (small : count < 32) : value <<< amount = .ofInt (value.toNat * 2 ^ count) := by
  refine (of_int_eq ?_).symm
  rw [UInt32.toNat_shiftLeft, Nat.shiftLeft_eq, counted, Nat.mod_eq_of_lt small]
  norm_cast

theorem shift_left_of_int (value : Int) (amount : Word) {count : Nat}
    (counted : amount.toNat = count) (small : count < 32) :
    UInt32.ofInt value <<< amount = .ofInt (value * 2 ^ count) := by
  rw [shift_left_eq _ amount counted small, UInt32.ofInt_mul, of_int_to_nat, ← UInt32.ofInt_mul]

theorem shift_right_eq (value amount : Word) {count : Nat} (counted : amount.toNat = count)
    (small : count < 32) : value >>> amount = .ofInt (value.toNat / 2 ^ count) := by
  have shifted : (value >>> amount).toNat = value.toNat / 2 ^ count := by
    rw [UInt32.toNat_shiftRight, Nat.shiftRight_eq_div_pow, counted, Nat.mod_eq_of_lt small]
  rw [← of_int_to_nat (value >>> amount), shifted]
  norm_cast

theorem shift_right_signed_eq (value amount : Word) {count : Nat} (counted : amount.toNat = count)
    (small : count < 32) :
    value.shiftRightSigned amount = .ofInt (value.toInt32.toInt / 2 ^ count) := by
  have inside : amount < 32 := UInt32.lt_iff_toNat_lt.mpr (by rwa [counted])
  rw [← counted, ← to_int_shift_right_signed value inside, of_int_to_int32]

end Word

namespace Format

theorem to_nat_logical_immediate (word : Word) :
    (immediate .reg2Ui12 word &&& 0xFFF).toNat = word.unsignedAt 10 12 := by
  rw [UInt32.toNat_and]
  change _ &&& (2 ^ 12 - 1) = _
  rw [Nat.and_two_pow_sub_one_eq_mod]
  exact (to_nat_immediate_mod .reg2Ui12 word).trans (Nat.mod_mod ..)

theorem to_nat_shift_amount (word : Word) :
    (immediate .reg2Ui5 word % 32).toNat = word.unsignedAt 10 5 :=
  (UInt32.toNat_mod ..).trans ((to_nat_immediate_mod .reg2Ui5 word).trans (Nat.mod_mod ..))

theorem upper_immediate (word : Word) :
    immediate .reg1Si20 word <<< 12 = .ofInt (word.signedAt 5 20 * 2 ^ 12) := by
  rw [immediate_eq]
  exact Word.shift_left_of_int _ _ rfl (by decide)

end Format

namespace AluOperation

/-- The number that an operation computes from its two sources and the fields of its word. Division
rounds down. -/
def number (operation : AluOperation) (first second word : Word) : Int :=
  match operation with
  | addW => first.toNat + second.toNat
  | subW => first.toNat - second.toNat
  | slt => if first.toInt32.toInt < second.toInt32.toInt then 1 else 0
  | sltu => if first.toNat < second.toNat then 1 else 0
  | nor => 2 ^ 32 - 1 - (first.toNat ||| second.toNat : Nat)
  | and => (first.toNat &&& second.toNat : Nat)
  | or => (first.toNat ||| second.toNat : Nat)
  | xor => (first.toNat ^^^ second.toNat : Nat)
  | sllW => first.toNat * 2 ^ (second.toNat % 32)
  | srlW => first.toNat / 2 ^ (second.toNat % 32)
  | sraW => first.toInt32.toInt / 2 ^ (second.toNat % 32)
  | addiW => first.toNat + word.signedAt 10 12
  | slti => if first.toInt32.toInt < word.signedAt 10 12 then 1 else 0
  | sltui => if first.toNat < word.signedAt 10 12 % 2 ^ 32 then 1 else 0
  | andi => (first.toNat &&& word.unsignedAt 10 12 : Nat)
  | ori => (first.toNat ||| word.unsignedAt 10 12 : Nat)
  | xori => (first.toNat ^^^ word.unsignedAt 10 12 : Nat)
  | slliW => first.toNat * 2 ^ word.unsignedAt 10 5
  | srliW => first.toNat / 2 ^ word.unsignedAt 10 5
  | sraiW => first.toInt32.toInt / 2 ^ word.unsignedAt 10 5

def format : AluOperation → Format
  | addiW | slti | sltui => .reg2Si12
  | andi | ori | xori => .reg2Ui12
  | slliW | srliW | sraiW => .reg2Ui5
  | _ => .reg3

end AluOperation

/-- An operation computes its number. The source that its format does not read is without effect. -/
theorem AluOperation.apply_eq (operation : AluOperation) (first second word : Word) :
    operation.apply first (if operation.format.readsSecond then second else 0)
      (operation.format.immediate word) = .ofInt (operation.number first second word) := by
  have amount : (second % 32).toNat = second.toNat % 32 := UInt32.toNat_mod ..
  have inside : second.toNat % 32 < 32 := Nat.mod_lt _ (by decide)
  have field := Format.to_nat_shift_amount word
  have small : word.unsignedAt 10 5 < 32 := Nat.mod_lt _ (by decide)
  have signed : (Format.immediate .reg2Si12 word).toInt32.toInt = word.signedAt 10 12 :=
    Format.to_int_immediate ..
  have immediate : Format.immediate .reg2Si12 word = .ofInt (word.signedAt 10 12) :=
    Format.immediate_eq ..
  have logical := Format.to_nat_logical_immediate word
  cases operation with
  | addW =>
    change first + second = .ofInt (first.toNat + second.toNat)
    rw [← Word.add_of_int, Word.of_int_to_nat]
  | subW => exact Word.sub_eq first second
  | slt => exact Word.of_bool_eq Int32.lt_iff_toInt_lt
  | sltu => exact Word.of_bool_eq UInt32.lt_iff_toNat_lt
  | nor => exact Word.nor_eq first second
  | and => exact Word.and_eq first second
  | or => exact Word.or_eq first second
  | xor => exact Word.xor_eq first second
  | sllW => exact Word.shift_left_eq first _ amount inside
  | srlW => exact Word.shift_right_eq first _ amount inside
  | sraW => exact Word.shift_right_signed_eq first _ amount inside
  | addiW =>
    change first + Format.immediate .reg2Si12 word = _
    rw [immediate]
    exact Word.add_of_int ..
  | slti =>
    have compared : first.toInt32 < (Format.immediate .reg2Si12 word).toInt32 ↔
        first.toInt32.toInt < word.signedAt 10 12 := by
      rw [Int32.lt_iff_toInt_lt, signed]
    rw [apply, format, number]
    exact Word.of_bool_eq compared
  | sltui =>
    -- The sign is extended first, and the word that this gives is compared as unsigned.
    have compared : first < Format.immediate .reg2Si12 word ↔
        (first.toNat : Int) < word.signedAt 10 12 % 2 ^ 32 := by
      rw [UInt32.lt_iff_toNat_lt, ← Word.to_nat_of_int, ← immediate, Int.ofNat_lt]
    rw [apply, format, number]
    exact Word.of_bool_eq compared
  | andi =>
    refine (Word.and_eq first (Format.immediate .reg2Ui12 word &&& 0xFFF)).trans ?_
    rw [logical, number]
  | ori =>
    refine (Word.or_eq first (Format.immediate .reg2Ui12 word &&& 0xFFF)).trans ?_
    rw [logical, number]
  | xori =>
    refine (Word.xor_eq first (Format.immediate .reg2Ui12 word &&& 0xFFF)).trans ?_
    rw [logical, number]
  | slliW => exact Word.shift_left_eq first _ field small
  | srliW => exact Word.shift_right_eq first _ field small
  | sraiW => exact Word.shift_right_signed_eq first _ field small

def Condition.Compares (condition : Condition) (first second : Word) : Prop :=
  match condition with
  | equal => first.toNat = second.toNat
  | notEqual => first.toNat ≠ second.toNat
  | less => first.toInt32.toInt < second.toInt32.toInt
  | greaterEqual => first.toInt32.toInt ≥ second.toInt32.toInt
  | lessUnsigned => first.toNat < second.toNat
  | greaterEqualUnsigned => first.toNat ≥ second.toNat

theorem Condition.holds_iff (condition : Condition) (first second : Word) :
    condition.holds first second = true ↔ condition.Compares first second := by
  cases condition with
  | equal => exact beq_iff_eq.trans UInt32.toNat_inj.symm
  | notEqual => exact bne_iff_ne.trans UInt32.toNat_inj.symm.not
  | less => exact decide_eq_true_iff.trans Int32.lt_iff_toInt_lt
  | greaterEqual => exact decide_eq_true_iff.trans Int32.le_iff_toInt_le
  | lessUnsigned => exact decide_eq_true_iff.trans UInt32.lt_iff_toNat_lt
  | greaterEqualUnsigned => exact decide_eq_true_iff.trans UInt32.le_iff_toNat_le

instance (condition : Condition) (first second : Word) :
    Decidable (condition.Compares first second) :=
  decidable_of_iff _ (condition.holds_iff first second)

end LoongArch
