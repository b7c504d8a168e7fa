import LoongArch.Numeral
import Mathlib.Data.List.TakeWhile

/-!
# Numerals are read back

The reader of numerals is inverse to the writers, with or without zeros in front. So no two numbers
share a numeral of one kind, and a numeral contains nothing but digits and its mark.
-/

set_option autoImplicit false

namespace LoongArch.Numeral

theorem digit_value_digit {base digit : Nat} (small : base ≤ 16) (bounded : digit < base) :
    digitValue? base (Nat.digitChar digit) = some digit := by
  have listed : ∀ digit < 16, ∀ base ≤ 16, digit < base →
      digitValue? base (Nat.digitChar digit) = some digit := by decide
  exact listed digit (bounded.trans_le small) base small bounded

theorem append_digits_append (base number : Nat) (left right : List Char) :
    appendDigits? base number (left ++ right) =
      (appendDigits? base number left).bind (appendDigits? base · right) := by
  induction left generalizing number with
  | nil => rfl
  | cons digit rest hypothesis =>
    simp only [List.cons_append, appendDigits?, hypothesis, Option.bind_assoc]

theorem append_digits_to_digits {base : Nat} (large : 1 < base) (small : base ≤ 16) (number : Nat) :
    appendDigits? base 0 (Nat.toDigits base number) = some number := by
  -- By induction on the number: its last digit stands behind those of its quotient by the base.
  induction number using Nat.strongRecOn with
  | ind number hypothesis =>
    by_cases single : number < base
    · simp [Nat.toDigits_of_lt_base single, appendDigits?, digit_value_digit small single]
    · have positive : 0 < number := by omega
      have last : number % base < base := Nat.mod_lt _ (by omega)
      rw [Nat.toDigits_of_base_le large (Nat.le_of_not_lt single), append_digits_append,
        hypothesis _ (Nat.div_lt_self positive large)]
      simp [appendDigits?, digit_value_digit small last, Nat.div_add_mod']

theorem append_digits_zeros {base : Nat} (positive : 0 < base) (count : Nat) (digits : List Char) :
    appendDigits? base 0 (List.replicate count '0' ++ digits) = appendDigits? base 0 digits := by
  induction count with
  | zero => rfl
  | succ count hypothesis =>
    have zero : digitValue? base '0' = some 0 := by
      simp [digitValue?, positive]
    simp [List.replicate_succ, appendDigits?, zero, hypothesis]

theorem digit_of_append_digits {base number value : Nat} {text : List Char}
    (read : appendDigits? base number text = some value) :
    ∀ character ∈ text, (digitValue? base character).isSome = true := by
  induction text generalizing number with
  | nil => nofun
  | cons first rest hypothesis =>
    obtain ⟨digit, valued, remaining⟩ := Option.bind_eq_some_iff.mp read
    intro character listed
    rcases List.mem_cons.mp listed with rfl | later
    · rw [valued]
      rfl
    · exact hypothesis remaining character later

theorem read_decimal (number : Nat) : appendDigits? 10 0 (decimal number).toList = some number := by
  rw [decimal, String.toList_ofList]
  exact append_digits_to_digits (by decide) (by decide) number

theorem read_hex_digits (width number : Nat) :
    appendDigits? 16 0 (hexDigits width number).toList = some number := by
  rw [hexDigits, String.toList_ofList, append_digits_zeros (by decide)]
  exact append_digits_to_digits (by decide) (by decide) number

theorem decimal_injective : Function.Injective decimal := by
  intro first second same
  have read := read_decimal first
  rw [same, read_decimal] at read
  exact (Option.some.inj read).symm

theorem hex_digits_injective (width : Nat) : Function.Injective (hexDigits width) := by
  intro first second same
  have read := read_hex_digits width first
  rw [same, read_hex_digits] at read
  exact (Option.some.inj read).symm

theorem not_mem_of_read {base value : Nat} {text : List Char} {character : Char}
    (read : appendDigits? base 0 text = some value)
    (other : digitValue? base character = none) : character ∉ text := by
  intro listed
  have digit := digit_of_append_digits read character listed
  rw [other] at digit
  cases digit

theorem signed_injective : Function.Injective signed := by
  have minus (number : Nat) : '-' ∉ (decimal number).toList :=
    not_mem_of_read (read_decimal number) (by decide)
  intro first second same
  unfold signed at same
  split at same <;> split at same
  next =>
    have opposite := decimal_injective ((String.append_right_inj _).mp same)
    have equal := UInt32.toNat_inj.mp opposite
    simpa using equal
  -- In the two mixed cases the sign of one numeral would have to be a digit of the other.
  next =>
    refine absurd ?_ (minus second.toNat)
    rw [← same]
    simp
  next =>
    refine absurd ?_ (minus first.toNat)
    rw [same]
    simp
  next => exact UInt32.toNat_inj.mp (decimal_injective same)

theorem hex_injective : Function.Injective hex :=
  fun _ _ same => hex_digits_injective 1 ((String.append_right_inj _).mp same)

theorem address_injective : Function.Injective address :=
  fun _ _ same => hex_digits_injective 8 ((String.append_right_inj _).mp same)

theorem digit_not_blank {character : Char} (digit : (digitValue? 16 character).isSome = true) :
    Blank.isBlank character = false := by
  have ranges : 48 ≤ character.toNat ∧ character.toNat ≤ 57 ∨
      97 ≤ character.toNat ∧ character.toNat ≤ 102 ∨
      65 ≤ character.toNat ∧ character.toNat ≤ 70 := by
    by_contra outside
    have refused : digitValue? 16 character = none := by
      have decimal : ¬('0' ≤ character ∧ character ≤ '9') := fun inside => outside (.inl inside)
      have lower : ¬('a' ≤ character ∧ character ≤ 'f') := fun inside => outside (.inr (.inl inside))
      have upper : ¬('A' ≤ character ∧ character ≤ 'F') := fun inside => outside (.inr (.inr inside))
      rw [digitValue?, if_neg decimal, if_neg lower, if_neg upper]
      rfl
    rw [refused] at digit
    cases digit
  simp only [Blank.isBlank, Blank.ranges, List.any_cons, List.any_nil, Bool.or_false,
    Bool.or_eq_false_iff, Bool.and_eq_false_iff, decide_eq_false_iff_not]
  omega

end LoongArch.Numeral
