import LoongArch.Proofs.Numerals
import Mathlib.Data.List.Forall2
import Mathlib.Data.Nat.Digits.Defs

/-!
# The texts of addresses

Which texts are read as a word, and as which one. A digit has a value by its place among the digits,
digits denote a number in their base, and a number is preceded by a mark of its base and perhaps by a
plus sign. White space may stand around it, but not within.
-/

set_option autoImplicit false

namespace LoongArch

namespace Blank

theorem exists_padding (text : List Char) :
    ∃ before after, text = before ++ trim text ++ after ∧
      (∀ character ∈ before ++ after, isBlank character = true) := by
  let rest := text.dropWhile isBlank
  refine ⟨text.takeWhile isBlank, (rest.reverse.takeWhile isBlank).reverse, ?_, ?_⟩
  · have back : trim text ++ (rest.reverse.takeWhile isBlank).reverse = rest := by
      rw [trim, ← List.reverse_append, List.takeWhile_append_dropWhile, List.reverse_reverse]
    rw [List.append_assoc, back, List.takeWhile_append_dropWhile]
  · intro character listed
    rcases List.mem_append.mp listed with first | last
    · exact List.mem_takeWhile_imp first
    · exact List.mem_takeWhile_imp (List.mem_reverse.mp last)

theorem trim_padded (before after : List Char) {core : List Char} (written : core ≠ [])
    (solid : ∀ character ∈ core, isBlank character = false)
    (blank : ∀ character ∈ before ++ after, isBlank character = true) :
    trim (before ++ core ++ after) = core := by
  have kept {text more : List Char} (written : text ≠ [])
      (free : ∀ character ∈ text, isBlank character = false) :
      (text ++ more).dropWhile isBlank = text ++ more := by
    cases text with
    | nil => exact absurd rfl written
    | cons first rest => simp [free first List.mem_cons_self]
  have left : ∀ character ∈ before, isBlank character = true :=
    fun character listed => blank character (List.mem_append_left _ listed)
  have right : ∀ character ∈ after.reverse, isBlank character = true :=
    fun character listed =>
      blank character (List.mem_append_right _ (List.mem_reverse.mp listed))
  rw [trim, List.append_assoc, List.dropWhile_append_of_pos left, kept written solid,
    List.reverse_append, List.dropWhile_append_of_pos right, ← List.append_nil core.reverse,
    kept (by simpa using written) (by simpa using solid), List.append_nil, List.reverse_reverse]

end Blank

namespace Numeral

/-- A character is a digit with a value, which is its place among the sixteen digits. Letters may be
small or capital. -/
def IsDigit (base : Nat) (character : Char) (value : Nat) : Prop :=
  value < base ∧
    ("0123456789abcdef".toList[value]? = some character ∨
      "0123456789ABCDEF".toList[value]? = some character)

def Denotes (base : Nat) (digits : List Char) (number : Nat) : Prop :=
  ∃ values, List.Forall₂ (IsDigit base) digits values ∧ Nat.ofDigits base values.reverse = number

/-- A numeral without a mark: one plus sign at most, and one digit or more. -/
def IsNatural (base : Nat) (text : List Char) (number : Nat) : Prop :=
  ∃ digits, (text = digits ∨ text = '+' :: digits) ∧ digits ≠ [] ∧ Denotes base digits number

inductive IsNumeral : List Char → Nat → Prop where
  | hexadecimal {mark : Char} {text : List Char} {number : Nat} (marked : mark = 'x' ∨ mark = 'X')
      (digits : IsNatural 16 text number) : IsNumeral ('0' :: mark :: text) number
  | decimal {text : List Char} {number : Nat} (digits : IsNatural 10 text number) :
      IsNumeral text number

/-- The text of a word: a numeral of its number, with any white space around it. -/
def IsAddress (text : String) (word : Word) : Prop :=
  ∃ before core after, text.toList = before ++ core ++ after ∧
    (∀ character ∈ before ++ after, Blank.isBlank character = true) ∧
    IsNumeral core word.toNat

/-! ## Digits -/

theorem char_of_between {first last character : Char}
    (between : first ≤ character ∧ character ≤ last) :
    ∃ index ≤ last.toNat - first.toNat, character.toNat - first.toNat = index ∧
      character = Char.ofNat (first.toNat + index) := by
  have lower : first.toNat ≤ character.toNat := between.1
  have upper : character.toNat ≤ last.toNat := between.2
  refine ⟨character.toNat - first.toNat, by omega, rfl, ?_⟩
  rw [Nat.add_sub_cancel' lower, Char.ofNat_toNat]

theorem is_digit_of_value {base value : Nat} {character : Char}
    (read : digitValue? base character = some value) : IsDigit base character value := by
  have decimals : ∀ index ≤ 9,
      "0123456789abcdef".toList[index]? = some (Char.ofNat ('0'.toNat + index)) := by decide
  have small_letters : ∀ index ≤ 5,
      "0123456789abcdef".toList[index + 10]? = some (Char.ofNat ('a'.toNat + index)) := by decide
  have capital_letters : ∀ index ≤ 5,
      "0123456789ABCDEF".toList[index + 10]? = some (Char.ofNat ('A'.toNat + index)) := by decide
  obtain ⟨found, small⟩ := Option.filter_eq_some_iff.mp read
  refine ⟨of_decide_eq_true small, ?_⟩
  split_ifs at found with decimal lower upper
  · obtain ⟨index, bound, distance, rfl⟩ := char_of_between decimal
    rw [distance] at found
    cases found
    exact .inl (decimals _ bound)
  · obtain ⟨index, bound, distance, rfl⟩ := char_of_between lower
    rw [distance] at found
    cases found
    exact .inl (small_letters _ bound)
  · obtain ⟨index, bound, distance, rfl⟩ := char_of_between upper
    rw [distance] at found
    cases found
    exact .inr (capital_letters _ bound)

theorem digit_value_of_is_digit {base value : Nat} {character : Char}
    (digit : IsDigit base character value) : digitValue? base character = some value := by
  have small_letters : ∀ (index : Nat) (bound : index < "0123456789abcdef".toList.length),
      digitValue? 16 "0123456789abcdef".toList[index] = some index := by decide
  have capital_letters : ∀ (index : Nat) (bound : index < "0123456789ABCDEF".toList.length),
      digitValue? 16 "0123456789ABCDEF".toList[index] = some index := by decide
  obtain ⟨below, listed⟩ := digit
  have whole : digitValue? 16 character = some value := by
    rcases listed with small | capital
    · obtain ⟨bound, rfl⟩ := List.getElem?_eq_some_iff.mp small
      exact small_letters value bound
    · obtain ⟨bound, rfl⟩ := List.getElem?_eq_some_iff.mp capital
      exact capital_letters value bound
  obtain ⟨found, _⟩ := Option.filter_eq_some_iff.mp whole
  exact Option.filter_eq_some_iff.mpr ⟨found, decide_eq_true below⟩

theorem digit_value_eq_some_iff {base value : Nat} {character : Char} :
    digitValue? base character = some value ↔ IsDigit base character value :=
  ⟨is_digit_of_value, digit_value_of_is_digit⟩

theorem append_digits_eq_some_iff {base start number : Nat} {digits : List Char} :
    appendDigits? base start digits = some number ↔
      ∃ values, List.Forall₂ (IsDigit base) digits values ∧
        values.foldl (fun before value => before * base + value) start = number := by
  induction digits generalizing start with
  | nil => simp [appendDigits?]
  | cons digit digits hypothesis =>
    simp only [appendDigits?, Option.bind_eq_some_iff, hypothesis, digit_value_eq_some_iff]
    constructor
    · rintro ⟨value, valued, values, rest, same⟩
      exact ⟨value :: values, .cons valued rest, same⟩
    · rintro ⟨_, _ | ⟨valued, rest⟩, same⟩
      exact ⟨_, valued, _, rest, same⟩

theorem append_digits_iff_denotes {base number : Nat} {digits : List Char} :
    appendDigits? base 0 digits = some number ↔ Denotes base digits number := by
  rw [append_digits_eq_some_iff]
  refine exists_congr fun values => and_congr_right fun _ => ?_
  rw [Nat.ofDigits_eq_foldr, List.foldr_reverse]
  simp only [Nat.cast_id, Nat.mul_comm base, Nat.add_comm]

/-! ## Numerals -/

theorem plus_not_mem {base number : Nat} {digits : List Char}
    (denotes : Denotes base digits number) : '+' ∉ digits :=
  not_mem_of_read (append_digits_iff_denotes.mpr denotes) (by simp [digitValue?])

theorem natural_eq_some_iff {base limit number : Nat} {text : List Char} :
    natural? base limit text = some number ↔ IsNatural base text number ∧ number < limit := by
  have read (digits : List Char) :
      (if digits.isEmpty then none else (appendDigits? base 0 digits).filter (· < limit)) =
          some number ↔ digits ≠ [] ∧ Denotes base digits number ∧ number < limit := by
    cases digits <;> simp [Option.filter_eq_some_iff, append_digits_iff_denotes]
  unfold natural?
  split
  next rest =>
    rw [read]
    constructor
    · rintro ⟨filled, denotes, small⟩
      exact ⟨⟨rest, .inr rfl, filled, denotes⟩, small⟩
    · rintro ⟨⟨digits, rfl | same, filled, denotes⟩, small⟩
      · exact absurd List.mem_cons_self (plus_not_mem denotes)
      · cases same
        exact ⟨filled, denotes, small⟩
  next unsigned =>
    rw [read]
    constructor
    · rintro ⟨filled, denotes, small⟩
      exact ⟨⟨text, .inl rfl, filled, denotes⟩, small⟩
    · rintro ⟨⟨digits, rfl | same, filled, denotes⟩, small⟩
      · exact ⟨filled, denotes, small⟩
      · exact absurd same (unsigned digits)

theorem not_is_natural_marked {mark : Char} {text : List Char} {number : Nat}
    (marked : mark = 'x' ∨ mark = 'X') : ¬IsNatural 10 ('0' :: mark :: text) number := by
  rintro ⟨digits, rfl | same, _, denotes⟩
  · have other : digitValue? 10 mark = none := by rcases marked with rfl | rfl <;> decide
    exact not_mem_of_read (append_digits_iff_denotes.mpr denotes) other (by simp)
  · cases (List.cons.inj same).1

theorem is_numeral_marked_iff {mark : Char} {text : List Char} {number : Nat}
    (marked : mark = 'x' ∨ mark = 'X') :
    IsNumeral ('0' :: mark :: text) number ↔ IsNatural 16 text number := by
  constructor
  · rintro (⟨_, digits⟩ | digits)
    · exact digits
    · exact absurd digits (not_is_natural_marked marked)
  · exact .hexadecimal marked

theorem is_numeral_unmarked_iff {text : List Char} {number : Nat}
    (small : ∀ rest, text ≠ '0' :: 'x' :: rest) (capital : ∀ rest, text ≠ '0' :: 'X' :: rest) :
    IsNumeral text number ↔ IsNatural 10 text number := by
  constructor
  · rintro (⟨rfl | rfl, _⟩ | digits)
    · exact absurd rfl (small _)
    · exact absurd rfl (capital _)
    · exact digits
  · exact .decimal

theorem word_eq_some_iff_trimmed {text : String} {word : Word} :
    word? text = some word ↔ IsNumeral (Blank.trim text.toList) word.toNat := by
  have fits (number? : Option Nat)
      (bounded : ∀ number, number? = some number → number < UInt32.size) :
      number?.map UInt32.ofNat = some word ↔ number? = some word.toNat := by
    cases number? with
    | none => simp
    | some number =>
      have small := bounded number rfl
      simp only [Option.map_some, Option.some_inj, ← UInt32.toNat_inj, UInt32.toNat_ofNat',
        Nat.mod_eq_of_lt small]
  have natural (base : Nat) (digits : List Char) :
      (natural? base UInt32.size digits).map UInt32.ofNat = some word ↔
        IsNatural base digits word.toNat := by
    rw [fits _ fun number read => (natural_eq_some_iff.mp read).2, natural_eq_some_iff]
    exact and_iff_left word.toNat_lt
  unfold word?
  split
  next digits same => rw [natural, same, is_numeral_marked_iff (.inl rfl)]
  next digits same => rw [natural, same, is_numeral_marked_iff (.inr rfl)]
  next small capital => rw [natural, is_numeral_unmarked_iff small capital]

theorem IsNatural.solid {base number : Nat} {text : List Char} (small : base ≤ 16)
    (natural : IsNatural base text number) :
    text ≠ [] ∧ ∀ character ∈ text, Blank.isBlank character = false := by
  obtain ⟨digits, signed, filled, denotes⟩ := natural
  have free : ∀ character ∈ digits, Blank.isBlank character = false := by
    intro character listed
    have read := append_digits_iff_denotes.mpr denotes
    obtain ⟨value, valued⟩ := Option.isSome_iff_exists.mp (digit_of_append_digits read _ listed)
    obtain ⟨below, place⟩ := digit_value_eq_some_iff.mp valued
    have whole := digit_value_eq_some_iff.mpr ⟨below.trans_le small, place⟩
    exact digit_not_blank (whole ▸ rfl)
  rcases signed with rfl | rfl
  · exact ⟨filled, free⟩
  · refine ⟨List.cons_ne_nil _ _, ?_⟩
    rintro character listed
    rcases List.mem_cons.mp listed with rfl | later
    · decide
    · exact free character later

theorem IsNumeral.solid {text : List Char} {number : Nat} (numeral : IsNumeral text number) :
    text ≠ [] ∧ ∀ character ∈ text, Blank.isBlank character = false := by
  cases numeral with
  | decimal digits => exact digits.solid (by decide)
  | hexadecimal marked digits =>
    refine ⟨List.cons_ne_nil _ _, ?_⟩
    intro character listed
    rcases List.mem_cons.mp listed with rfl | later
    · decide
    · rcases List.mem_cons.mp later with rfl | inside
      · rcases marked with rfl | rfl <;> decide
      · exact (digits.solid (by decide)).2 character inside

/-- A text is read as a word exactly if it is a text of this word. -/
theorem word_eq_some_iff {text : String} {word : Word} :
    word? text = some word ↔ IsAddress text word := by
  rw [word_eq_some_iff_trimmed]
  constructor
  · intro numeral
    obtain ⟨before, after, padded, blank⟩ := Blank.exists_padding text.toList
    exact ⟨before, _, after, padded, blank, numeral⟩
  · rintro ⟨before, core, after, padded, blank, numeral⟩
    obtain ⟨written, solid⟩ := numeral.solid
    rwa [padded, Blank.trim_padded before after written solid blank]

/-! ## Printed addresses -/

theorem is_natural_of_read {base number : Nat} {digits : List Char} (filled : digits ≠ [])
    (read : appendDigits? base 0 digits = some number) : IsNatural base digits number :=
  ⟨digits, .inl rfl, filled, append_digits_iff_denotes.mp read⟩

theorem is_numeral_hex_digits (width number : Nat) :
    IsNumeral ("0x" ++ hexDigits width number).toList number := by
  rw [String.toList_append]
  exact .hexadecimal (.inl rfl)
    (is_natural_of_read (by simp [hexDigits]) (read_hex_digits width number))

theorem is_numeral_decimal (number : Nat) : IsNumeral (decimal number).toList number :=
  .decimal (is_natural_of_read (by simp [decimal]) (read_decimal number))

section Printed

variable {written : String} {word : Word} (numeral : IsNumeral written.toList word.toNat)
include numeral

theorem word_of_padded {before after : String}
    (blank : ∀ character ∈ before.toList ++ after.toList, Blank.isBlank character = true) :
    word? (before ++ written ++ after) = some word := by
  refine word_eq_some_iff.mpr ⟨before.toList, written.toList, after.toList, ?_, blank, numeral⟩
  rw [String.toList_append, String.toList_append]

theorem word_of_numeral : word? written = some word :=
  word_eq_some_iff.mpr ⟨[], written.toList, [], by simp, by simp, numeral⟩

end Printed

theorem word_hex_digits (width : Nat) (word : Word) :
    word? ("0x" ++ hexDigits width word.toNat) = some word :=
  word_of_numeral (is_numeral_hex_digits width word.toNat)

end Numeral
end LoongArch
