import LoongArch.Blank
import LoongArch.Word

/-!
# Numerals

How numbers are written and read. Addresses are written as `0x` and at least eight hexadecimal digits.
A reader takes any number of leading zeros and one plus sign in front of the digits, and refuses a
number that does not fit.
-/

set_option autoImplicit false

namespace LoongArch

namespace Numeral

def decimal (number : Nat) : String :=
  String.ofList (Nat.toDigits 10 number)

def signed (word : Word) : String :=
  if word.toInt32 < 0 then "-" ++ decimal (0 - word).toNat else decimal word.toNat

/-- The hexadecimal digits of a number, with zeros in front up to `width` digits. -/
def hexDigits (width number : Nat) : String :=
  let digits := Nat.toDigits 16 number
  String.ofList (List.replicate (width - digits.length) '0' ++ digits)

def hex (number : Nat) : String :=
  "0x" ++ hexDigits 1 number

/-- An address: eight hexadecimal digits, or more where it needs them. -/
def address (number : Nat) : String :=
  "0x" ++ hexDigits 8 number

def digitValue? (base : Nat) (character : Char) : Option Nat :=
  let value? :=
    if '0' ≤ character ∧ character ≤ '9' then some (character.toNat - '0'.toNat)
    else if 'a' ≤ character ∧ character ≤ 'f' then some (character.toNat - 'a'.toNat + 10)
    else if 'A' ≤ character ∧ character ≤ 'F' then some (character.toNat - 'A'.toNat + 10)
    else none
  value?.filter (· < base)

def appendDigits? (base : Nat) (number : Nat) : List Char → Option Nat
  | [] => some number
  | digit :: rest =>
    (digitValue? base digit).bind fun value => appendDigits? base (number * base + value) rest

/-- Reads a number below `limit`: one plus sign at most, then one digit or more. -/
def natural? (base limit : Nat) (text : List Char) : Option Nat :=
  let digits := match text with
    | '+' :: rest => rest
    | _ => text
  if digits.isEmpty then none else (appendDigits? base 0 digits).filter (· < limit)

/-- Reads a word. White space around it is ignored, `0x` or `0X` announces hexadecimal, and the number
is decimal otherwise. -/
def word? (text : String) : Option Word :=
  let number? := match Blank.trim text.toList with
    | '0' :: 'x' :: digits | '0' :: 'X' :: digits => natural? 16 UInt32.size digits
    | digits => natural? 10 UInt32.size digits
  number?.map UInt32.ofNat

/-- Reads a count: decimal, of at most 64 bits, without white space. -/
def count? (text : String) : Option Nat :=
  natural? 10 UInt64.size text.toList

end Numeral
end LoongArch
