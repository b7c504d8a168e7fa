import LoongArch.Word

/-!
# Bit patterns

A pattern fixes some bits of a word and leaves the others open. It is written as 32 positions, the
most significant first, each `0`, `1` or `?`; spaces and underscores may separate them. A pattern is
kept as a mask of the fixed positions together with their values, so that matching is one comparison.
-/

set_option autoImplicit false

namespace LoongArch

/-- A pattern of fixed bits. The bits of `bits` lie within `mask`. -/
structure Pattern where
  mask : Word
  bits : Word
deriving DecidableEq, Repr

inductive PatternError where
  | unexpectedCharacter
  | wrongLength
deriving DecidableEq, Repr

def PatternError.message : PatternError → String
  | unexpectedCharacter => "instruction pattern: expected 0, 1 or ?"
  | wrongLength => "instruction pattern must have exactly 32 positions"

namespace Pattern

/-- The pattern that fixes the leading `width` bits to those of `opcode`. Meant for `width < 32`. -/
def leading (width opcode : Word) : Pattern where
  mask := ~~~(0xFFFFFFFF >>> width)
  bits := opcode <<< (32 - width)

def accepts (pattern : Pattern) (word : Word) : Bool :=
  word &&& pattern.mask == pattern.bits

/-- Whether the mask and bits of one pattern force those of the other: what `outer` fixes is fixed
here as well, and to the same values. -/
def within (pattern outer : Pattern) : Bool :=
  outer.mask &&& ~~~pattern.mask == 0 && pattern.bits &&& outer.mask == outer.bits

/-- What has been read of a text. Every position moves the earlier ones up by one bit, so the first
positions of a text that is too long are lost. Their number is a signed 32-bit one, and wraps. -/
structure Reading where
  mask : Word := 0
  bits : Word := 0
  count : Int32 := 0
deriving DecidableEq, Repr

/-- Reads one byte of a text. A position comes in at the lowest bit, and a separator changes nothing.
No byte of a longer character is one of these. -/
def Reading.read (reading : Reading) (byte : UInt8) : Except PatternError Reading :=
  if byte = '0'.toUInt8 ∨ byte = '1'.toUInt8 ∨ byte = '?'.toUInt8 then
    let mask := reading.mask <<< 1
    let bits := reading.bits <<< 1
    .ok {
      mask := if byte = '?'.toUInt8 then mask else mask ||| 1
      bits := if byte = '1'.toUInt8 then bits ||| 1 else bits
      count := reading.count + 1 }
  else if byte = ' '.toUInt8 ∨ byte = '_'.toUInt8 then .ok reading
  else .error .unexpectedCharacter

/-- Reads a pattern. A stray character is reported before a wrong number of positions. -/
def ofText (text : String) : Except PatternError Pattern := do
  let reading ← text.toUTF8.data.toList.foldlM Reading.read {}
  if reading.count = 32 then return ⟨reading.mask, reading.bits⟩ else throw .wrongLength

end Pattern
end LoongArch
