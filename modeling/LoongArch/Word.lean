/-!
# Machine words

Registers, addresses and instructions are 32-bit words. An instruction keeps its operands in runs of
bits of its word, and memory keeps a word as bytes with the low byte first. All arithmetic on words
wraps; the signed reading of a word is its two's complement.
-/

set_option autoImplicit false

namespace LoongArch

/-- A 32-bit machine word. -/
abbrev Word := UInt32

namespace Word

/-- The bits `high` down to `low` of a word, moved to bit 0. The left shift drops what lies above
`high`, so no mask is needed. Meant for `low ≤ high ≤ 31`. -/
def bits (word high low : Word) : Word :=
  (word <<< (31 - high)) >>> (31 - high + low)

def shiftRightSigned (word amount : Word) : Word :=
  (word.toInt32 >>> amount.toInt32).toUInt32

/-- Copies bit `width - 1` into every higher bit: that bit is moved to the top, and the shift back
repeats it. Meant for `1 ≤ width ≤ 32`. -/
def signExtend (value width : Word) : Word :=
  shiftRightSigned (value <<< (32 - width)) (32 - width)

def ofBool (answer : Bool) : Word :=
  if answer then 1 else 0

def toBytes : (count : Nat) → (word : Word) → List UInt8
  | 0, _ => []
  | count + 1, word => word.toUInt8 :: toBytes count (word >>> 8)

def ofBytes : List UInt8 → Word
  | [] => 0
  | byte :: rest => byte.toUInt32 ||| ofBytes rest <<< 8

@[simp] theorem length_to_bytes (count : Nat) (word : Word) :
    (toBytes count word).length = count := by
  induction count generalizing word with
  | zero => rfl
  | succ count hypothesis => simp [toBytes, hypothesis]

end Word
end LoongArch
