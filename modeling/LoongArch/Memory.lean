import LoongArch.Numeral

/-!
# Memory

A block of bytes that begins at a base address. An access names the address of its first byte and
reaches as many bytes as it moves; it has to lie inside the block as a whole. Addresses do not wrap:
an access that would run past the last address lies outside.
-/

set_option autoImplicit false

namespace LoongArch

structure AccessFault where
  address : Word
  length : Nat
  base : Word
  size : Nat
deriving DecidableEq, Repr

/-- The wording of a fault. The end of memory is written in full, also past the last address. -/
def AccessFault.message (fault : AccessFault) : String :=
  "address " ++ Numeral.address fault.address.toNat ++ " (+" ++ Numeral.decimal fault.length ++
    ") outside memory [" ++ Numeral.address fault.base.toNat ++ ", " ++
    Numeral.address (fault.base.toNat + fault.size) ++ ")"

/-- A block of bytes and the address of its first one. -/
structure Memory where
  base : Word
  bytes : ByteArray

namespace Memory

def zeroBytes (count : Nat) : ByteArray :=
  if count = 0 then .empty
  else
    let half := zeroBytes (count / 2)
    if count % 2 = 0 then half ++ half else (half ++ half).push 0
termination_by count

def zeros (base : Word) (size : Nat) : Memory where
  base := base
  bytes := zeroBytes size

def size (memory : Memory) : Nat :=
  memory.bytes.size

/-- An access lies inside memory. An empty one may also lie at its end. -/
def Covers (memory : Memory) (address : Word) (length : Nat) : Prop :=
  memory.base.toNat ≤ address.toNat ∧
    address.toNat + length ≤ memory.base.toNat + memory.size

/-- How the range of an access is tested. The distance from the base wraps for an address below it, and is
small for some of them, so the addresses are compared as well. -/
theorem covers_iff_distance (memory : Memory) (address : Word) (length : Nat) :
    memory.Covers address length ↔
      memory.base ≤ address ∧ (address - memory.base).toNat + length ≤ memory.size := by
  rw [Covers, UInt32.le_iff_toNat_le]
  refine and_congr_right fun lower => ?_
  rw [UInt32.toNat_sub_of_le _ _ (UInt32.le_iff_toNat_le.mpr lower)]
  omega

instance (memory : Memory) (address : Word) (length : Nat) :
    Decidable (memory.Covers address length) :=
  decidable_of_iff' _ (memory.covers_iff_distance address length)

def offset (memory : Memory) (address : Word) : Nat :=
  address.toNat - memory.base.toNat

def fault (memory : Memory) (address : Word) (length : Nat) : AccessFault where
  address := address
  length := length
  base := memory.base
  size := memory.size

def contains (memory : Memory) (address : Word) : Bool :=
  memory.Covers address 1

/-- Bytes of a block from an offset on; there are zeros past its end. -/
def slice (bytes : ByteArray) (offset : Nat) : (count : Nat) → List UInt8
  | 0 => []
  | count + 1 =>
    (if inside : offset < bytes.size then bytes[offset] else 0) :: slice bytes (offset + 1) count

/-- Replaces bytes of a block from an offset on; nothing is written past its end. -/
def replace (bytes : ByteArray) (offset : Nat) : List UInt8 → ByteArray
  | [] => bytes
  | byte :: rest =>
    if inside : offset < bytes.size then replace (bytes.set offset byte) (offset + 1) rest
    else bytes

def get (memory : Memory) (address : Word) (length : Nat) : List UInt8 :=
  slice memory.bytes (memory.offset address) length

def put (memory : Memory) (address : Word) (bytes : List UInt8) : Memory :=
  { memory with bytes := replace memory.bytes (address.toNat - memory.base.toNat) bytes }

def read (memory : Memory) (address : Word) (length : Nat) : Except AccessFault (List UInt8) :=
  if memory.Covers address length then .ok (memory.get address length)
  else .error (memory.fault address length)

def write (memory : Memory) (address : Word) (bytes : List UInt8) : Except AccessFault Memory :=
  if memory.Covers address bytes.length then .ok (memory.put address bytes)
  else .error (memory.fault address bytes.length)

def readWord (memory : Memory) (address : Word) (length : Nat) : Except AccessFault Word :=
  (memory.read address length).map Word.ofBytes

def writeWord (memory : Memory) (address : Word) (length : Nat) (value : Word) :
    Except AccessFault Memory :=
  memory.write address (Word.toBytes length value)

theorem read_word_ok_iff {memory : Memory} {address value : Word} {length : Nat} :
    memory.readWord address length = .ok value ↔
      memory.Covers address length ∧ Word.ofBytes (memory.get address length) = value := by
  unfold readWord read
  split <;> simp_all [Except.map]

theorem read_word_error_iff {memory : Memory} {address : Word} {length : Nat} {fault : AccessFault} :
    memory.readWord address length = .error fault ↔
      ¬memory.Covers address length ∧ memory.fault address length = fault := by
  unfold readWord read
  split <;> simp_all [Except.map]

theorem write_word_ok_iff {memory after : Memory} {address value : Word} {length : Nat} :
    memory.writeWord address length value = .ok after ↔
      memory.Covers address length ∧ memory.put address (Word.toBytes length value) = after := by
  unfold writeWord write
  rw [Word.length_to_bytes]
  split <;> simp_all

theorem size_zero_bytes (count : Nat) : (zeroBytes count).size = count := by
  fun_induction zeroBytes count with
  | case1 => rfl
  | case2 count positive half even hypothesis =>
    simp only [half, ByteArray.size_append, hypothesis]
    omega
  | case3 count positive half odd hypothesis =>
    simp only [half, ByteArray.size_push, ByteArray.size_append, hypothesis]
    omega

@[simp] theorem size_replace (bytes : ByteArray) (offset : Nat) (contents : List UInt8) :
    (replace bytes offset contents).size = bytes.size := by
  induction contents generalizing bytes offset with
  | nil => rfl
  | cons byte rest hypothesis =>
    unfold replace
    split
    · rw [hypothesis]
      exact Array.size_set ..
    · rfl

@[simp] theorem size_put (memory : Memory) (address : Word) (contents : List UInt8) :
    (memory.put address contents).size = memory.size :=
  size_replace ..

@[simp] theorem base_put (memory : Memory) (address : Word) (contents : List UInt8) :
    (memory.put address contents).base = memory.base :=
  rfl

@[simp] theorem length_slice (bytes : ByteArray) (offset count : Nat) :
    (slice bytes offset count).length = count := by
  induction count generalizing offset with
  | zero => rfl
  | succ count hypothesis => simp [slice, hypothesis]

@[simp] theorem length_get (memory : Memory) (address : Word) (length : Nat) :
    (memory.get address length).length = length :=
  length_slice ..

end Memory
end LoongArch
