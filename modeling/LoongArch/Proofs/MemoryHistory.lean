import LoongArch.Operation
import LoongArch.Proofs.MemoryBytes
import Mathlib.Data.List.Induction

/-!
# What memory remembers

Memory begins with zeros and serves requests of all kinds and widths, in any order, some of which fail.
At every position it holds the byte that the last request to reach the position has left there. A request
that fails reaches nothing, and no request moves or resizes memory.
-/

set_option autoImplicit false

namespace LoongArch

structure Extent where
  base : Word
  size : Nat

namespace Extent

/-- An access lies inside. Both ends are compared as numbers, and nothing wraps. -/
def Has (extent : Extent) (address : Word) (length : Nat) : Prop :=
  extent.base.toNat ≤ address.toNat ∧ address.toNat + length ≤ extent.base.toNat + extent.size

instance (extent : Extent) (address : Word) (length : Nat) : Decidable (extent.Has address length) :=
  inferInstanceAs (Decidable (_ ∧ _))

def fault (extent : Extent) (address : Word) (length : Nat) : AccessFault where
  address := address
  length := length
  base := extent.base
  size := extent.size

end Extent

namespace Memory

def extent (memory : Memory) : Extent where
  base := memory.base
  size := memory.size

/-- What can be asked of memory: to take in the bytes of an image, whether it has an address, and to read
or to write one, two or four bytes. -/
inductive Request where
  | load (address : Word) (bytes : List UInt8)
  | contains (address : Word)
  | read (address : Word) (width : AccessWidth)
  | write (address : Word) (width : AccessWidth) (value : Word)

inductive Answer where
  | done
  | present (answer : Bool)
  | value (value : Word)

abbrev Served := Memory × Except AccessFault Answer

def accept (memory : Memory) : Except AccessFault Memory → Served
  | .ok written => (written, .ok .done)
  | .error fault => (memory, .error fault)

/-- Serves a request: the memory after it, and the answer or the reason for which there is none. -/
def perform (memory : Memory) : Request → Served
  | .load address bytes => memory.accept (memory.write address bytes)
  | .contains address => (memory, .ok (.present (memory.contains address)))
  | .read address width => (memory, (memory.readWord address width.bytes).map .value)
  | .write address width value => memory.accept (memory.writeWord address width.bytes value)

def performAll (memory : Memory) (history : List Request) : Memory :=
  history.foldl (fun memory request => (memory.perform request).1) memory

/-- The lowest digits of a value to the base 256, the lowest one first. The others are cut off. -/
def digits (width : AccessWidth) (value : Word) : List UInt8 :=
  (List.range width.bytes).map fun index => .ofNat (value.toNat / 256 ^ index)

namespace Request

def address : Request → Word
  | load address _ | contains address | read address _ | write address _ _ => address

def contents : Request → List UInt8
  | load _ bytes => bytes
  | write _ width value => digits width value
  | contains _ | read _ _ => []

def byteAt? (extent : Extent) (request : Request) (position : Nat) : Option UInt8 :=
  if extent.Has request.address request.contents.length ∧ request.address.toNat ≤ position then
    request.contents[position - request.address.toNat]?
  else none

end Request

/-- The byte that the last request to reach a position has left there, or zero if none has. -/
def lastByte (extent : Extent) (history : List Request) (position : Nat) : UInt8 :=
  (history.reverse.findSome? (·.byteAt? extent position)).getD 0

/-- How a request ends that is to put bytes at an address: either they replace what was there, and all
other bytes are as before, or they do not all lie inside and nothing changes. -/
def Puts (memory : Memory) (address : Word) (contents : List UInt8) (served : Served) : Prop :=
  if memory.extent.Has address contents.length then
    served.2 = .ok .done ∧ served.1.extent = memory.extent ∧
    ∀ position, served.1.byte? position =
      if address.toNat ≤ position ∧ position < address.toNat + contents.length then
        contents[position - address.toNat]?
      else memory.byte? position
  else served = (memory, .error (memory.extent.fault address contents.length))

/-- What a memory holds after some requests, and how it serves the next one. -/
structure Remembers (extent : Extent) (history : List Request) (memory : Memory) : Prop where
  extent_eq : memory.extent = extent
  byte : ∀ position, memory.byte? position =
    if extent.base.toNat ≤ position ∧ position < extent.base.toNat + extent.size then
      some (lastByte extent history position)
    else none
  contains : ∀ address, memory.perform (.contains address) =
    (memory, .ok (.present (extent.base.toNat ≤ address.toNat ∧
      address.toNat < extent.base.toNat + extent.size)))
  read : ∀ address width, memory.perform (.read address width) =
    (memory,
      if extent.Has address width.bytes then
        .ok (.value (.ofNat (Word.littleEndian ((List.range width.bytes).map fun index =>
          lastByte extent history (address.toNat + index)))))
      else .error (extent.fault address width.bytes))
  load : ∀ address bytes, memory.Puts address bytes (memory.perform (.load address bytes))
  write : ∀ address width value,
    memory.Puts address (digits width value) (memory.perform (.write address width value))

theorem zero_bytes_eq (count : Nat) : zeroBytes count = ⟨Array.replicate count 0⟩ := by
  fun_induction zeroBytes count with
  | case1 => rfl
  | case2 count positive half even hypothesis =>
    apply ByteArray.ext
    simp only [half, hypothesis, ByteArray.data_append, Array.replicate_append_replicate]
    congr 1
    omega
  | case3 count positive half odd hypothesis =>
    apply ByteArray.ext
    simp only [half, hypothesis, ByteArray.data_push, ByteArray.data_append,
      Array.replicate_append_replicate, ← Array.replicate_succ]
    congr 1
    omega

theorem get_zero_bytes {count index : Nat} (bound : index < count) :
    (zeroBytes count)[index]? = some 0 := by
  have present : index < (zeroBytes count).size := by rwa [size_zero_bytes]
  rw [getElem?_pos (zeroBytes count) index present, ByteArray.getElem_eq_getElem_data]
  simp only [zero_bytes_eq, Array.getElem_replicate]

theorem size_zeros (base : Word) (size : Nat) : (zeros base size).size = size :=
  size_zero_bytes size

theorem byte_zeros (base : Word) (size position : Nat) :
    (zeros base size).byte? position =
      if base.toNat ≤ position ∧ position < base.toNat + size then some 0 else none := by
  split
  next inside =>
    rw [byte?, if_pos (show (zeros base size).base.toNat ≤ position from inside.1)]
    exact get_zero_bytes (by change position - base.toNat < size; omega)
  next outside =>
    rw [← Option.not_isSome_iff_eq_none, byte_is_some_iff, size_zeros]
    exact outside

theorem digits_eq (width : AccessWidth) (value : Word) :
    digits width value = Word.toBytes width.bytes value := by
  refine List.ext_getElem (by simp [digits]) fun index _ bound => ?_
  rw [eq_comm, List.getElem_eq_iff, Word.get_to_bytes value (by simpa using bound)]
  simp [digits]

theorem accept_write_puts (memory : Memory) (address : Word) (contents : List UInt8) :
    memory.Puts address contents (memory.accept (memory.write address contents)) := by
  unfold Puts write
  by_cases inside : memory.Covers address contents.length
  · have has : memory.extent.Has address contents.length := inside
    rw [if_pos has, if_pos inside]
    refine ⟨rfl, ?_, byte_put inside⟩
    simp only [accept, extent, base_put, size_put]
  · have misses : ¬memory.extent.Has address contents.length := inside
    rw [if_neg misses, if_neg inside]
    rfl

theorem load_puts (memory : Memory) (address : Word) (bytes : List UInt8) :
    memory.Puts address bytes (memory.perform (.load address bytes)) :=
  memory.accept_write_puts address bytes

theorem write_puts (memory : Memory) (address : Word) (width : AccessWidth) (value : Word) :
    memory.Puts address (digits width value) (memory.perform (.write address width value)) := by
  rw [digits_eq]
  exact memory.accept_write_puts address (Word.toBytes width.bytes value)

section Puts

variable {memory : Memory} {address : Word} {contents : List UInt8} {served : Served}
  (puts : memory.Puts address contents served)
include puts

theorem Puts.extent_eq : served.1.extent = memory.extent := by
  unfold Puts at puts
  split at puts
  next => exact puts.2.1
  next => rw [puts]

theorem Puts.byte (position : Nat) :
    served.1.byte? position =
      (if memory.extent.Has address contents.length ∧ address.toNat ≤ position then
        contents[position - address.toNat]?
      else none).or (memory.byte? position) := by
  unfold Puts at puts
  split at puts
  next has =>
    rw [puts.2.2]
    by_cases above : address.toNat ≤ position
    · by_cases below : position < address.toNat + contents.length
      · have present : position - address.toNat < contents.length := by omega
        rw [if_pos ⟨above, below⟩, if_pos ⟨has, above⟩, List.getElem?_eq_getElem present, Option.some_or]
      · rw [if_neg (by omega), if_pos ⟨has, above⟩, List.getElem?_eq_none (by omega), Option.none_or]
    · rw [if_neg (by omega), if_neg (by simp [above]), Option.none_or]
  next misses => rw [puts, if_neg (by simp [misses]), Option.none_or]

end Puts

theorem extent_perform (memory : Memory) (request : Request) :
    (memory.perform request).1.extent = memory.extent := by
  cases request with
  | load address bytes => exact (memory.load_puts address bytes).extent_eq
  | write address width value => exact (memory.write_puts address width value).extent_eq
  | contains | read => rfl

/-- A request leaves the bytes that it brings where it reaches, and every other byte as it was. -/
theorem byte_perform (memory : Memory) (request : Request) (position : Nat) :
    (memory.perform request).1.byte? position =
      (request.byteAt? memory.extent position).or (memory.byte? position) := by
  cases request with
  | load address bytes => exact (memory.load_puts address bytes).byte position
  | write address width value => exact (memory.write_puts address width value).byte position
  | contains | read => simp [Request.byteAt?, Request.contents, perform]

theorem inside_of_byte_at {extent : Extent} {request : Request} {position : Nat} {byte : UInt8}
    (left : request.byteAt? extent position = some byte) :
    extent.base.toNat ≤ position ∧ position < extent.base.toNat + extent.size := by
  unfold Request.byteAt? at left
  split at left
  next reaches =>
    obtain ⟨⟨lower, upper⟩, above⟩ := reaches
    have present := (List.getElem?_eq_some_iff.mp left).1
    omega
  next => cases left

theorem perform_contains (memory : Memory) (address : Word) :
    memory.perform (.contains address) =
      (memory, .ok (.present (memory.extent.base.toNat ≤ address.toNat ∧
        address.toNat < memory.extent.base.toNat + memory.extent.size))) := by
  have same : memory.contains address = decide (memory.extent.base.toNat ≤ address.toNat ∧
      address.toNat < memory.extent.base.toNat + memory.extent.size) :=
    decide_eq_decide.mpr Iff.rfl
  rw [perform, same]

theorem perform_read (memory : Memory) (address : Word) (width : AccessWidth) :
    memory.perform (.read address width) =
      (memory,
        if memory.extent.Has address width.bytes then
          .ok (.value (Word.ofBytes (memory.get address width.bytes)))
        else .error (memory.extent.fault address width.bytes)) := by
  rw [perform, readWord, Memory.read]
  by_cases inside : memory.Covers address width.bytes
  · rw [if_pos inside, if_pos (show memory.extent.Has address width.bytes from inside)]
    rfl
  · rw [if_neg inside, if_neg (show ¬memory.extent.Has address width.bytes from inside)]
    rfl

theorem of_bytes_get {memory : Memory} {address : Word} {width : AccessWidth} {byte : Nat → UInt8}
    (has : memory.extent.Has address width.bytes)
    (held : ∀ index < width.bytes, memory.byte? (address.toNat + index) =
      some (byte (address.toNat + index))) :
    Word.ofBytes (memory.get address width.bytes) =
      .ofNat (Word.littleEndian ((List.range width.bytes).map fun index =>
        byte (address.toNat + index))) := by
  obtain ⟨contents, made⟩ :
      ∃ contents, (List.range width.bytes).map (fun index => byte (address.toNat + index)) = contents :=
    ⟨_, rfl⟩
  have length : contents.length = width.bytes := by
    simp [← made]
  have listed : memory.get address contents.length = contents := by
    refine get_eq (by rwa [length]) fun index bound => ?_
    rw [held index (by omega)]
    simp [← made]
  have short : contents.length ≤ 4 := length ▸ width.bytes_le_four
  rw [made, ← length, listed, ← Word.to_nat_of_bytes short, UInt32.ofNat_toNat]

theorem last_byte_append (extent : Extent) (history : List Request) (request : Request)
    (position : Nat) :
    lastByte extent (history ++ [request]) position =
      (request.byteAt? extent position).getD (lastByte extent history position) := by
  unfold lastByte
  rw [List.reverse_append, List.reverse_singleton, List.singleton_append, List.findSome?_cons]
  cases request.byteAt? extent position <;> rfl

theorem perform_all_append (memory : Memory) (history : List Request) (request : Request) :
    memory.performAll (history ++ [request]) = ((memory.performAll history).perform request).1 := by
  rw [performAll, List.foldl_append]
  rfl

section History

variable (base : Word) (size : Nat) (history : List Request)

theorem extent_perform_all : ((zeros base size).performAll history).extent = ⟨base, size⟩ := by
  induction history using List.reverseRecOn with
  | nil =>
    rw [performAll, List.foldl_nil, extent, size_zeros]
    rfl
  | append_singleton history request hypothesis => rw [perform_all_append, extent_perform, hypothesis]

theorem byte_perform_all (position : Nat) :
    ((zeros base size).performAll history).byte? position =
      if base.toNat ≤ position ∧ position < base.toNat + size then
        some (lastByte ⟨base, size⟩ history position)
      else none := by
  induction history using List.reverseRecOn with
  | nil => exact byte_zeros base size position
  | append_singleton history request hypothesis =>
    rw [perform_all_append, byte_perform, extent_perform_all, hypothesis, last_byte_append]
    cases left : request.byteAt? ⟨base, size⟩ position with
    | none => rw [Option.none_or, Option.getD_none]
    | some byte =>
      have inside : base.toNat ≤ position ∧ position < base.toNat + size := inside_of_byte_at left
      rw [Option.some_or, Option.getD_some, if_pos inside]

/-- Whatever has been asked of a memory that began with zeros, it remembers what was last written to each
of its positions, and serves every request accordingly. -/
theorem remembers_history :
    Remembers ⟨base, size⟩ history ((zeros base size).performAll history) where
  extent_eq := extent_perform_all base size history
  byte := byte_perform_all base size history
  contains address := by
    rw [perform_contains, extent_perform_all]
  read address width := by
    rw [perform_read, extent_perform_all]
    split
    next has =>
      rw [of_bytes_get (extent_perform_all base size history ▸ has) fun index bound => ?_]
      rw [byte_perform_all, if_pos]
      obtain ⟨lower, upper⟩ := has
      dsimp only at lower upper
      omega
    next => rfl
  load address bytes := load_puts _ address bytes
  write address width value := write_puts _ address width value

end History

example : ((zeros 0 4).performAll
    [.write 0 .half 0x12345678, .load 4 [], .load 3 [9, 9], .write 3 .byte 0xAB]).readWord 0 4 =
      .ok 0xAB005678 := by
  decide +kernel

end Memory
end LoongArch
