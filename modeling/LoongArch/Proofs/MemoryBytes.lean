import LoongArch.Memory
import Mathlib.Data.Nat.Digits.Defs

/-!
# Memory as a map from positions to bytes

Accesses move several bytes at once. They are read here as what they do to each byte, so that accesses
of different widths that overlap can be compared. Positions are natural numbers, since memory may reach
past the last address and a position does not wrap.
-/

set_option autoImplicit false

namespace LoongArch

namespace Word

theorem to_nat_add_of_lt {address : Word} {index : Nat} (below : address.toNat + index < 2 ^ 32) :
    (address + .ofNat index : Word).toNat = address.toNat + index := by
  rw [UInt32.toNat_add, UInt32.toNat_ofNat', Nat.add_mod_mod, Nat.mod_eq_of_lt below]

def littleEndian (bytes : List UInt8) : Nat :=
  Nat.ofDigits 256 (bytes.map UInt8.toNat)

theorem little_endian_cons (byte : UInt8) (rest : List UInt8) :
    littleEndian (byte :: rest) = byte.toNat + 256 * littleEndian rest :=
  Nat.ofDigits_cons

theorem little_endian_lt (bytes : List UInt8) : littleEndian bytes < 2 ^ (8 * bytes.length) := by
  have small : ∀ digit ∈ bytes.map UInt8.toNat, digit < 256 := by
    intro digit mem
    obtain ⟨byte, _, rfl⟩ := List.mem_map.mp mem
    exact byte.toNat_lt
  have bounded := Nat.ofDigits_lt_base_pow_length (by decide) small
  rwa [List.length_map, show 256 = 2 ^ 8 from rfl, ← Nat.pow_mul] at bounded

theorem to_nat_of_bytes {bytes : List UInt8} (short : bytes.length ≤ 4) :
    (ofBytes bytes).toNat = littleEndian bytes := by
  induction bytes with
  | nil => rfl
  | cons byte rest hypothesis =>
    have shorter : rest.length ≤ 3 := Nat.le_of_succ_le_succ short
    have low : byte.toUInt32.toNat < 2 ^ 8 := byte.toNat_lt
    have high : littleEndian rest < 2 ^ 24 :=
      Nat.lt_of_lt_of_le (little_endian_lt rest) (Nat.pow_le_pow_right (by decide) (by omega))
    have moved : (ofBytes rest <<< 8).toNat = littleEndian rest <<< 8 := by
      rw [UInt32.toNat_shiftLeft, hypothesis (by omega)]
      apply Nat.mod_eq_of_lt
      change littleEndian rest <<< 8 < _
      rw [Nat.shiftLeft_eq]
      omega
    rw [ofBytes, UInt32.toNat_or, moved, Nat.or_comm, ← Nat.shiftLeft_add_eq_or_of_lt low,
      Nat.shiftLeft_eq, little_endian_cons, UInt8.toNat_toUInt32]
    omega

theorem get_to_bytes {count index : Nat} (word : Word) (bound : index < count) :
    (toBytes count word)[index]? = some (.ofNat (word.toNat / 256 ^ index)) := by
  induction count generalizing word index with
  | zero => cases bound
  | succ count hypothesis =>
    cases index with
    | zero =>
      rw [toBytes, List.getElem?_cons_zero, Option.some_inj, Nat.pow_zero, Nat.div_one]
      rfl
    | succ index =>
      have shifted : (word >>> 8).toNat = word.toNat / 256 := by
        rw [UInt32.toNat_shiftRight, Nat.shiftRight_eq_div_pow]
        rfl
      rw [toBytes, List.getElem?_cons_succ, hypothesis _ (Nat.lt_of_succ_lt_succ bound), shifted,
        Nat.div_div_eq_div_mul, Nat.pow_succ, Nat.mul_comm]

end Word

namespace Memory

theorem to_list_eq (bytes : ByteArray) : bytes.toList = bytes.data.toList := by
  have remaining (index : Nat) (before : List UInt8) :
      ByteArray.toList.loop bytes index before =
        before.reverse ++ bytes.data.toList.drop index := by
    fun_induction ByteArray.toList.loop bytes index before with
    | case1 index before inside hypothesis =>
      have bound : index < bytes.data.toList.length := inside
      rw [hypothesis, List.drop_eq_getElem_cons bound]
      simp [ByteArray.get!, inside]
    | case2 index before outside =>
      rw [List.drop_eq_nil_of_le (Nat.le_of_not_lt outside), List.append_nil]
  exact remaining 0 []

theorem get_slice {bytes : ByteArray} {offset count index : Nat} (bound : index < count)
    (inside : offset + index < bytes.size) :
    (slice bytes offset count)[index]? = bytes[offset + index]? := by
  induction count generalizing offset index with
  | zero => cases bound
  | succ count hypothesis =>
    cases index with
    | zero => simp [slice, show offset < bytes.size from inside]
    | succ index =>
      have further : offset + 1 + index = offset + (index + 1) := by omega
      rw [slice, List.getElem?_cons_succ, hypothesis (Nat.lt_of_succ_lt_succ bound) (by omega), further]

theorem get_set (bytes : ByteArray) {offset : Nat} (inside : offset < bytes.size) (byte : UInt8)
    (index : Nat) :
    (bytes.set offset byte)[index]? = if index = offset then some byte else bytes[index]? := by
  have same : (bytes.set offset byte).size = bytes.size := Array.size_set ..
  by_cases present : index < bytes.size
  · rw [getElem?_pos bytes index present, getElem?_pos (bytes.set offset byte) index (by rwa [same]),
      ByteArray.getElem_eq_getElem_data]
    simp only [ByteArray.data_set, Array.getElem_set, eq_comm (a := offset)]
    split <;> rfl
  · have other : index ≠ offset := by omega
    rw [if_neg other, getElem?_neg bytes index present,
      getElem?_neg (bytes.set offset byte) index (by rwa [same])]

theorem get_replace {bytes : ByteArray} {offset : Nat} {contents : List UInt8}
    (inside : offset + contents.length ≤ bytes.size) (index : Nat) :
    (replace bytes offset contents)[index]? =
      if offset ≤ index ∧ index < offset + contents.length then contents[index - offset]?
      else bytes[index]? := by
  induction contents generalizing bytes offset with
  | nil =>
    rw [replace, if_neg]
    simp only [List.length_nil]
    omega
  | cons byte rest hypothesis =>
    simp only [List.length_cons] at inside ⊢
    have here : offset < bytes.size := by omega
    have same : (bytes.set offset byte).size = bytes.size := Array.size_set ..
    rw [replace, dif_pos here, hypothesis (by rw [same]; omega), get_set bytes here]
    rcases Nat.lt_trichotomy index offset with below | rfl | above
    · rw [if_neg (by omega), if_neg (by omega), if_neg (by omega)]
    · rw [if_neg (by omega), if_pos rfl, if_pos (by omega), Nat.sub_self]
      rfl
    · obtain ⟨further, rfl⟩ := Nat.exists_eq_add_of_lt above
      have within : offset + 1 ≤ offset + further + 1 ∧
          offset + further + 1 < offset + 1 + rest.length ↔
          offset ≤ offset + further + 1 ∧ offset + further + 1 < offset + (rest.length + 1) := by
        omega
      have index : offset + further + 1 - offset = (offset + further + 1 - (offset + 1)) + 1 := by
        omega
      simp only [within, index, List.getElem?_cons_succ, show offset + further + 1 ≠ offset by omega,
        if_false]

/-- The byte at a position, if it lies inside memory. -/
def byte? (memory : Memory) (position : Nat) : Option UInt8 :=
  if memory.base.toNat ≤ position then memory.bytes[position - memory.base.toNat]? else none

theorem byte_is_some_iff (memory : Memory) (position : Nat) :
    (memory.byte? position).isSome ↔
      memory.base.toNat ≤ position ∧ position < memory.base.toNat + memory.size := by
  unfold byte?
  split
  next above =>
    rw [isSome_getElem?]
    change position - memory.base.toNat < memory.size ↔ _
    omega
  next below => simp [below]

section Access

variable {memory : Memory} {address : Word}

theorem covers_iff {length : Nat} (positive : 0 < length) :
    memory.Covers address length ↔
      ∀ index < length, (memory.byte? (address.toNat + index)).isSome := by
  simp only [byte_is_some_iff, Covers]
  constructor
  · rintro ⟨lower, upper⟩ index bound
    omega
  · intro inside
    have first := inside 0 positive
    have last := inside (length - 1) (by omega)
    omega

theorem byte_get {length index : Nat} (inside : memory.Covers address length)
    (bound : index < length) :
    memory.byte? (address.toNat + index) = (memory.get address length)[index]? := by
  obtain ⟨lower, upper⟩ := inside
  have offset : memory.offset address + index = address.toNat + index - memory.base.toNat := by
    unfold Memory.offset
    omega
  have present : memory.offset address + index < memory.bytes.size := by
    change _ < memory.size
    unfold Memory.offset
    omega
  rw [byte?, if_pos (by omega), Memory.get, get_slice bound present, offset]

theorem byte_put {contents : List UInt8} (inside : memory.Covers address contents.length)
    (position : Nat) :
    (memory.put address contents).byte? position =
      if address.toNat ≤ position ∧ position < address.toNat + contents.length then
        contents[position - address.toNat]?
      else memory.byte? position := by
  obtain ⟨lower, upper⟩ := inside
  have fits : address.toNat - memory.base.toNat + contents.length ≤ memory.bytes.size := by
    change _ ≤ memory.size
    omega
  unfold byte? put
  by_cases above : memory.base.toNat ≤ position
  · have within : address.toNat - memory.base.toNat ≤ position - memory.base.toNat ∧
        position - memory.base.toNat < address.toNat - memory.base.toNat + contents.length ↔
        address.toNat ≤ position ∧ position < address.toNat + contents.length := by
      omega
    have index : position - memory.base.toNat - (address.toNat - memory.base.toNat) =
        position - address.toNat := by
      omega
    simp only [if_pos above, get_replace fits, within, index]
  · rw [if_neg above, if_neg (by omega), if_neg above]

theorem get_eq {contents : List UInt8} (inside : memory.Covers address contents.length)
    (bytes : ∀ index (bound : index < contents.length),
      memory.byte? (address.toNat + index) = some contents[index]) :
    memory.get address contents.length = contents := by
  refine List.ext_getElem (length_get ..) fun index _ bound => ?_
  rw [List.getElem_eq_iff, ← byte_get inside bound]
  exact bytes index bound

theorem read_ok_iff {length : Nat} (positive : 0 < length) {contents : List UInt8} :
    memory.read address length = .ok contents ↔
      contents.length = length ∧
        ∀ index (bound : index < contents.length),
          memory.byte? (address.toNat + index) = some contents[index] := by
  constructor
  · intro read
    unfold Memory.read at read
    split at read
    next inside =>
      cases read
      refine ⟨length_get .., fun index bound => ?_⟩
      rw [byte_get inside (by rwa [length_get] at bound), List.getElem?_eq_getElem bound]
    next => cases read
  · rintro ⟨rfl, bytes⟩
    have inside : memory.Covers address contents.length :=
      (covers_iff positive).mpr fun index bound => by simp [bytes index bound]
    rw [Memory.read, if_pos inside, get_eq inside bytes]

theorem read_word_ok_iff_bytes {length : Nat} (positive : 0 < length) {value : Word} :
    memory.readWord address length = .ok value ↔ ∃ contents : List UInt8,
      (contents.length = length ∧ ∀ index (bound : index < contents.length),
        memory.byte? (address.toNat + index) = some contents[index]) ∧
      Word.ofBytes contents = value := by
  simp only [← read_ok_iff positive]
  unfold readWord
  cases memory.read address length <;> simp [Except.map]

end Access
end Memory
end LoongArch
