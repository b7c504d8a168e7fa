import LoongArch.Proofs.Machine.Lockstep
import LoongArch.Proofs.MemoryBytes

/-!
# Larger memory

A program notices how much memory there is only by an access that fails. Bytes behind the end of memory
are neither read nor written by an access that succeeds without them, so a run that raises no bus trap is
the same run with these bytes added, and they stay as they are.
-/

set_option autoImplicit false

namespace LoongArch

def Trap.isBus : Trap → Bool
  | bus _ _ => true
  | invalidInstruction _ | breakpoint _ _ | divideByZero _ => false

namespace Memory

theorem slice_append {bytes : ByteArray} {offset count : Nat} (inside : offset + count ≤ bytes.size)
    (extra : ByteArray) : slice (bytes ++ extra) offset count = slice bytes offset count := by
  induction count generalizing offset with
  | zero => rfl
  | succ count hypothesis =>
    have here : offset < bytes.size := by omega
    have larger : offset < (bytes ++ extra).size := by
      rw [ByteArray.size_append]
      omega
    rw [slice, slice, dif_pos here, dif_pos larger, ByteArray.getElem_append_left here,
      hypothesis (by omega)]

theorem set_append {bytes : ByteArray} {offset : Nat} (here : offset < bytes.size)
    (extra : ByteArray) (larger : offset < (bytes ++ extra).size) (byte : UInt8) :
    (bytes ++ extra).set offset byte = bytes.set offset byte ++ extra := by
  apply ByteArray.ext
  simp only [ByteArray.data_set, ByteArray.data_append]
  exact Array.set_append_left here

theorem replace_append {bytes : ByteArray} {offset : Nat} {contents : List UInt8}
    (inside : offset + contents.length ≤ bytes.size) (extra : ByteArray) :
    replace (bytes ++ extra) offset contents = replace bytes offset contents ++ extra := by
  induction contents generalizing bytes offset with
  | nil => rfl
  | cons byte rest hypothesis =>
    rw [List.length_cons] at inside
    have here : offset < bytes.size := by omega
    have larger : offset < (bytes ++ extra).size := by
      rw [ByteArray.size_append]
      omega
    have same : (bytes.set offset byte).size = bytes.size := Array.size_set ..
    rw [replace, replace, dif_pos here, dif_pos larger, set_append here,
      hypothesis (by rw [same]; omega)]

def enlarged (memory : Memory) (extra : ByteArray) : Memory :=
  { memory with bytes := memory.bytes ++ extra }

section Enlarged

variable {memory : Memory} {address : Word} {length : Nat}

theorem covers_enlarged (inside : memory.Covers address length) (extra : ByteArray) :
    (memory.enlarged extra).Covers address length := by
  have base : (memory.enlarged extra).base = memory.base := rfl
  have size : (memory.enlarged extra).size = memory.size + extra.size := ByteArray.size_append
  obtain ⟨lower, upper⟩ := inside
  rw [Covers, base, size]
  omega

theorem offset_add_le (inside : memory.Covers address length) :
    memory.offset address + length ≤ memory.bytes.size := by
  obtain ⟨lower, upper⟩ := inside
  change _ ≤ memory.size
  rw [offset]
  omega

theorem get_enlarged (inside : memory.Covers address length) (extra : ByteArray) :
    (memory.enlarged extra).get address length = memory.get address length :=
  slice_append (offset_add_le inside) extra

theorem read_word_enlarged (inside : memory.Covers address length) (extra : ByteArray) :
    (memory.enlarged extra).readWord address length = memory.readWord address length := by
  rw [read_word_ok_iff.mpr ⟨inside, rfl⟩]
  exact read_word_ok_iff.mpr
    ⟨covers_enlarged inside extra, congrArg Word.ofBytes (get_enlarged inside extra)⟩

theorem put_enlarged {contents : List UInt8} (inside : memory.Covers address contents.length)
    (extra : ByteArray) :
    (memory.enlarged extra).put address contents = (memory.put address contents).enlarged extra :=
  congrArg (Memory.mk memory.base) (replace_append (offset_add_le inside) extra)

end Enlarged

end Memory

namespace Machine

def enlarged (machine : Machine) (extra : ByteArray) : Machine :=
  { machine with memory := machine.memory.enlarged extra }

theorem transparent_enlarged (extra : ByteArray) : Transparent (·.enlarged extra) Trap.isBus where
  pc _ := rfl
  registers _ := rfl
  setRegister _ _ _ := rfl
  setPc _ _ := rfl
  divide _ _ _ _ := .inl rfl
  read machine address length := by
    by_cases inside : machine.memory.Covers address length
    · exact .inl (Memory.read_word_enlarged inside extra)
    · exact .inr ⟨_, Memory.read_word_error_iff.mpr ⟨inside, rfl⟩, rfl⟩
  accept _ _ _ inside := Memory.covers_enlarged inside extra
  put machine _ _ inside := congrArg (Machine.mk machine.cpu) (Memory.put_enlarged inside extra)
  refuse _ _ _ _ := .inr rfl

/-- A run that raises no bus trap ends in the same way with more memory, and the bytes behind the end are
as before. One that raises a bus trap passes through the same states with more memory until then. -/
theorem run_enlarged (machine : Machine) (extra : ByteArray) (limit : Nat) :
    let finished := machine.run limit
    (finished.trap.any Trap.isBus = false →
      (machine.enlarged extra).run limit = finished.map (·.enlarged extra)) ∧
    Abreast (·.enlarged extra) machine finished.steps :=
  ⟨(transparent_enlarged extra).run_eq machine limit,
    (transparent_enlarged extra).abreast_run machine limit⟩

def filling : Machine where
  cpu := .ofConfig { resetPc := 0 }
  memory := ⟨0, ⟨#[0x04, 0xF8, 0xBF, 0x02, 0x04, 0x30, 0x80, 0x29, 0x00, 0x00, 0x2A, 0x00, 0, 0, 0, 0]⟩⟩

/-- Its store reaches to the end of memory and leaves a byte behind the end alone. -/
theorem filling_enlarged :
    let finished := filling.run 5
    let larger := (filling.enlarged ⟨#[7]⟩).run 5
    finished.trap = some (.breakpoint 8 0xFFFFFFFE) ∧ finished.steps = 2 ∧
    larger.trap = some (.breakpoint 8 0xFFFFFFFE) ∧ larger.steps = 2 ∧
    larger.machine = finished.machine.enlarged ⟨#[7]⟩ ∧
    Abreast (·.enlarged ⟨#[7]⟩) filling 2 := by
  have trapped : (filling.run 5).trap = some (.breakpoint 8 0xFFFFFFFE) := by decide +kernel
  have twice : (filling.run 5).steps = 2 := by decide +kernel
  obtain ⟨joint, abreast⟩ := run_enlarged filling ⟨#[7]⟩ 5
  have same := joint (by rw [trapped]; rfl)
  rw [twice] at abreast
  refine ⟨trapped, twice, ?_, ?_, ?_, abreast⟩
  · rw [same]
    exact trapped
  · rw [same]
    exact twice
  · rw [same]
    rfl

end Machine
end LoongArch
