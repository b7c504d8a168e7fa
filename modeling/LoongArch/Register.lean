import LoongArch.Word

/-!
# General registers

There are 32 registers. Instructions name them by number and assembly text by name. Three numbers have
a fixed use: register 0 is meant to read as zero, register 1 receives return addresses, and register 4
carries the code with which a program stops.
-/

set_option autoImplicit false

namespace LoongArch

abbrev Register := Fin 32

namespace Register

def count : Nat := 32

def zero : Register := 0

def returnAddress : Register := 1

def argument : Register := 4

def ofByte (byte : UInt8) : Register :=
  ⟨byte.toNat % 32, Nat.mod_lt _ (by decide)⟩

def names : Vector String 32 :=
  #v["zero", "ra", "tp", "sp", "a0", "a1", "a2", "a3", "a4", "a5", "a6", "a7", "t0", "t1", "t2", "t3",
    "t4", "t5", "t6", "t7", "t8", "r21", "fp", "s0", "s1", "s2", "s3", "s4", "s5", "s6", "s7", "s8"]

def text (register : Register) : String :=
  "$" ++ names[register]

end Register

abbrev RegisterFile := Vector Word 32

namespace RegisterFile

def cleared : RegisterFile := Vector.replicate 32 0

def read (file : RegisterFile) (register : Register) : Word :=
  file[register]

def write (file : RegisterFile) (register : Register) (value : Word) : RegisterFile :=
  file.set register value

theorem read_write (file : RegisterFile) (target register : Register) (value : Word) :
    (file.write target value).read register =
      if register = target then value else file.read register := by
  simp only [read, write, Fin.getElem_fin, Vector.getElem_set, Fin.ext_iff, eq_comm]

@[simp] theorem read_cleared (register : Register) : cleared.read register = 0 := by
  simp [cleared, read]

end RegisterFile
end LoongArch
