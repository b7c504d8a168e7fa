import LoongArch.Arithmetic
import LoongArch.Register
import LoongArch.Trap

/-!
# The state of a machine

A machine is a processor with its memory. The processor keeps its configuration, so that it can be
started again.
-/

set_option autoImplicit false

namespace LoongArch

structure Config where
  resetPc : Word := 0x1C000000
  divideByZero : DivideByZeroPolicy := .trap
deriving DecidableEq, Repr

structure Cpu where
  pc : Word
  registers : RegisterFile
  config : Config
deriving DecidableEq, Repr

namespace Cpu

def ofConfig (config : Config) : Cpu where
  pc := config.resetPc
  registers := .cleared
  config := config

def reset (cpu : Cpu) (pc : Word) : Cpu :=
  { cpu with pc := pc, registers := .cleared }

end Cpu

structure Machine where
  cpu : Cpu
  memory : Memory

namespace Machine

def register (machine : Machine) (register : Register) : Word :=
  machine.cpu.registers.read register

def setRegister (machine : Machine) (register : Register) (value : Word) : Machine :=
  { machine with cpu.registers := machine.cpu.registers.write register value }

def setPc (machine : Machine) (pc : Word) : Machine :=
  { machine with cpu.pc := pc }

end Machine
end LoongArch
