import LoongArch.Machine.Execute

/-!
# Steps and runs

A step fetches one instruction, decodes it and carries it out. The program counter moves only if that
succeeds. Register 0 is cleared after every instruction that was fetched, so it reads as zero whatever
the instruction wrote. A run makes steps until one of them traps or a limit is reached.
-/

set_option autoImplicit false

namespace LoongArch

structure Fetched where
  word : Word
  following : Word
deriving DecidableEq, Repr

def Memory.fetch (memory : Memory) (pc : Word) : Except Trap Fetched :=
  match memory.readWord pc 4 with
  | .ok word => .ok ⟨word, pc + 4⟩
  | .error fault => .error (.bus pc fault)

structure Stepped where
  machine : Machine
  trap : Option Trap

structure Finished where
  machine : Machine
  steps : Nat
  trap : Option Trap

namespace Machine

def step (machine : Machine) : Stepped :=
  let pc := machine.cpu.pc
  match machine.memory.fetch pc with
  | .error trap => ⟨machine, some trap⟩
  | .ok fetched =>
    let cursor := { pc, sequential := fetched.following }
    let executed := machine.execute cursor (Instruction.decode fetched.word)
    let cleared := executed.machine.setRegister .zero 0
    match executed.trap with
    | none => ⟨cleared.setPc executed.cursor.next, none⟩
    | some trap => ⟨cleared, some trap⟩

def runFrom (steps : Nat) : (limit : Nat) → (machine : Machine) → Finished
  | 0, machine => ⟨machine, steps, none⟩
  | limit + 1, machine =>
    match machine.step with
    | ⟨machine, none⟩ => runFrom (steps + 1) limit machine
    | ⟨machine, some trap⟩ => ⟨machine, steps, some trap⟩

def run (limit : Nat) (machine : Machine) : Finished :=
  machine.runFrom 0 limit

end Machine
end LoongArch
