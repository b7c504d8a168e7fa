import LoongArch.Assembly
import LoongArch.Machine.Run

/-!
# Traces

What a machine reports while it runs: every instruction it fetches, before it is carried out; the trap
of an instruction that failed; and the end of a run that a trap cut short. An instruction that cannot
be fetched is not reported.
-/

set_option autoImplicit false

namespace LoongArch

inductive Event where
  | fetched (pc word : Word)
  | trapped (trap : Trap) (word : Word)
  | stopped (steps : Nat)
deriving DecidableEq, Repr

def Event.line : Event → String
  | fetched pc word =>
    "TRACE itrace: " ++ Numeral.address pc.toNat ++ ": " ++ Numeral.hexDigits 8 word.toNat ++ "  " ++
      (Instruction.decode word).text pc
  | trapped trap word =>
    "DEBUG la32r_rs::cpu: instruction trapped trap=" ++ trap.message ++ " inst=" ++
      Numeral.hexDigits 8 word.toNat
  | stopped steps => "DEBUG la32r_rs::cpu: stopped steps=" ++ Numeral.decimal steps

namespace Machine

def stepEvents (machine : Machine) : List Event :=
  match machine.memory.fetch machine.cpu.pc with
  | .error _ => []
  | .ok fetched =>
    .fetched machine.cpu.pc fetched.word ::
      match machine.step.trap with
      | none => []
      | some trap => [.trapped trap fetched.word]

def runEventsFrom (steps : Nat) : (limit : Nat) → (machine : Machine) → List Event
  | 0, _ => []
  | limit + 1, machine =>
    machine.stepEvents ++
      match machine.step with
      | ⟨machine, none⟩ => runEventsFrom (steps + 1) limit machine
      | ⟨_, some _⟩ => [.stopped steps]

def runEvents (limit : Nat) (machine : Machine) : List Event :=
  machine.runEventsFrom 0 limit

end Machine
end LoongArch
