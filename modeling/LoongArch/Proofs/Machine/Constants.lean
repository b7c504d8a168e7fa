import LoongArch.Proofs.Machine.Integer
import LoongArch.Proofs.Machine.Run

/-!
# Constants made of two instructions

No instruction carries a whole word. Two of them give a register any value, or any address by its
distance from the program counter: the first one sets the upper twenty bits and the second one adds the
other twelve. A logical instruction takes these as they are. An addition reads them as signed, so the
upper part is rounded first.
-/

set_option autoImplicit false

namespace LoongArch

namespace Word

def upper (word : Word) : BitVec 20 :=
  .ofNat 20 (word.toNat / 2 ^ 12)

def lower (word : Word) : BitVec 12 :=
  .ofNat 12 word.toNat

section Fields

variable {word : Word} {target source : Register}

end Fields
end Word

theorem Operation.filled {operation : Operation}
    (listed : InstructionSet.describe operation ∈ InstructionSet.known)
    (fields : Fields (InstructionSet.describe operation).format) :
    (operation.encode fields).toNat % 2 ^ (InstructionSet.describe operation).format.openBits =
      fields.placed :=
  Template.to_nat_encode_mod listed fields

namespace Machine

section Instructions

variable {machine : Machine} {target : Register} (zero : machine.register .zero = 0)
include zero

end Instructions

def loading : Machine where
  cpu := .ofConfig {}
  memory := ⟨0x1C000000, ⟨#[0x64, 0x5B, 0xBD, 0x15, 0x84, 0xBC, 0xBB, 0x03]⟩⟩

def reaching : Machine where
  cpu := .ofConfig {}
  memory := ⟨0x1C000000, ⟨#[0x84, 0x5B, 0x85, 0x1D, 0x84, 0xBC, 0xBB, 0x02]⟩⟩

end Machine
end LoongArch
