import LoongArch.Instruction

/-!
# Edges of the control flow

Where a program may go on after an instruction, as far as the instruction alone tells. The effects of
the instruction decide: one that halts leads nowhere, and one that takes its target from a register
leads, if it keeps a return address, to the place to which the callee returns.
-/

set_option autoImplicit false

namespace LoongArch

inductive EdgeKind where
  | fallthrough
  | jump
  | branch
  | call
deriving DecidableEq, Repr

structure Edge where
  source : Word
  target : Word
  kind : EdgeKind
deriving DecidableEq, Repr

/-- The edges that leave the instruction `word` at `pc`, in the order in which they are followed. -/
def Edge.leaving (pc word : Word) : List Edge :=
  let effects := (InstructionSet.lookup word).effects
  let instruction := Instruction.decode word
  let following : Edge := ⟨pc, pc + 4, .fallthrough⟩
  let elsewhere (kind : EdgeKind) : Edge := ⟨pc, instruction.target pc, kind⟩
  if effects.has .halt then []
  else if effects.has .indirect then if instruction.rd = 0 then [] else [following]
  else if effects.has .call then [elsewhere .call, following]
  else if effects.has .jump then [elsewhere .jump]
  else if effects.has .branch then [elsewhere .branch, following]
  else [following]

namespace Edge

theorem length_leaving_le (pc word : Word) : (leaving pc word).length ≤ 2 := by
  simp only [leaving]
  repeat' split
  all_goals simp

theorem source_of_mem_leaving {pc word : Word} {edge : Edge} (leaves : edge ∈ leaving pc word) :
    edge.source = pc := by
  simp only [leaving] at leaves
  repeat' split at leaves
  all_goals simp at leaves
  all_goals rcases leaves with rfl | rfl <;> rfl

theorem target_of_mem_leaving {pc word : Word} {edge : Edge} (leaves : edge ∈ leaving pc word) :
    edge.target = pc + 4 ∨ edge.target = (Instruction.decode word).target pc := by
  simp only [leaving] at leaves
  repeat' split at leaves
  all_goals simp at leaves
  all_goals rcases leaves with rfl | rfl <;> simp

theorem nodup_leaving (pc word : Word) : (leaving pc word).Nodup := by
  simp only [leaving]
  repeat' split
  all_goals simp

end Edge
end LoongArch
