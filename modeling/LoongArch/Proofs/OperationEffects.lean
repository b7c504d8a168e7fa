import LoongArch.Flow.Edge

/-!
# Effects of operations

The effects of a template depend on its operation alone. This is checked row by row, and from it the
edges that leave an instruction are read off its operation instead of its flags.
-/

set_option autoImplicit false

namespace LoongArch

def Operation.effects : Operation → Effects
  | alu _ | mulDiv _ | pcaddu12i | lu12iW => .ofList [.writesDestination]
  | load _ _ => .ofList [.writesDestination, .load]
  | store _ => .ofList [.store]
  | jump => .ofList [.jump]
  | call => .ofList [.jump, .call]
  | jumpRegister => .ofList [.writesDestination, .jump, .indirect]
  | branch _ => .ofList [.branch]
  | dataBarrier | instructionBarrier => .empty
  | breakpoint | invalid => .ofList [.halt]

namespace InstructionSet

theorem invalid_mem_templates : invalid ∈ templates := by
  simp [templates]

theorem lookup_mem_templates (word : Word) : lookup word ∈ templates := by
  unfold lookup
  cases found : templates.find? (·.pattern.accepts word) with
  | none => exact invalid_mem_templates
  | some template => exact List.mem_of_find?_eq_some found

theorem effects_of_mem_templates :
    ∀ template ∈ templates, template.effects = template.operation.effects := by
  decide

theorem effects_lookup (word : Word) :
    (lookup word).effects = (Instruction.decode word).operation.effects :=
  effects_of_mem_templates _ (lookup_mem_templates word)

end InstructionSet

theorem Edge.leaving_eq (pc word : Word) :
    Edge.leaving pc word =
      let instruction := Instruction.decode word
      let following : Edge := ⟨pc, pc + 4, .fallthrough⟩
      match instruction.operation with
      | .breakpoint | .invalid => []
      | .jumpRegister => if instruction.rd = 0 then [] else [following]
      | .call => [⟨pc, instruction.target pc, .call⟩, following]
      | .jump => [⟨pc, instruction.target pc, .jump⟩]
      | .branch _ => [⟨pc, instruction.target pc, .branch⟩, following]
      | _ => [following] := by
  simp only [leaving, InstructionSet.effects_lookup]
  cases (Instruction.decode word).operation <;> simp [Operation.effects]

end LoongArch
