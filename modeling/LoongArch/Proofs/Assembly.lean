import LoongArch.Assembly
import LoongArch.Proofs.Arithmetic
import LoongArch.Proofs.Encoding
import LoongArch.Proofs.Numerals
import LoongArch.Proofs.OperationEffects
import Mathlib.Data.List.FinRange

/-!
# Assembly text determines the instruction

At a known place no two words have the same text. A text falls into its parts at the first separators,
since neither a mnemonic contains a space nor a register name a comma. The first part then names the
template, and each of the others, be it a name, a numeral or a target, determines the bits of the word
that it was written from.
-/

set_option autoImplicit false

namespace LoongArch

theorem parts_eq_of_separated {α : Type} {separator : α} {first second rest other : List α}
    (left : separator ∉ first) (right : separator ∉ second)
    (same : first ++ separator :: rest = second ++ separator :: other) :
    first = second ∧ rest = other := by
  induction first generalizing second with
  | nil =>
    cases second with
    | nil => exact ⟨rfl, (List.cons.inj same).2⟩
    | cons head _ =>
      obtain ⟨starts, _⟩ := List.cons.inj same
      exact absurd (starts ▸ List.mem_cons_self) right
  | cons head first hypothesis =>
    cases second with
    | nil =>
      obtain ⟨starts, _⟩ := List.cons.inj same
      exact absurd (starts ▸ List.mem_cons_self) left
    | cons _ second =>
      obtain ⟨rfl, remaining⟩ := List.cons.inj same
      obtain ⟨rfl, ending⟩ := hypothesis (fun listed => left (.tail _ listed))
        (fun listed => right (.tail _ listed)) remaining
      exact ⟨rfl, ending⟩

theorem texts_eq_of_separated {separator first second rest other : String} {character : Char} {tail : List Char}
    (starts : separator.toList = character :: tail)
    (left : character ∉ first.toList) (right : character ∉ second.toList)
    (same : first ++ (separator ++ rest) = second ++ (separator ++ other)) :
    first = second ∧ rest = other := by
  have characters := congrArg String.toList same
  simp only [String.toList_append, starts, List.cons_append] at characters
  obtain ⟨before, after⟩ := parts_eq_of_separated left right characters
  exact ⟨String.toList_inj.mp before, String.toList_inj.mp (List.append_cancel_left after)⟩

namespace Register

theorem eq_of_text {first second : Register} (same : first.text = second.text) : first = second := by
  have distinct : ((List.finRange 32).map text).Nodup := by decide
  exact List.inj_on_of_nodup_map distinct (List.mem_finRange first) (List.mem_finRange second) same

theorem comma_not_mem_text : ∀ register : Register, ',' ∉ register.text.toList := by
  decide

end Register

def Operation.head : Operation → String
  | invalid => ".word"
  | operation => (InstructionSet.describe operation).mnemonic

theorem Operation.head_of_valid {operation : Operation} (valid : operation ≠ .invalid) :
    operation.head = (InstructionSet.describe operation).mnemonic := by
  cases operation with
  | invalid => exact absurd rfl valid
  | _ => rfl

def Operation.format : Operation → Format
  | alu operation => operation.format
  | mulDiv _ => .reg3
  | pcaddu12i | lu12iW => .reg1Si20
  | load _ _ | store _ => .reg2Si12
  | jump | call => .si26
  | jumpRegister | branch _ => .reg2Si16
  | dataBarrier | instructionBarrier => .hint16
  | breakpoint | invalid => .bare

namespace InstructionSet

theorem format_of_known : ∀ template ∈ known,
    template.operation ≠ .invalid ∧ template.format = template.operation.format := by
  decide

theorem mnemonic_of_known : ∀ template ∈ known,
    template.mnemonic ≠ ".word" ∧ ' ' ∉ template.mnemonic.toList := by
  decide

section Head

variable {template first second : Template}

theorem head_of_known (listed : template ∈ known) : template.operation.head = template.mnemonic := by
  rw [Operation.head_of_valid (format_of_known _ listed).1, describe_known _ listed]

theorem space_not_mem_head (listed : template ∈ templates) :
    ' ' ∉ template.operation.head.toList := by
  rcases mem_templates.mp listed with known | rfl
  · rw [head_of_known known]
    exact (mnemonic_of_known _ known).2
  · decide

theorem eq_of_head (left : first ∈ templates) (right : second ∈ templates)
    (same : first.operation.head = second.operation.head) : first = second := by
  rcases mem_templates.mp left with left | rfl <;> rcases mem_templates.mp right with right | rfl
  · rw [head_of_known left, head_of_known right] at same
    exact known_mnemonic first left second right same
  · rw [head_of_known left] at same
    exact absurd same (mnemonic_of_known first left).1
  · rw [head_of_known right] at same
    exact absurd same.symm (mnemonic_of_known second right).1
  · rfl

end Head

end InstructionSet

namespace Word

variable {first second : Word} {width : Nat}

theorem low_bits_of_mask {mask : Word} (masks : mask.toNat = 2 ^ width - 1)
    (same : (first &&& mask).toNat = (second &&& mask).toNat) :
    BitVec.ofNat width first.toNat = BitVec.ofNat width second.toNat := by
  rw [UInt32.toNat_and, UInt32.toNat_and, masks, Nat.and_two_pow_sub_one_eq_mod,
    Nat.and_two_pow_sub_one_eq_mod] at same
  apply BitVec.eq_of_toNat_eq
  rw [BitVec.toNat_ofNat, BitVec.toNat_ofNat, same]

theorem low_bits_of_shift (small : width ≤ 30) (same : first <<< 2 = second <<< 2) :
    BitVec.ofNat width first.toNat = BitVec.ofNat width second.toNat := by
  have four : (4 : Word).toNat = 4 := rfl
  have moved := congrArg UInt32.toNat same
  simp only [shift_left_two, UInt32.toNat_mul, four] at moved
  have low : first.toNat % 2 ^ 30 = second.toNat % 2 ^ 30 := by omega
  have divides : 2 ^ width ∣ 2 ^ 30 := Nat.pow_dvd_pow 2 small
  apply BitVec.eq_of_toNat_eq
  rw [BitVec.toNat_ofNat, BitVec.toNat_ofNat, ← Nat.mod_mod_of_dvd _ divides, low,
    Nat.mod_mod_of_dvd _ divides]

end Word

namespace Instruction

theorem text_eq (instruction : Instruction) (pc : Word) :
    instruction.text pc = instruction.operation.head ++ " " ++ instruction.operandText pc := rfl

theorem register_of_text {first second : UInt8} {rest other : String}
    (same : registerText first ++ (", " ++ rest) = registerText second ++ (", " ++ other)) :
    Register.ofByte first = Register.ofByte second ∧ rest = other := by
  obtain ⟨register, following⟩ := texts_eq_of_separated (by rfl)
    (Register.comma_not_mem_text _) (Register.comma_not_mem_text _) same
  exact ⟨Register.eq_of_text register, following⟩

theorem registers_of_text {first second left right : UInt8} {rest other : String}
    (same : registerText first ++ ", " ++ registerText second ++ ", " ++ rest =
      registerText left ++ ", " ++ registerText right ++ ", " ++ other) :
    Register.ofByte first = Register.ofByte left ∧ Register.ofByte second = Register.ofByte right ∧
      rest = other := by
  simp only [String.append_assoc] at same
  obtain ⟨foremost, following⟩ := register_of_text same
  exact ⟨foremost, register_of_text following⟩

theorem immediate_of_target {first second : Instruction} {pc : Word}
    (same : Numeral.hex (first.target pc).toNat = Numeral.hex (second.target pc).toNat) :
    first.immediate <<< 2 = second.immediate <<< 2 :=
  UInt32.add_right_inj pc |>.mp (UInt32.toNat_inj.mp (Numeral.hex_injective same))

theorem fields_of_operand_text {first second : Instruction} {operation : Operation} {pc : Word}
    (valid : operation ≠ .invalid) (other : operation ≠ .breakpoint)
    (left : first.operation = operation ∧ first.format = operation.format)
    (right : second.operation = operation ∧ second.format = operation.format)
    (same : first.operandText pc = second.operandText pc) :
    Fields.ofOperands first.rd first.rj first.rk first.immediate operation.format =
      Fields.ofOperands second.rd second.rj second.rk second.immediate operation.format := by
  unfold operandText at same
  rw [left.1, left.2, right.1, right.2] at same
  cases operation with
  | invalid => exact absurd rfl valid
  | breakpoint => exact absurd rfl other
  | dataBarrier | instructionBarrier =>
    have hint := Numeral.hex_injective same
    exact congrArg Fields.hint16 (Word.low_bits_of_mask (by decide) hint)
  | jump | call =>
    have offset := immediate_of_target same
    exact congrArg Fields.si26 (Word.low_bits_of_shift (by decide) offset)
  | jumpRegister =>
    obtain ⟨destination, source, rest⟩ := registers_of_text same
    have offset := Numeral.signed_injective rest
    exact (Fields.reg2Si16.injEq ..).mpr
      ⟨destination, source, Word.low_bits_of_shift (by decide) offset⟩
  | branch =>
    obtain ⟨source, destination, rest⟩ := registers_of_text same
    have offset := immediate_of_target rest
    exact (Fields.reg2Si16.injEq ..).mpr
      ⟨destination, source, Word.low_bits_of_shift (by decide) offset⟩
  | pcaddu12i | lu12iW =>
    simp only [String.append_assoc] at same
    obtain ⟨destination, rest⟩ := register_of_text same
    have immediate := Numeral.signed_injective rest
    exact congrArg₂ Fields.reg1Si20 destination (congrArg (BitVec.ofNat 20 ·.toNat) immediate)
  | load | store =>
    obtain ⟨destination, source, rest⟩ := registers_of_text same
    have immediate := Numeral.signed_injective rest
    exact (Fields.reg2Si12.injEq ..).mpr
      ⟨destination, source, congrArg (BitVec.ofNat 12 ·.toNat) immediate⟩
  | mulDiv =>
    obtain ⟨destination, source, rest⟩ := registers_of_text same
    exact (Fields.reg3.injEq ..).mpr ⟨destination, source, Register.eq_of_text rest⟩
  | alu operation =>
    -- The format tells these apart: it says what stands in the place of the second source.
    cases operation with
    | addiW | slti | sltui =>
      obtain ⟨destination, source, rest⟩ := registers_of_text same
      have immediate := Numeral.signed_injective rest
      exact (Fields.reg2Si12.injEq ..).mpr
        ⟨destination, source, congrArg (BitVec.ofNat 12 ·.toNat) immediate⟩
    | andi | ori | xori =>
      obtain ⟨destination, source, rest⟩ := registers_of_text same
      have immediate := Numeral.hex_injective rest
      exact (Fields.reg2Ui12.injEq ..).mpr
        ⟨destination, source, Word.low_bits_of_mask (by decide) immediate⟩
    | slliW | srliW | sraiW =>
      obtain ⟨destination, source, rest⟩ := registers_of_text same
      have amount := Numeral.decimal_injective rest
      exact (Fields.reg2Ui5.injEq ..).mpr
        ⟨destination, source, Word.low_bits_of_mask (by decide) amount⟩
    | _ =>
      obtain ⟨destination, source, rest⟩ := registers_of_text same
      exact (Fields.reg3.injEq ..).mpr ⟨destination, source, Register.eq_of_text rest⟩

/-- The operands of a word, written as its template asks, determine the bits that the template leaves
open. -/
theorem open_bits_of_operand_text {template : Template} (listed : template ∈ InstructionSet.known)
    {first second pc : Word}
    (same : (ofFields template.operation template.format first).operandText pc =
      (ofFields template.operation template.format second).operandText pc) :
    first.toNat % 2 ^ template.format.openBits = second.toNat % 2 ^ template.format.openBits := by
  obtain ⟨valid, format⟩ := InstructionSet.format_of_known template listed
  by_cases stops : template.operation = .breakpoint
  · rw [format, stops] at same ⊢
    have code : (first &&& 0x7FFF).toNat = (second &&& 0x7FFF).toNat := Numeral.hex_injective same
    have bits := Word.low_bits_of_mask (by decide : (0x7FFF : Word).toNat = 2 ^ 15 - 1) code
    simpa [Operation.format, Format.openBits] using congrArg BitVec.toNat bits
  · rw [format] at same ⊢
    rw [← Fields.placed_of_operands template.operation,
      ← Fields.placed_of_operands template.operation]
    exact congrArg Fields.placed (fields_of_operand_text valid stops ⟨rfl, rfl⟩ ⟨rfl, rfl⟩ same)

/-- At a known place the text of a word determines the word. -/
theorem text_injective (pc : Word) : Function.Injective fun word => (decode word).text pc := by
  intro first second same
  simp only [text_eq, String.append_assoc] at same
  have listed := InstructionSet.lookup_mem_templates
  obtain ⟨head, operands⟩ := texts_eq_of_separated (by rfl)
    (InstructionSet.space_not_mem_head (listed first))
    (InstructionSet.space_not_mem_head (listed second)) same
  -- From here on both words have one template; only the last one is written by the whole word.
  have selected := InstructionSet.eq_of_head (listed first) (listed second) head
  have operation : (decode second).operation = (decode first).operation :=
    congrArg Template.operation selected.symm
  by_cases invalid : (decode first).operation = .invalid
  · unfold operandText at operands
    rw [operation, invalid] at operands
    exact UInt32.toNat_inj.mp (Numeral.address_injective operands)
  · obtain ⟨known, accepted⟩ := InstructionSet.lookup_mem_known invalid
    obtain ⟨_, otherAccepted⟩ := InstructionSet.lookup_mem_known (operation ▸ invalid)
    unfold decode at operands
    rw [← selected] at otherAccepted operands
    exact Pattern.eq_of_open_bits (Format.open_bits_le _) (InstructionSet.known_leading _ known).1
      accepted otherAccepted (open_bits_of_operand_text known operands)

end Instruction
end LoongArch
