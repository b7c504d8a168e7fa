import LoongArch.Proofs.Assembly
import Mathlib.Data.List.Perm.Basic

/-!
# The order of the instruction set

Apart from the last template no two of the table accept the same word. So the table may be written in
any order that keeps the last template in its place, and a word still selects the same one. An operation
stands in one template, which is the one that its words select, and so their text names it.
-/

set_option autoImplicit false

namespace LoongArch

namespace InstructionSet

def scan (table : List Template) (word : Word) : Template :=
  (table.find? (·.pattern.accepts word)).getD invalid

theorem length_accepting_le (word : Word) :
    (known.filter (·.pattern.accepts word)).length ≤ 1 := by
  have apart := known_apart.sublist (known.filter_sublist (p := (·.pattern.accepts word)))
  have accepted : ∀ template ∈ known.filter (·.pattern.accepts word),
      template.pattern.accepts word = true :=
    fun _ listed => (List.mem_filter.mp listed).2
  cases accepting : known.filter (·.pattern.accepts word) with
  | nil => exact Nat.zero_le 1
  | cons first others =>
    cases others with
    | nil => exact Nat.le_refl 1
    | cons second others =>
      -- Two templates that accept the word would have to differ in a bit that both fix.
      rw [accepting] at apart accepted
      have disagree := List.rel_of_pairwise_cons apart List.mem_cons_self
      exact absurd disagree (Pattern.not_apart_of_accepts (accepted first List.mem_cons_self)
        (accepted second (List.mem_cons_of_mem _ List.mem_cons_self)))

theorem find_eq_of_perm {α : Type} {accepts : α → Bool} {first second : List α}
    (permuted : first.Perm second) (unique : (second.filter accepts).length ≤ 1) :
    first.find? accepts = second.find? accepts := by
  have same : first.filter accepts = second.filter accepts := by
    have kept := permuted.filter accepts
    cases accepting : second.filter accepts with
    | nil => rwa [accepting, List.perm_nil] at kept
    | cons found others =>
      rw [accepting, List.length_cons] at unique
      obtain rfl : others = [] := List.eq_nil_of_length_eq_zero (by omega)
      rwa [accepting, List.perm_singleton] at kept
  rw [← List.head?_filter, same, List.head?_filter]

theorem scan_of_perm {table : List Template} (permuted : table.Perm templates)
    (ends : table.getLast? = some invalid) (word : Word) : scan table word = lookup word := by
  obtain ⟨front, rfl⟩ := List.getLast?_eq_some_iff.mp ends
  rw [templates_eq, List.perm_append_right_iff] at permuted
  have found := find_eq_of_perm permuted (length_accepting_le word)
  rw [scan, lookup, templates_eq, List.find?_append, List.find?_append, found]

theorem describe_of_mem_templates {template : Template} (listed : template ∈ templates) :
    describe template.operation = template := by
  rcases mem_templates.mp listed with known | rfl
  · exact describe_known template known
  · decide

theorem describe_decode (word : Word) :
    describe (Instruction.decode word).operation = lookup word :=
  describe_of_mem_templates (lookup_mem_templates word)

theorem invalid_iff {word : Word} :
    (Instruction.decode word).operation = .invalid ↔
      ∀ template ∈ known, template.pattern.accepts word = false := by
  constructor
  · intro invalid template listed
    by_contra accepted
    have selected := lookup_of_accepts listed (Bool.of_not_eq_false accepted)
    refine (format_of_known template listed).1 ?_
    rw [← selected]
    exact invalid
  · intro refused
    by_contra valid
    obtain ⟨listed, accepted⟩ := lookup_mem_known valid
    rw [refused _ listed] at accepted
    cases accepted

theorem mnemonic_injective : ∀ first ∈ templates, ∀ second ∈ templates,
    first.mnemonic = second.mnemonic → first = second := by
  have distinct : (templates.map (·.mnemonic)).Nodup := by decide
  exact fun first left second right => List.inj_on_of_nodup_map distinct left right

theorem mnemonic_of_mem_templates : ∀ template ∈ templates,
    template.mnemonic ≠ ".word" ∧ ' ' ∉ template.mnemonic.toList := by
  intro template listed
  rcases mem_templates.mp listed with known | rfl
  · exact mnemonic_of_known template known
  · decide

end InstructionSet

open InstructionSet

namespace Instruction

section Printed

variable (word pc : Word)

theorem text_decode :
    (decode word).text pc =
      (if (decode word).operation = .invalid then ".word" else (lookup word).mnemonic) ++ " " ++
        (decode word).operandText pc := by
  rw [text_eq]
  split_ifs with invalid
  · rw [invalid]
    rfl
  · rw [Operation.head_of_valid invalid, describe_decode]

theorem eq_lookup_of_text {template : Template} (listed : template ∈ templates) {operands : String}
    (printed : (decode word).text pc = template.mnemonic ++ " " ++ operands) :
    template = lookup word := by
  have selected := lookup_mem_templates word
  obtain ⟨data, single⟩ := mnemonic_of_mem_templates template listed
  rw [text_eq, String.append_assoc, String.append_assoc] at printed
  obtain ⟨head, _⟩ := texts_eq_of_separated (by rfl) (space_not_mem_head selected) single printed
  rcases mem_templates.mp selected with known | invalid
  · change (lookup word).operation.head = _ at head
    rw [head_of_known known] at head
    exact (mnemonic_injective _ selected template listed head).symm
  · change (lookup word).operation.head = _ at head
    rw [invalid] at head
    exact absurd head.symm data

end Printed

/-- What a word selects does not depend on the order of the table: at most one template before the last
accepts it, every table with the same templates and the same last one gives the same answer, only words
that none of the others accepts are invalid, and the template of the operation is the one selected. A
line of text that names a template names this one; a word that is invalid is written as data instead. -/
theorem selection_independent_of_order (word : Word) :
    (known.filter (·.pattern.accepts word)).length ≤ 1 ∧
    (∀ table : List Template, table.Perm templates → table.getLast? = some invalid →
      scan table word = lookup word) ∧
    ((decode word).operation = .invalid ↔
      ∀ template ∈ known, template.pattern.accepts word = false) ∧
    describe (decode word).operation = lookup word ∧
    ∀ pc,
      (decode word).text pc =
        (if (decode word).operation = .invalid then ".word" else (lookup word).mnemonic) ++ " " ++
          (decode word).operandText pc ∧
      ∀ template ∈ templates, ∀ operands,
        (decode word).text pc = template.mnemonic ++ " " ++ operands → template = lookup word :=
  ⟨length_accepting_le word, fun _ permuted ends => scan_of_perm permuted ends word, invalid_iff,
    describe_decode word,
    fun pc => ⟨text_decode word pc, fun _ listed _ => eq_lookup_of_text word pc listed⟩⟩

/-- The table backwards, but for its last template, still selects the addition for an addition. -/
theorem addition_selected_backwards :
    let table := known.reverse ++ [invalid]
    let word : Word := 0x00100C41
    table.Perm templates ∧ table.getLast? = some invalid ∧ scan table word = lookup word ∧
    (lookup word).mnemonic = "add.w" ∧ (decode word).text 0 = "add.w $ra, $tp, $sp" := by
  intro table word
  obtain ⟨_, independent, _⟩ := selection_independent_of_order word
  have permuted : table.Perm templates := (List.reverse_perm known).append_right [invalid]
  have ends : table.getLast? = some invalid := List.getLast?_concat
  exact ⟨permuted, ends, independent table permuted ends, by decide, by decide⟩

end Instruction
end LoongArch
