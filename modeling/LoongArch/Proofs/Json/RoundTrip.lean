import LoongArch.Json.InstructionForms
import LoongArch.Json.MachineForms
import LoongArch.Proofs.EffectsText
import LoongArch.Proofs.Json.ReadBack
import LoongArch.Proofs.MemoryBytes
import Mathlib.Data.List.Nodup

/-!
# Forms are read back

A form is the way in which the values of a type stand in JSON. Every form is read back as the value
that it was made from, so a text that is written anew keeps its meaning, and does not change again.
-/

set_option autoImplicit false

namespace LoongArch

namespace Json

section Forms

variable {Kind : Type} (toJson : Kind → Json) (ofJson? : Json → Option Kind)

def parse? (text : String) : Option Kind :=
  (read? text).bind ofJson?

def rewrite? (text : String) : Option String :=
  (parse? ofJson? text).map fun value => (toJson value).write

structure RoundTrips : Prop where
  value (value : Kind) : parse? ofJson? (toJson value).write = some value
  text {text again : String} (rewritten : rewrite? toJson ofJson? text = some again) :
    parse? ofJson? again = parse? ofJson? text ∧ rewrite? toJson ofJson? again = some again

variable {toJson ofJson?}

theorem parse_write {value : Kind} (plain : (toJson value).Plain)
    (back : ofJson? (toJson value) = some value) :
    parse? ofJson? (toJson value).write = some value := by
  rw [parse?, read_write plain, Option.bind_some, back]

theorem round_trips (plain : ∀ value, (toJson value).Plain)
    (back : ∀ value, ofJson? (toJson value) = some value) : RoundTrips toJson ofJson? := by
  refine ⟨fun value => parse_write (plain value) (back value), ?_⟩
  intro text again rewritten
  obtain ⟨value, parsed, rfl⟩ := Option.map_eq_some_iff.mp rewritten
  have read := parse_write (plain value) (back value)
  exact ⟨read.trans parsed.symm, by rw [rewrite?, read, Option.map_some]⟩

end Forms

/-! ## Words, lists and records -/

@[simp] theorem word_of_word (word : Word) : (ofWord word).word? = some word := by
  rw [ofWord, word?, natural?, if_pos word.toNat_lt, Option.map_some, UInt32.ofNat_toNat]

@[simp] theorem byte_of_natural (byte : UInt8) : (natural byte.toNat).byte? = some byte := by
  rw [byte?, natural?, if_pos byte.toNat_lt, Option.map_some, UInt8.ofNat_toNat]

@[simp] theorem plain_of_word (word : Word) : (ofWord word).Plain :=
  .natural _

theorem items_of_map {Item : Type} {write : Item → Json} {read? : Json → Option Item}
    (back : ∀ item, read? (write item) = some item) (items : List Item) :
    (array (items.map write)).items? read? = some items := by
  have each : read? ∘ write = fun item => pure item := funext back
  rw [items?, List.mapM_map, each, List.mapM_pure, List.map_id']
  rfl

theorem fields_of_members {names : List String} {members : List (String × Json)}
    (distinct : (members.map Prod.fst).Nodup) (known : ∀ member ∈ members, member.1 ∈ names) :
    fields? names (named members) = some members := by
  induction members with
  | nil => rfl
  | cons member members hypothesis =>
    obtain ⟨fresh, distinct⟩ := List.nodup_cons.mp distinct
    have remaining :=
      hypothesis distinct fun other listed => known other (List.mem_cons_of_mem _ listed)
    have single : members.any (fun other => decide (other.1 = member.1)) = false := by
      rw [List.any_eq_false]
      intro other listed same
      exact fresh (List.mem_map.mpr ⟨other, listed, of_decide_eq_true same⟩)
    rw [named, List.map_cons, fields?, ← named, remaining, Option.bind_some,
      if_pos (known member List.mem_cons_self), single]
    rfl

theorem record_record {names : List String} {members : List (String × Json)}
    (distinct : names.Nodup) (named : members.map Prod.fst = names) :
    (record members).record? names = some members :=
  fields_of_members (named ▸ distinct) fun _ listed => named ▸ List.mem_map_of_mem listed

end Json

/-! ## Names -/

namespace Spelling

variable {Kind : Type} [DecidableEq Kind] {spelling : Spelling Kind} {value : Kind}

theorem exists_name (listed : value ∈ spelling.map Prod.fst) :
    ∃ name, spelling.lookup value = some name ∧ (value, name) ∈ spelling := by
  induction spelling with
  | nil => cases listed
  | cons entry spelling hypothesis =>
    obtain ⟨first, name⟩ := entry
    by_cases same : value = first
    · subst same
      exact ⟨name, List.lookup_cons_self, List.mem_cons_self⟩
    · obtain ⟨name, found, inside⟩ :=
        hypothesis ((List.mem_cons.mp listed).resolve_left same)
      refine ⟨name, ?_, List.mem_cons_of_mem _ inside⟩
      rw [List.lookup_cons, beq_false_of_ne same, found]

theorem write_eq (listed : value ∈ spelling.map Prod.fst) :
    ∃ name, spelling.write value = .ofString name ∧ (value, name) ∈ spelling := by
  obtain ⟨name, found, inside⟩ := exists_name listed
  exact ⟨name, by rw [write, found, Json.ofString], inside⟩

theorem plain_write (listed : value ∈ spelling.map Prod.fst) : (spelling.write value).Plain := by
  obtain ⟨name, written, _⟩ := write_eq listed
  exact written ▸ .text name

theorem read_write (distinct : (spelling.map Prod.snd).Nodup)
    (listed : value ∈ spelling.map Prod.fst) :
    spelling.read? (spelling.write value) = some value := by
  obtain ⟨name, written, inside⟩ := write_eq listed
  have found : spelling.find? (·.2 = name) = some (value, name) := by
    have present : (spelling.find? (·.2 = name)).isSome :=
      List.find?_isSome.mpr ⟨_, inside, decide_eq_true rfl⟩
    obtain ⟨entry, found⟩ := Option.isSome_iff_exists.mp present
    have named := List.find?_some found
    have same := List.inj_on_of_nodup_map distinct (List.mem_of_find?_eq_some found) inside
      (of_decide_eq_true named)
    exact same ▸ found
  rw [read?, written]
  show spelling.named? name = _
  rw [named?, found]
  rfl

structure Complete {Kind : Type} (spelling : Spelling Kind) : Prop where
  listed (value : Kind) : value ∈ spelling.map Prod.fst
  distinct : (spelling.map Prod.snd).Nodup

theorem Complete.plain_write (complete : spelling.Complete) (value : Kind) :
    (spelling.write value).Plain :=
  Spelling.plain_write (complete.listed value)

theorem Complete.read_write (complete : spelling.Complete) (value : Kind) :
    spelling.read? (spelling.write value) = some value :=
  Spelling.read_write complete.distinct (complete.listed value)

end Spelling

/-! ## Forms -/

theorem AccessWidth.complete : AccessWidth.spelling.Complete :=
  ⟨fun width => by cases width <;> decide, by decide⟩

theorem Extension.complete : Extension.spelling.Complete :=
  ⟨fun extension => by cases extension <;> decide, by decide⟩

theorem Condition.complete : Condition.spelling.Complete :=
  ⟨fun condition => by cases condition <;> decide, by decide⟩

theorem AluOperation.complete : AluOperation.spelling.Complete :=
  ⟨fun operation => by cases operation <;> decide, by decide⟩

theorem MulDivOperation.complete : MulDivOperation.spelling.Complete :=
  ⟨fun operation => by cases operation <;> decide, by decide⟩

theorem Format.complete : Format.spelling.Complete :=
  ⟨fun format => by cases format <;> decide, by decide⟩

theorem DivideByZeroPolicy.complete : DivideByZeroPolicy.spelling.Complete :=
  ⟨fun policy => by cases policy <;> decide, by decide⟩

theorem AccessWidth.of_json_to_json (width : AccessWidth) : ofJson? width.toJson = some width :=
  AccessWidth.complete.read_write width

theorem Format.of_json_to_json (format : Format) : ofJson? format.toJson = some format :=
  Format.complete.read_write format

theorem DivideByZeroPolicy.of_json_to_json (policy : DivideByZeroPolicy) :
    ofJson? policy.toJson = some policy :=
  DivideByZeroPolicy.complete.read_write policy

namespace Operation

theorem of_json_write {operation : Operation} (listed : operation ∈ spelling.map Prod.fst) :
    ofJson? (spelling.write operation) = some operation := by
  rw [ofJson?, Spelling.read_write (by decide) listed]
  rfl

theorem of_json_to_json (operation : Operation) : ofJson? operation.toJson = some operation := by
  cases operation with
  | alu operation =>
    show (AluOperation.spelling.read? _).map alu = _
    rw [AluOperation.complete.read_write]
    rfl
  | mulDiv operation =>
    show (MulDivOperation.spelling.read? _).map mulDiv = _
    rw [MulDivOperation.complete.read_write]
    rfl
  | load width extension =>
    show (AccessWidth.ofJson? width.toJson).bind _ = _
    rw [AccessWidth.of_json_to_json, Option.bind_some, Extension.complete.read_write]
    rfl
  | store width =>
    show (AccessWidth.ofJson? width.toJson).map store = _
    rw [AccessWidth.of_json_to_json]
    rfl
  | branch condition =>
    show (Condition.spelling.read? _).map branch = _
    rw [Condition.complete.read_write]
    rfl
  | _ => exact of_json_write (by decide)

theorem plain_to_json (operation : Operation) : operation.toJson.Plain := by
  have carrying {name : String} {value : Json} (plain : value.Plain) :
      (Json.carrying name value).Plain :=
    .record (by simpa using plain)
  cases operation with
  | alu operation => exact carrying (AluOperation.complete.plain_write operation)
  | mulDiv operation => exact carrying (MulDivOperation.complete.plain_write operation)
  | load width extension =>
    have items : ∀ item ∈ [width.toJson, Extension.spelling.write extension], item.Plain := by
      simpa using
        ⟨AccessWidth.complete.plain_write width, Extension.complete.plain_write extension⟩
    exact carrying (.array items)
  | store width => exact carrying (AccessWidth.complete.plain_write width)
  | branch condition => exact carrying (Condition.complete.plain_write condition)
  | _ => exact Spelling.plain_write (by decide)

end Operation

theorem Effects.of_json_to_json (effects : Effects) : ofJson? effects.toJson = some effects :=
  of_text_text effects

namespace Instruction

theorem of_json_to_json (instruction : Instruction) :
    ofJson? instruction.toJson = some instruction := by
  rw [ofJson?, toJson, Json.record_record (by decide) (by rfl)]
  simp [Json.field?, List.lookup_cons, Format.of_json_to_json, Operation.of_json_to_json]

theorem plain_to_json (instruction : Instruction) : instruction.toJson.Plain := by
  have format : instruction.format.toJson.Plain := Format.complete.plain_write _
  exact .record (by simp [instruction.operation.plain_to_json, format, Json.Plain.natural])

end Instruction

namespace Config

theorem of_json_to_json (config : Config) : ofJson? config.toJson = some config := by
  rw [ofJson?, toJson, Json.record_record (by decide) (by rfl)]
  simp [Json.fieldOr?, List.lookup_cons, DivideByZeroPolicy.of_json_to_json]

theorem plain_to_json (config : Config) : config.toJson.Plain := by
  have policy : config.divideByZero.toJson.Plain := DivideByZeroPolicy.complete.plain_write _
  exact .record (by simp [policy])

end Config

namespace RegisterFile

theorem of_json_to_json (file : RegisterFile) : ofJson? file.toJson = some file := by
  rw [ofJson?, toJson, Json.items_of_map Json.word_of_word]
  simp [Vector.toList]

theorem plain_to_json (file : RegisterFile) : file.toJson.Plain :=
  .array (by simp)

end RegisterFile

namespace Cpu

theorem of_json_to_json (cpu : Cpu) : ofJson? cpu.toJson = some cpu := by
  rw [ofJson?, toJson, Json.record_record (by decide) (by rfl)]
  simp [Json.field?, List.lookup_cons, RegisterFile.of_json_to_json, Config.of_json_to_json]

theorem plain_to_json (cpu : Cpu) : cpu.toJson.Plain :=
  .record (by simp [cpu.registers.plain_to_json, cpu.config.plain_to_json])

end Cpu

namespace Memory

theorem of_json_to_json (memory : Memory) : ofJson? memory.toJson = some memory := by
  rw [ofJson?, toJson, Json.record_record (by decide) (by rfl)]
  simp [Json.field?, List.lookup_cons, Json.items_of_map Json.byte_of_natural, to_list_eq]

theorem plain_to_json (memory : Memory) : memory.toJson.Plain := by
  have bytes : (Json.array (memory.bytes.toList.map fun byte => .natural byte.toNat)).Plain :=
    .array (by simp [Json.Plain.natural])
  exact .record (by simpa using bytes)

end Memory

/-- The forms of all types are read back. A set of effects keeps its bits without a meaning. -/
theorem Json.forms_round_trip :
    RoundTrips Config.toJson Config.ofJson? ∧
    RoundTrips Cpu.toJson Cpu.ofJson? ∧
    RoundTrips Operation.toJson Operation.ofJson? ∧
    RoundTrips Format.toJson Format.ofJson? ∧
    RoundTrips Instruction.toJson Instruction.ofJson? ∧
    RoundTrips DivideByZeroPolicy.toJson DivideByZeroPolicy.ofJson? ∧
    RoundTrips AccessWidth.toJson AccessWidth.ofJson? ∧
    RoundTrips Memory.toJson Memory.ofJson? ∧
    RoundTrips Effects.toJson Effects.ofJson? := by
  refine ⟨?_, ?_, ?_, ?_, ?_, ?_, ?_, ?_, ?_⟩
  · exact round_trips Config.plain_to_json Config.of_json_to_json
  · exact round_trips Cpu.plain_to_json Cpu.of_json_to_json
  · exact round_trips Operation.plain_to_json Operation.of_json_to_json
  · exact round_trips Format.complete.plain_write Format.of_json_to_json
  · exact round_trips Instruction.plain_to_json Instruction.of_json_to_json
  · exact round_trips DivideByZeroPolicy.complete.plain_write DivideByZeroPolicy.of_json_to_json
  · exact round_trips AccessWidth.complete.plain_write AccessWidth.of_json_to_json
  · exact round_trips Memory.plain_to_json Memory.of_json_to_json
  · exact round_trips (fun effects => .text effects.text) Effects.of_json_to_json

end LoongArch
