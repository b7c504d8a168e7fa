import LoongArch.CommandLine.Disassembler
import LoongArch.CommandLine.Runner
import LoongArch.Proofs.AddressText

/-!
# Addresses among the arguments

Both programs take addresses as arguments, in six places. All of them understand the same texts, with
the same meaning, and whatever the programs print for an address is understood again.
-/

set_option autoImplicit false

namespace LoongArch.CommandLine

/-! ## Options and operands -/

def assignment (name value : String) : String :=
  "--" ++ name ++ "=" ++ value

theorem Reading.settle_of_idle {Request : Type} {reading : Reading Request}
    (idle : reading.pending = .nothing) : reading.settle = .ok reading := by
  rw [settle, idle]
  cases reading
  cases idle
  rfl

theorem split_value_assignment {name : List Char} (plain : '=' ∉ name) (value : String) :
    splitValue (name ++ '=' :: value.toList) = (String.ofList name, some value) := by
  have before : ∀ character ∈ name, decide (character ≠ '=') = true := by
    intro character listed
    exact decide_eq_true fun same => plain (same ▸ listed)
  rw [splitValue, List.takeWhile_append_of_pos before, List.dropWhile_append_of_pos before]
  simp

namespace Grammar

section Assignment

variable {Request : Type} {grammar : Grammar Request} {reading : Reading Request}
  {choice : Choice Request} {name : String}
  (found : grammar.choices.find? (·.name = name) = some choice) (takes : choice.takesValue = true)
  (plain : '=' ∉ name.toList) (idle : reading.pending = .nothing)
include found takes plain idle

theorem long_option_assignment (value : String) :
    grammar.longOption reading (name.toList ++ '=' :: value.toList) =
      reading.enterOption choice value := by
  simp only [longOption, Reading.settle_of_idle idle, split_value_assignment plain,
    String.ofList_toList, found, Reading.beginOption, takes]
  rfl

theorem read_from_assignment (commands : ∀ command ∈ grammar.commands, isDashed command = false)
    (value : String) (rest : List String) :
    grammar.readFrom reading (assignment name value :: rest) =
      (reading.enterOption choice value).bind (grammar.readFrom · rest) := by
  have characters : (assignment name value).toList =
      '-' :: '-' :: (name.toList ++ '=' :: value.toList) := by
    simp [assignment]
  have dashed : isDashed (assignment name value) = true := by
    simp only [isDashed, characters]
  have other : grammar.commands.contains (assignment name value) = false := by
    by_contra listed
    have refused := commands _ (by simpa using listed)
    cases dashed.symm.trans refused
  have unhelpful : assignment name value ≠ "help" := by
    intro same
    rw [same] at dashed
    exact absurd dashed (by decide)
  have entered := long_option_assignment found takes plain idle value
  -- Two dashes alone end the options, so something must be seen to follow them.
  obtain ⟨first, more, same⟩ :=
    List.exists_cons_of_ne_nil (List.append_ne_nil_of_right_ne_nil name.toList
      (List.cons_ne_nil '=' value.toList))
  rw [same] at characters entered
  rw [readFrom, idle]
  simp only [other, unhelpful, characters, entered, Bool.false_eq_true, if_false, decide_false,
    Bool.false_and]
  rfl

end Assignment

theorem read_all_operands {Request : Type} (grammar : Grammar Request) (request : Request)
    (bare : grammar.commands = []) (operands : List String) :
    grammar.readAll request ("--" :: operands) =
      (operands.foldlM Reading.beginOperand { request, wanted := grammar.operands }).bind
        Reading.finish := by
  have dashes : "--".toList = ['-', '-'] := by decide
  have read : grammar.read request ("--" :: operands) =
      (operands.foldlM Reading.beginOperand { request, wanted := grammar.operands }).map
        (·, none) := by
    simp only [read, readFrom, bare, dashes, List.contains_nil, List.isEmpty_nil, Bool.not_true,
      Bool.and_false, Bool.false_eq_true, if_false]
  rw [readAll, read]
  cases operands.foldlM Reading.beginOperand { request, wanted := grammar.operands } <;> rfl

end Grammar

theorem DisassemblyOptions.of_arguments_command {command : String}
    (named : command ∈ Source.grammar.commands) (rest : List String) :
    DisassemblyOptions.ofArguments ("image.bin" :: command :: rest) =
      (View.ofArguments command rest).map
        fun view => { source := { input := "image.bin" }, view } := by
  let operand : Parameter Source :=
    .readBy "BINFILE" some fun input source => { source with input }
  have stops : Source.grammar.read { input := "" } ("image.bin" :: command :: rest) =
      .ok ({ request := { input := "" }, wanted := [], pending := .operand operand "image.bin" },
        some (command, rest)) := by
    simp only [Source.grammar, List.mem_cons, List.not_mem_nil, or_false] at named
    rcases named with rfl | rfl | rfl <;> rfl
  rw [ofArguments, stops]
  cases read : View.ofArguments command rest <;> simp only [bind, Except.bind, read] <;> rfl

/-! ## The places of addresses -/

def runnerStart? (text : String) : Option Word :=
  (RunOptions.ofArguments [assignment "entry" text, "image.bin"]).toOption.bind (·.entry)

def runnerBase? (text : String) : Option Word :=
  (RunOptions.ofArguments [assignment "base" text, "image.bin"]).toOption.bind (·.base)

def imageBase? (text : String) : Option Word :=
  (DisassemblyOptions.ofArguments [assignment "base" text, "image.bin", "sections"]).toOption.map
    (·.source.base)

def rangeBounds? (start stop : String) : Option RangeOptions :=
  (DisassemblyOptions.ofArguments ["image.bin", "range", "--", start, stop]).toOption.bind
    fun options =>
      match options.view with
      | .range options => some options
      | _ => none

def rangeStart? (text : String) : Option Word :=
  (rangeBounds? text "0").map (·.start)

def rangeStop? (text : String) : Option Word :=
  (rangeBounds? "0" text).map (·.stop)

def flowStart? (text : String) : Option Word :=
  (DisassemblyOptions.ofArguments ["image.bin", "analyze", assignment "entry" text]).toOption.bind
    fun options =>
      match options.view with
      | .analyze options => options.entries.head?
      | _ => none

/-- All places where the programs take an address. -/
def addressPlaces : List (String → Option Word) :=
  [runnerStart?, runnerBase?, imageBase?, rangeStart?, rangeStop?, flowStart?]

section Places

open Numeral (word?)

theorem runner_start_eq : runnerStart? = word? := by
  funext text
  rw [runnerStart?, RunOptions.ofArguments, Grammar.readAll, Grammar.read,
    Grammar.read_from_assignment (by rfl) (by rfl) (by decide) rfl (by decide)]
  simp only [Reading.enterOption, Reading.enter, Parameter.readBy]
  cases word? text <;> rfl

theorem runner_base_eq : runnerBase? = word? := by
  funext text
  rw [runnerBase?, RunOptions.ofArguments, Grammar.readAll, Grammar.read,
    Grammar.read_from_assignment (by rfl) (by rfl) (by decide) rfl (by decide)]
  simp only [Reading.enterOption, Reading.enter, Parameter.readBy]
  cases word? text <;> rfl

theorem image_base_eq : imageBase? = word? := by
  funext text
  rw [imageBase?, DisassemblyOptions.ofArguments, Grammar.read,
    Grammar.read_from_assignment (by rfl) (by rfl) (by decide) rfl (by decide)]
  simp only [Reading.enterOption, Reading.enter, Parameter.readBy]
  cases word? text <;> rfl

theorem range_bounds_eq (start stop : String) :
    rangeBounds? start stop =
      (word? start).bind fun first =>
        (word? stop).map fun last => { start := first, stop := last } := by
  have entered : ([start, stop].foldlM Reading.beginOperand
        { request := { start := 0, stop := 0 }, wanted := RangeOptions.grammar.operands }).bind
          Reading.finish =
      match word? start, word? stop with
      | none, _ => .error (.misuse (.invalidValue "START" start))
      | some _, none => .error (.misuse (.invalidValue "END" stop))
      | some first, some last => .ok { start := first, stop := last } := by
    simp only [List.foldlM_cons, List.foldlM_nil, Reading.beginOperand, Reading.finish,
      Reading.settle, RangeOptions.grammar, Reading.enter, Parameter.readBy, bind, Except.bind,
      pure, Except.pure]
    cases word? start with
    | none => rfl
    | some first =>
      simp only [Option.map_some]
      cases word? stop <;> rfl
  rw [rangeBounds?, DisassemblyOptions.of_arguments_command (by decide)]
  simp only [View.ofArguments, Grammar.read_all_operands RangeOptions.grammar _ rfl, entered]
  cases word? start with
  | none => rfl
  | some first => cases word? stop <;> rfl

theorem word_zero : word? "0" = some 0 := by decide

theorem range_start_eq : rangeStart? = word? := by
  funext text
  rw [rangeStart?, range_bounds_eq, word_zero]
  cases word? text <;> rfl

theorem range_stop_eq : rangeStop? = word? := by
  funext text
  rw [rangeStop?, range_bounds_eq, word_zero]
  cases word? text <;> rfl

theorem flow_start_eq : flowStart? = word? := by
  funext text
  rw [flowStart?, DisassemblyOptions.of_arguments_command (by decide)]
  simp only [View.ofArguments]
  rw [Grammar.readAll, Grammar.read,
    Grammar.read_from_assignment (by rfl) (by rfl) (by decide) rfl (by decide)]
  simp only [Reading.enterOption, Reading.enter, Parameter.readBy]
  cases word? text <;> rfl

theorem read_eq_word {read? : String → Option Word} (place : read? ∈ addressPlaces) :
    read? = word? := by
  simp only [addressPlaces, List.mem_cons, List.not_mem_nil, or_false] at place
  rcases place with rfl | rfl | rfl | rfl | rfl | rfl
  · exact runner_start_eq
  · exact runner_base_eq
  · exact image_base_eq
  · exact range_start_eq
  · exact range_stop_eq
  · exact flow_start_eq

end Places

/-- Every place takes the texts of addresses and no others. An address as the programs print it is such
a text, and so is its decimal numeral, whatever white space stands around them. -/
theorem address_arguments {read? : String → Option Word} (place : read? ∈ addressPlaces) :
    (∀ text word, read? text = some word ↔ Numeral.IsAddress text word) ∧
      ∀ (word : Word) (before after : String),
        (∀ character ∈ before.toList ++ after.toList, Blank.isBlank character = true) →
          read? (before ++ Numeral.address word.toNat ++ after) = some word ∧
          read? (before ++ Numeral.decimal word.toNat ++ after) = some word := by
  rw [read_eq_word place]
  refine ⟨fun text word => Numeral.word_eq_some_iff, ?_⟩
  intro word before after blank
  have hexadecimal := Numeral.word_of_padded (Numeral.is_numeral_hex_digits 8 word.toNat) blank
  have decimal := Numeral.word_of_padded (Numeral.is_numeral_decimal word.toNat) blank
  exact ⟨hexadecimal, decimal⟩

/-- A tabulator before the start of a range, and a wide space after it. -/
theorem range_start_between_blanks :
    rangeStart? ("\t" ++ Numeral.address 0x1C000000 ++ "\u3000") = some 0x1C000000 ∧
      rangeStart? ("\t" ++ Numeral.decimal 0x1C000000 ++ "\u3000") = some 0x1C000000 := by
  have place : rangeStart? ∈ addressPlaces := by simp [addressPlaces]
  have blank : ("\t".toList ++ "\u3000".toList).all Blank.isBlank = true := by decide
  exact (address_arguments place).2 0x1C000000 "\t" "\u3000" (List.all_eq_true.mp blank)

end LoongArch.CommandLine
