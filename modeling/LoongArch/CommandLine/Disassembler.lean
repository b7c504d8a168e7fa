import LoongArch.CommandLine.Arguments
import LoongArch.CommandLine.Outcome
import LoongArch.Json.ReportForms
import LoongArch.Listing

/-!
# Showing a program

Lists the segments of a file, shows a range of addresses as assembly text, or follows the control flow
from given entries and reports on it.
-/

set_option autoImplicit false

namespace LoongArch

namespace CommandLine

inductive ReportFormat where
  | text | json
deriving DecidableEq, Repr

def ReportFormat.ofName? (name : String) : Option ReportFormat :=
  if name = "text" then some text else if name = "json" then some json else none

structure RangeOptions where
  start : Word
  /-- The first address past the range. -/
  stop : Word
  showBytes : Bool := false
  destination : Option String := none
deriving DecidableEq, Repr

structure FlowOptions where
  entries : List Word := []
  limit : Nat := 100000
  format : ReportFormat := .text
  destination : Option String := none
deriving DecidableEq, Repr

inductive View where
  | sections
  | range (options : RangeOptions)
  | analyze (options : FlowOptions)
deriving DecidableEq, Repr

structure Source where
  input : String
  base : Word := 0x1C000000
  skip : Nat := 0
  length : Option Nat := none
deriving DecidableEq, Repr

structure DisassemblyOptions where
  source : Source
  view : View
deriving DecidableEq, Repr

def RangeOptions.grammar : Grammar RangeOptions where
  choices := [
    { name := "show-bytes", takesValue := false,
      enter := fun _ options => some { options with showBytes := true } },
    { toParameter := .readBy "out" some fun name options =>
        { options with destination := some name } }]
  operands := [
    .readBy "START" Numeral.word? fun start options => { options with start },
    .readBy "END" Numeral.word? fun stop options => { options with stop }]

def FlowOptions.grammar : Grammar FlowOptions where
  choices := [
    { toParameter := .readBy "entry" Numeral.word? fun entry options =>
        { options with entries := options.entries ++ [entry] },
      repeats := true },
    { toParameter := .readBy "max-instr" Numeral.count? fun limit options =>
        { options with limit } },
    { toParameter := .readBy "format" ReportFormat.ofName? fun format options =>
        { options with format } },
    { toParameter := .readBy "out" some fun name options =>
        { options with destination := some name } }]

/-- Reads the arguments of a command. The operands take the places of the zeros. -/
def View.ofArguments (command : String) (arguments : List String) : Except Interruption View :=
  match command with
  | "sections" => (Grammar.readAll {} () arguments).map fun _ => .sections
  | "range" => (RangeOptions.grammar.readAll { start := 0, stop := 0 } arguments).map .range
  | "analyze" => (FlowOptions.grammar.readAll {} arguments).map .analyze
  | _ => .error (.misuse (.unknownCommand command))

def Source.grammar : Grammar Source where
  choices := [
    { toParameter := .readBy "base" Numeral.word? fun base source => { source with base } },
    { toParameter := .readBy "skip" Numeral.count? fun skip source => { source with skip } },
    { toParameter := .readBy "len" Numeral.count? fun length source =>
        { source with length := some length } }]
  operands := [.readBy "BINFILE" some fun input source => { source with input }]
  commands := ["sections", "range", "analyze"]
  hasVersion := true

namespace DisassemblyOptions

def ofArguments (arguments : List String) : Except Interruption DisassemblyOptions := do
  match ← Source.grammar.read { input := "" } arguments with
  | (_, none) => throw (.misuse .missingCommand)
  | (reading, some (command, rest)) =>
    let view ← View.ofArguments command rest
    return { source := ← reading.finish, view }

def inputs (options : DisassemblyOptions) : List String :=
  [options.source.input]

end DisassemblyOptions

def padded (width : Nat) (text : String) : String :=
  text ++ String.ofList (List.replicate (width - text.length) ' ')

def sectionTable (image : Image) : String :=
  let row (name start stop permissions kind : String) : String :=
    " ".intercalate
      [padded 10 name, padded 10 start, padded 10 stop, padded 6 permissions, padded 6 kind] ++ "\n"
  let rows := image.segments.map fun segment =>
    row segment.name (Numeral.address segment.base.toNat) (Numeral.address segment.limit.toNat)
      segment.permissions segment.kind
  row "name" "start" "end" "perms" "kind" ++ String.join rows

/-- The entries in ascending order, each of them once. Without entries, the start of the first segment
is one. -/
def seeds (image : Image) (entries : List Word) : List Word :=
  let entries := if entries.isEmpty then (image.segments.head?.map (·.base)).toList else entries
  (Std.TreeSet.ofList entries).toList

def reportText (image : Image) (entries : List Word) (limit : Nat) (format : ReportFormat) :
    String :=
  let entries := seeds image entries
  let analysis := Analysis.ofEntries image entries limit
  let report := analysis.report entries
  match format with
  | .json => report.toJson.write ++ "\n"
  | .text => report.text analysis.words.size

/-- Shows an image. A range includes its start but not its end. -/
def View.show (view : View) (image : Image) : Outcome :=
  match view with
  | .sections => .text (sectionTable image) none
  | .range options =>
    if options.start ≤ options.stop then
      let lines := (Listing.start options.start).finish image options.showBytes options.stop
      .text (String.join lines.toList) options.destination
    else .failure "end must be >= start"
  | .analyze options =>
    .text (reportText image options.entries options.limit options.format) options.destination

def Source.load (source : Source) (files : Files) : Except String Image :=
  match files source.input with
  | none => .error "No such file or directory (os error 2)"
  | some file => (Image.load file source.base source.skip source.length).mapError (·.message)

def DisassemblyOptions.perform (options : DisassemblyOptions) (files : Files) : Outcome :=
  match options.source.load files with
  | .error message => .failure message
  | .ok image => options.view.show image

end CommandLine
end LoongArch
