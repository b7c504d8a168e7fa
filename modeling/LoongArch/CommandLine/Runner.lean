import LoongArch.CommandLine.Arguments
import LoongArch.CommandLine.Outcome
import LoongArch.Json.MachineForms
import LoongArch.Json.Reader
import LoongArch.Machine.Run

/-!
# Running a program

Loads the bytes of a file into memory and runs them until they stop themselves, something else stops
them, or a limit on the number of instructions is reached. The exit status tells how the program ended:
zero only if it stopped itself and reported success.
-/

set_option autoImplicit false

namespace LoongArch

namespace CommandLine

structure RunOptions where
  input : String
  entry : Option Word := none
  /-- Where the file is loaded, instead of the place where the program starts. -/
  base : Option Word := none
  memorySize : Nat := 128 * 1024 * 1024
  maxSteps : Nat := 10000000
  config : Option String := none
  dumpState : Option String := none
deriving DecidableEq, Repr

namespace RunOptions

def grammar : Grammar RunOptions where
  choices := [
    { toParameter := .readBy "entry" Numeral.word? fun entry options =>
        { options with entry := some entry },
      letter := some 'e' },
    { toParameter := .readBy "base" Numeral.word? fun base options =>
        { options with base := some base } },
    { toParameter := .readBy "mem-size" Numeral.count? fun memorySize options =>
        { options with memorySize } },
    { toParameter := .readBy "max-steps" Numeral.count? fun maxSteps options =>
        { options with maxSteps } },
    { toParameter := .readBy "config" path? fun config options =>
        { options with config := some config } },
    { toParameter := .readBy "dump-state" path? fun dumpState options =>
        { options with dumpState := some dumpState } }]
  operands := [.readBy "BINFILE" path? fun input options => { options with input }]
  hasVersion := true

def ofArguments (arguments : List String) : Except Interruption RunOptions :=
  grammar.readAll { input := "" } arguments

def inputs (options : RunOptions) : List String :=
  options.config.toList ++ [options.input]

def readConfig (options : RunOptions) (files : Files) : Except String Config := do
  let config ←
    match options.config with
    | none => pure {}
    | some name =>
      match (files name).bind String.fromUTF8? with
      | none => throw ("reading config " ++ name)
      | some text =>
        match (Json.read? text).bind Config.ofJson? with
        | none => throw ("parsing config " ++ name)
        | some config => pure config
  return { config with resetPc := options.entry.getD config.resetPc }

/-- The memory is set up before the file is read. Below the largest size it is taken to be granted. -/
def prepare (options : RunOptions) (files : Files) : Except Outcome Machine := do
  let config ← (options.readConfig files).mapError .failure
  if UInt64.size / 2 ≤ options.memorySize then throw .brokenOff
  match files options.input with
  | none => throw (.failure ("reading image " ++ options.input))
  | some image =>
    let base := options.base.getD config.resetPc
    match (Memory.zeros base options.memorySize).write base image.toList with
    | .error fault => throw (.failure fault.message)
    | .ok memory => return { cpu := .ofConfig config, memory }

end RunOptions

/-- The exit status of a program that stopped itself. A code that is not zero does not become zero when
it is cut to a byte. -/
def breakStatus (code : Word) : UInt8 :=
  if code ≠ 0 ∧ code.toUInt8 = 0 then 1 else code.toUInt8

def verdict (finished : Finished) : UInt8 × String :=
  match finished.trap with
  | none =>
    (1, "stopped after " ++ Numeral.decimal finished.steps ++ " instructions at pc = " ++
      Numeral.address finished.machine.cpu.pc.toNat)
  | some (.breakpoint pc code) =>
    (breakStatus code, (if code = 0 then "HIT GOOD TRAP" else "HIT BAD TRAP") ++ " at pc = " ++
      Numeral.address pc.toNat)
  | some trap => (1, "TRAP: " ++ trap.message)

namespace RunOptions

def perform (options : RunOptions) (files : Files) : Outcome :=
  match options.prepare files with
  | .error outcome => outcome
  | .ok machine =>
    let finished := machine.run options.maxSteps
    let (status, line) := verdict finished
    { status, complaint := line ++ "\n",
      written := options.dumpState.toList.map (·, finished.machine.cpu.toJson.write) }

end RunOptions
end CommandLine
end LoongArch
