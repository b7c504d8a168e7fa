import LoongArch.CommandLine.Disassembler
import LoongArch.CommandLine.Runner

/-!
# Tasks

The programs behind one interface: what is asked for, which files that takes, and what comes out.
-/

set_option autoImplicit false

namespace LoongArch

namespace CommandLine

inductive Tool where
  | runner | disassembler
deriving DecidableEq, Repr

namespace Tool

def name : Tool → String
  | runner => "la32r-run"
  | disassembler => "la32r-disasm"

def ofName? (name : String) : Option Tool :=
  [runner, disassembler].find? (·.name = name)

def usage : Tool → String
  | runner =>
    "Usage: la32r-run [-e|--entry ADDR] [--base ADDR] [--mem-size N] [--max-steps N]\n" ++
      "                 [--config FILE] [--dump-state FILE] BINFILE\n"
  | disassembler =>
    "Usage: la32r-disasm [--base ADDR] [--skip N] [--len N] BINFILE COMMAND\n\n" ++
      "Commands:\n  sections\n  range START END [--show-bytes] [--out FILE]\n" ++
      "  analyze [--entry ADDR]... [--max-instr N] [--format text|json] [--out FILE]\n"

def interrupt (tool : Tool) : Interruption → Outcome
  | .help => { output := tool.usage }
  | .version => { output := tool.name ++ " 0.1.0\n" }
  | .misuse misuse =>
    { status := 2, complaint := "error: " ++ misuse.message ++ "\n\n" ++ tool.usage }

end Tool

inductive Task where
  | run (options : RunOptions)
  | disassemble (options : DisassemblyOptions)

namespace Task

def ofArguments (tool : Tool) (arguments : List String) : Except Interruption Task :=
  match tool with
  | .runner => (RunOptions.ofArguments arguments).map run
  | .disassembler => (DisassemblyOptions.ofArguments arguments).map disassemble

def inputs : Task → List String
  | run options => options.inputs
  | disassemble options => options.inputs

def perform (task : Task) (files : Files) : Outcome :=
  match task with
  | run options => options.perform files
  | disassemble options => options.perform files

end Task
end CommandLine
end LoongArch
