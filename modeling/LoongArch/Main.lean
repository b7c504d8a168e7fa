import LoongArch.CommandLine.Task

/-!
# The command line

The first argument names the program, and the others are its arguments. Files are read before the
program is carried out and written after it.
-/

set_option autoImplicit false

namespace LoongArch

namespace CommandLine

def readFile? (name : String) : IO (Option ByteArray) := do
  try
    return some (← IO.FS.readBinFile name)
  catch _ =>
    return none

/-- Makes an outcome happen. A file that cannot be written turns it into a failure. -/
def Outcome.deliver (outcome : Outcome) : IO UInt32 := do
  IO.print outcome.output
  IO.eprint outcome.complaint
  try
    for (name, text) in outcome.written do
      IO.FS.writeFile name text
    return outcome.status.toUInt32
  catch error =>
    let failure := Outcome.failure (toString error)
    IO.eprint failure.complaint
    return failure.status.toUInt32

def Task.carryOut (task : Task) : IO UInt32 := do
  let contents ← task.inputs.mapM fun name => return (name, ← readFile? name)
  (task.perform fun name => (contents.lookup name).join).deliver

end CommandLine
end LoongArch

open LoongArch.CommandLine in
def main (arguments : List String) : IO UInt32 := do
  match arguments with
  | name :: arguments =>
    if let some tool := Tool.ofName? name then
      match Task.ofArguments tool arguments with
      | .ok task => task.carryOut
      | .error interruption => (tool.interrupt interruption).deliver
    else misused
  | [] => misused
where
  misused : IO UInt32 :=
    Outcome.deliver { status := 2, complaint := "the first argument is la32r-run or la32r-disasm\n" }
