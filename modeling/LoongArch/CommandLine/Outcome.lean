/-!
# Outcomes

What a program does to the world outside: the status it ends with, the text it prints, and the files it
writes. The files it reads are given to it.
-/

set_option autoImplicit false

namespace LoongArch

namespace CommandLine

abbrev Files := String → Option ByteArray

structure Outcome where
  status : UInt8 := 0
  output : String := ""
  complaint : String := ""
  written : List (String × String) := []
deriving DecidableEq, Repr

def Outcome.failure (message : String) : Outcome where
  status := 1
  complaint := "Error: " ++ message ++ "\n"

/-- A program that asked for more memory than any range of addresses holds. Its complaint, which names a
place in a library, is left out. -/
def Outcome.brokenOff : Outcome where
  status := 101

/-- Text that goes to a file if one is named, and to standard output otherwise. -/
def Outcome.text (text : String) (destination : Option String) : Outcome :=
  match destination with
  | some name => { written := [(name, text)] }
  | none => { output := text }

/-- A program has succeeded, and a text is all that it printed or, if a file was named, all that it
wrote. -/
structure Outcome.Emits (outcome : Outcome) (text : String) (destination : Option String) : Prop where
  status : outcome.status = 0
  complaint : outcome.complaint = ""
  printed : destination = none → outcome.output = text ∧ outcome.written = []
  saved : ∀ name, destination = some name → outcome.output = "" ∧ outcome.written = [(name, text)]

theorem Outcome.emits_text (content : String) (destination : Option String) :
    (text content destination).Emits content destination := by
  cases destination with
  | none => exact ⟨rfl, rfl, fun _ => ⟨rfl, rfl⟩, nofun⟩
  | some name =>
    refine ⟨rfl, rfl, nofun, ?_⟩
    rintro _ ⟨⟩
    exact ⟨rfl, rfl⟩

end CommandLine
end LoongArch
