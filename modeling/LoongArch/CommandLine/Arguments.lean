/-!
# Command line arguments

Arguments are options, values of options, and operands. An option is written `--name`, or `-n` if it
has a letter. Its value follows as the next argument or after an equals sign; with a letter it may also
follow at once. A value that begins with a dash needs the equals sign, but a dash alone is an ordinary
argument. After `--` all arguments are operands. The name of a command in the place of an operand ends
the arguments that are meant for the program as a whole.

Reading fills in a request, from left to right. What was written last is entered when the next argument
begins, or at the end; whoever asks for help gets it only if all that stands before is understood. The
name of a command enters nothing, since the arguments of the command are read first.
-/

set_option autoImplicit false

namespace LoongArch

namespace CommandLine

structure Parameter (Request : Type) where
  name : String
  enter : String → Request → Option Request

def Parameter.readBy {Request Kind : Type} (name : String) (read? : String → Option Kind)
    (put : Kind → Request → Request) : Parameter Request where
  name := name
  enter text request := (read? text).map (put · request)

/-- An option that is understood. One that takes no value enters the empty text. -/
structure Choice (Request : Type) extends Parameter Request where
  letter : Option Char := none
  takesValue : Bool := true
  repeats : Bool := false

structure Grammar (Request : Type) where
  choices : List (Choice Request) := []
  operands : List (Parameter Request) := []
  /-- The names of the commands, of which one is wanted if there are any. -/
  commands : List String := []
  hasVersion : Bool := false

inductive Misuse where
  | unknownOption (written : String)
  | unexpectedValue (name : String)
  | missingValue (name : String)
  | repeatedOption (name : String)
  | invalidValue (name value : String)
  | unexpectedOperand (operand : String)
  | missingOperand (name : String)
  | unknownCommand (name : String)
  | missingCommand
deriving DecidableEq, Repr

def Misuse.message : Misuse → String
  | unknownOption written => "unexpected option '" ++ written ++ "'"
  | unexpectedValue name => "option '--" ++ name ++ "' takes no value"
  | missingValue name => "option '--" ++ name ++ "' needs a value"
  | repeatedOption name => "option '--" ++ name ++ "' is given more than once"
  | invalidValue name value => "invalid value '" ++ value ++ "' for '" ++ name ++ "'"
  | unexpectedOperand operand => "unexpected argument '" ++ operand ++ "'"
  | missingOperand name => "missing argument '" ++ name ++ "'"
  | unknownCommand name => "unknown command '" ++ name ++ "'"
  | missingCommand => "missing command"

inductive Interruption where
  | help
  | version
  | misuse (misuse : Misuse)
deriving DecidableEq, Repr

inductive Pending (Request : Type) where
  | nothing
  | waiting (choice : Choice Request)
  | option (choice : Choice Request) (value : String)
  | operand (operand : Parameter Request) (text : String)

structure Reading (Request : Type) where
  request : Request
  wanted : List (Parameter Request)
  given : List String := []
  pending : Pending Request := .nothing

namespace Reading

variable {Request : Type}

def enter (reading : Reading Request) (parameter : Parameter Request) (text : String) :
    Except Interruption (Reading Request) :=
  match parameter.enter text reading.request with
  | some request => .ok { reading with request }
  | none => .error (.misuse (.invalidValue parameter.name text))

def enterOption (reading : Reading Request) (choice : Choice Request) (value : String) :
    Except Interruption (Reading Request) :=
  if !choice.repeats && reading.given.contains choice.name then
    .error (.misuse (.repeatedOption choice.name))
  else
    { reading with given := choice.name :: reading.given }.enter choice.toParameter value

def settle (reading : Reading Request) : Except Interruption (Reading Request) :=
  let settled := { reading with pending := .nothing }
  match reading.pending with
  | .nothing => .ok settled
  | .waiting choice => .error (.misuse (.missingValue choice.name))
  | .option choice value => settled.enterOption choice value
  | .operand operand text => settled.enter operand text

def beginOption (reading : Reading Request) (choice : Choice Request) (value? : Option String) :
    Except Interruption (Reading Request) :=
  match choice.takesValue, value? with
  | true, some value => reading.enterOption choice value
  | true, none => .ok { reading with pending := .waiting choice }
  | false, none => reading.enterOption choice ""
  | false, some _ => .error (.misuse (.unexpectedValue choice.name))

def beginOperand (reading : Reading Request) (text : String) :
    Except Interruption (Reading Request) := do
  let reading ← reading.settle
  match reading.wanted with
  | [] => throw (.misuse (.unexpectedOperand text))
  | operand :: wanted => return { reading with wanted, pending := .operand operand text }

def finish (reading : Reading Request) : Except Interruption Request := do
  let reading ← reading.settle
  match reading.wanted with
  | [] => return reading.request
  | operand :: _ => throw (.misuse (.missingOperand operand.name))

end Reading

def isDashed (argument : String) : Bool :=
  match argument.toList with
  | '-' :: _ :: _ => true
  | _ => false

def splitValue (written : List Char) : String × Option String :=
  let value? := match written.dropWhile (· ≠ '=') with
    | '=' :: value => some (String.ofList value)
    | _ => none
  (String.ofList (written.takeWhile (· ≠ '=')), value?)

namespace Grammar

variable {Request : Type}

def longOption (grammar : Grammar Request) (reading : Reading Request) (written : List Char) :
    Except Interruption (Reading Request) := do
  let reading ← reading.settle
  let (name, value?) := splitValue written
  match grammar.choices.find? (·.name = name) with
  | some choice => reading.beginOption choice value?
  | none =>
    if value?.isNone && name = "help" then throw .help
    else if value?.isNone && name = "version" && grammar.hasVersion then throw .version
    else throw (.misuse (.unknownOption ("--" ++ name)))

def shortOption (grammar : Grammar Request) (reading : Reading Request) (letter : Char)
    (rest : List Char) : Except Interruption (Reading Request) := do
  let reading ← reading.settle
  match grammar.choices.find? (·.letter = some letter) with
  | some choice =>
    reading.beginOption choice <|
      match rest with
      | [] => none
      | '=' :: value => some (String.ofList value)
      | value => some (String.ofList value)
  | none =>
    if letter = 'h' then throw .help
    else if letter = 'V' && grammar.hasVersion then throw .version
    else throw (.misuse (.unknownOption (String.ofList ['-', letter])))

/-- What the command `help` does with the arguments after it, which may name one command. -/
def help (grammar : Grammar Request) (arguments : List String) : Interruption :=
  let known (name : String) : Bool := name = "help" || grammar.commands.contains name
  match arguments with
  | [] => .help
  | name :: rest =>
    if !known name then .misuse (.unknownCommand name)
    else
      match rest with
      | [] => .help
      | extra :: _ => .misuse (.unknownCommand extra)

def readFrom (grammar : Grammar Request) (reading : Reading Request) :
    List String → Except Interruption (Reading Request × Option (String × List String))
  | [] => .ok (reading, none)
  | argument :: rest =>
    match reading.pending with
    | .waiting choice =>
      if isDashed argument then .error (.misuse (.missingValue choice.name))
      else grammar.readFrom { reading with pending := .option choice argument } rest
    | _ =>
      if grammar.commands.contains argument then .ok (reading, some (argument, rest))
      else if argument = "help" && !grammar.commands.isEmpty then .error (grammar.help rest)
      else
        match argument.toList with
        | ['-', '-'] => (rest.foldlM Reading.beginOperand reading).map (·, none)
        | '-' :: '-' :: written => do
          grammar.readFrom (← grammar.longOption reading written) rest
        | '-' :: letter :: written => do
          grammar.readFrom (← grammar.shortOption reading letter written) rest
        | _ => do
          grammar.readFrom (← reading.beginOperand argument) rest

/-- Reads a command line into a request, up to a command or to the end. -/
def read (grammar : Grammar Request) (request : Request) (arguments : List String) :
    Except Interruption (Reading Request × Option (String × List String)) :=
  grammar.readFrom { request, wanted := grammar.operands } arguments

def readAll (grammar : Grammar Request) (request : Request) (arguments : List String) :
    Except Interruption Request := do
  (← grammar.read request arguments).1.finish

end Grammar

def path? (value : String) : Option String :=
  if value.isEmpty then none else some value

end CommandLine
end LoongArch
