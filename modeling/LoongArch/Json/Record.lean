import LoongArch.Json.Value

/-!
# Reading values by kind

How the values of a type are found in JSON. A record is an object whose members may come in any order,
or an array of its fields in their order. A named choice is the text of its name, or an object with
that name as its only member.
-/

set_option autoImplicit false

namespace LoongArch

namespace Json

def natural? (limit : Nat) : Json → Option Nat
  | .natural value => if value < limit then some value else none
  | _ => none

def word? (json : Json) : Option Word :=
  (json.natural? UInt32.size).map UInt32.ofNat

def byte? (json : Json) : Option UInt8 :=
  (json.natural? UInt8.size).map UInt8.ofNat

def string? : Json → Option String
  | .text content => content
  | _ => none

def items? {Item : Type} (item? : Json → Option Item) : Json → Option (List Item)
  | .array items => items.mapM item?
  | _ => none

/-- The members of an object as named fields. A field may stand once; members with other names do not
matter, but their names have to be texts. -/
def fields? (names : List String) : List (Option String × Json) → Option (List (String × Json))
  | [] => some []
  | (none, _) :: _ => none
  | (some name, value) :: rest =>
    (fields? names rest).bind fun fields =>
      if name ∈ names then
        if fields.any (·.1 = name) then none else some ((name, value) :: fields)
      else some fields

/-- The fields of a record, by name. An array names its items in order and may stop early. -/
def record? (names : List String) : Json → Option (List (String × Json))
  | .object members => fields? names members
  | .array items => if items.length ≤ names.length then some (names.zip items) else none
  | _ => none

def field? {Kind : Type} (fields : List (String × Json)) (name : String)
    (read? : Json → Option Kind) : Option Kind :=
  (fields.lookup name).bind read?

def fieldOr? {Kind : Type} (fields : List (String × Json)) (name : String)
    (read? : Json → Option Kind) (missing : Kind) : Option Kind :=
  match fields.lookup name with
  | some value => read? value
  | none => some missing

def choice? : Json → Option String
  | .text content => content
  | .object [(some name, .null)] => some name
  | _ => none

def carrying? : Json → Option (String × Json)
  | .object [(some name, value)] => some (name, value)
  | _ => none

def carrying (name : String) (value : Json) : Json :=
  record [(name, value)]

end Json

abbrev Spelling (Kind : Type) := List (Kind × String)

namespace Spelling

variable {Kind : Type} [DecidableEq Kind]

def write (spelling : Spelling Kind) (value : Kind) : Json :=
  .text (spelling.lookup value)

def named? (spelling : Spelling Kind) (name : String) : Option Kind :=
  (spelling.find? (·.2 = name)).map (·.1)

def read? (spelling : Spelling Kind) (json : Json) : Option Kind :=
  json.choice?.bind spelling.named?

end Spelling
end LoongArch
