import LoongArch.Numeral

/-!
# JSON values and their text

Values keep what reading a text found, including parts that nothing will look at: a number that is no
natural number stays as it was written, and a text whose escapes spell no characters is marked as such.
Values are written over several lines, two spaces deeper in each array or object.
-/

set_option autoImplicit false

namespace LoongArch

inductive Json where
  | null
  | bool (value : Bool)
  | natural (value : Nat)
  | number (literal : String)
  /-- A text, or `none` where an escape leaves half of a surrogate pair alone. -/
  | text (content : Option String)
  | array (items : List Json)
  /-- The members in order; names are texts and may repeat. -/
  | object (members : List (Option String × Json))
deriving Inhabited

namespace Json

def ofString (content : String) : Json :=
  .text (some content)

def ofWord (word : Word) : Json :=
  .natural word.toNat

def record (members : List (String × Json)) : Json :=
  .object (members.map fun (name, value) => (some name, value))

/-- One character inside quotes. Quotes, backslashes and control characters are escaped. -/
def escape (character : Char) : String :=
  match character with
  | '"' => "\\\""
  | '\\' => "\\\\"
  | '\x08' => "\\b"
  | '\t' => "\\t"
  | '\n' => "\\n"
  | '\x0c' => "\\f"
  | '\r' => "\\r"
  | _ =>
    if character.toNat < 0x20 then "\\u" ++ Numeral.hexDigits 4 character.toNat
    else String.singleton character

def quote (content : String) : String :=
  "\"" ++ String.join (content.toList.map escape) ++ "\""

def newLine (depth : Nat) : String :=
  "\n" ++ String.ofList (List.replicate (2 * depth) ' ')

def bracket (opening closing : String) (depth : Nat) (pieces : List String) : String :=
  if pieces.isEmpty then opening ++ closing
  else
    opening ++ newLine (depth + 1) ++ ("," ++ newLine (depth + 1)).intercalate pieces ++
      newLine depth ++ closing

def layout (depth : Nat) : Json → String
  | null => "null"
  | bool true => "true"
  | bool false => "false"
  | natural value => Numeral.decimal value
  | number literal => literal
  | text content => quote (content.getD "")
  | array items => bracket "[" "]" depth (items.map (layout (depth + 1)))
  | object members =>
    bracket "\x7b" "\x7d" depth
      (members.map fun member => quote (member.1.getD "") ++ ": " ++ layout (depth + 1) member.2)
termination_by value => sizeOf value
decreasing_by
  all_goals simp_wf
  · have := List.sizeOf_lt_of_mem ‹_ ∈ items›
    omega
  · have inside := List.sizeOf_lt_of_mem ‹_ ∈ members›
    cases member
    simp_all
    omega

def write (value : Json) : String :=
  value.layout 0

end Json
end LoongArch
