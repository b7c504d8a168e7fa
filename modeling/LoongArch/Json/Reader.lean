import LoongArch.Json.Value

/-!
# Reading JSON

A text is read one character at a time. What has been read of the current number, word or text waits
in a lexeme; what has been read of the arrays and objects around it waits on a stack of frames. The
reader is strict: white space is space, tab, line feed and carriage return, a comma never trails, and
nothing may follow the value. Nesting has no limit.
-/

set_option autoImplicit false

namespace LoongArch

namespace Json

inductive Token where
  | openArray | closeArray | openObject | closeObject | comma | colon
  | scalar (value : Json)

/-- An array or object whose next value is being read. Finished parts are kept last first. -/
inductive Frame where
  | array (items : List Json)
  | object (members : List (Option String × Json)) (name : Option String)

inductive Expected where
  | value
  | valueOrEnd
  | nameOrEnd
  | name (members : List (Option String × Json))
  | colon (members : List (Option String × Json)) (name : Option String)
  | separator (value : Json)

structure Partial where
  expected : Expected
  frames : List Frame

namespace Partial

def start : Partial where
  expected := .value
  frames := []

def complete (frames : List Frame) (value : Json) : Partial where
  expected := .separator value
  frames := frames

def startValue (frames : List Frame) : Token → Option Partial
  | .scalar value => some (complete frames value)
  | .openArray => some ⟨.valueOrEnd, .array [] :: frames⟩
  | .openObject => some ⟨.nameOrEnd, frames⟩
  | _ => none

def endValue (value : Json) : List Frame → Token → Option Partial
  | .array items :: frames, .comma => some ⟨.value, .array (value :: items) :: frames⟩
  | .array items :: frames, .closeArray =>
    some (complete frames (.array (value :: items).reverse))
  | .object members name :: frames, .comma => some ⟨.name ((name, value) :: members), frames⟩
  | .object members name :: frames, .closeObject =>
    some (complete frames (.object ((name, value) :: members).reverse))
  | _, _ => none

def push (state : Partial) (token : Token) : Option Partial :=
  match state.expected, token with
  | .value, _ => startValue state.frames token
  | .valueOrEnd, .closeArray => some (complete state.frames.tail (.array []))
  | .valueOrEnd, _ => startValue state.frames token
  | .nameOrEnd, .closeObject => some (complete state.frames (.object []))
  | .nameOrEnd, .scalar (.text name) => some ⟨.colon [] name, state.frames⟩
  | .name members, .scalar (.text name) => some ⟨.colon members name, state.frames⟩
  | .colon members name, .colon => some ⟨.value, .object members name :: state.frames⟩
  | .separator value, _ => endValue value state.frames token
  | _, _ => none

def value? : Partial → Option Json
  | ⟨.separator value, []⟩ => some value
  | _ => none

end Partial

inductive NumberPart where
  | sign | zero | integer | point | fraction | exponentMark | exponentSign | exponent
deriving DecidableEq, Repr

namespace NumberPart

def first? (character : Char) : Option NumberPart :=
  if character = '-' then some sign
  else if character = '0' then some zero
  else if character.isDigit then some integer
  else none

def next? (part : NumberPart) (character : Char) : Option NumberPart :=
  match part with
  | sign => if character = '-' then none else first? character
  | zero => afterInteger character
  | integer => if character.isDigit then some integer else afterInteger character
  | point => if character.isDigit then some fraction else none
  | fraction => if character.isDigit then some fraction else startExponent character
  | exponentMark =>
    if character = '+' ∨ character = '-' then some exponentSign
    else if character.isDigit then some exponent
    else none
  | exponentSign => if character.isDigit then some exponent else none
  | exponent => if character.isDigit then some exponent else none
where
  startExponent (character : Char) : Option NumberPart :=
    if character = 'e' ∨ character = 'E' then some exponentMark else none
  afterInteger (character : Char) : Option NumberPart :=
    if character = '.' then some point else startExponent character

def complete : NumberPart → Bool
  | zero | integer | fraction | exponent => true
  | sign | point | exponentMark | exponentSign => false

end NumberPart

def ofNumeral (written : List Char) : Json :=
  match Numeral.appendDigits? 10 0 written with
  | some value => .natural value
  | none => .number (String.ofList written)

inductive TextPart where
  | plain
  | backslash
  | code (missing : Nat) (value : Nat)

/-- The characters that a list of codes spells. Codes from `0xD800` to `0xDFFF` stand for a character
two by two, a high one and then a low one. -/
def characters? : List Nat → Option (List Char)
  | [] => some []
  | code :: rest =>
    if 0xD800 ≤ code ∧ code ≤ 0xDBFF then
      match rest with
      | low :: rest =>
        if 0xDC00 ≤ low ∧ low ≤ 0xDFFF then
          (characters? rest).map
            (Char.ofNat (0x10000 + (code - 0xD800) * 0x400 + (low - 0xDC00)) :: ·)
        else none
      | [] => none
    else if 0xDC00 ≤ code ∧ code ≤ 0xDFFF then none
    else (characters? rest).map (Char.ofNat code :: ·)

def escaped? : Char → Option Nat
  | '"' => some 0x22
  | '\\' => some 0x5C
  | '/' => some 0x2F
  | 'b' => some 0x08
  | 'f' => some 0x0C
  | 'n' => some 0x0A
  | 'r' => some 0x0D
  | 't' => some 0x09
  | _ => none

inductive Lexeme where
  | none
  | word (rest : List Char) (value : Json)
  | number (part : NumberPart) (written : List Char)
  | text (part : TextPart) (codes : List Nat)

/-- All that is known of a text that has been read in part. -/
structure Reader where
  lexeme : Lexeme
  built : Partial

namespace Reader

def start : Reader where
  lexeme := .none
  built := .start

def token (built : Partial) (token : Token) : Option Reader :=
  (built.push token).map fun built => ⟨.none, built⟩

def between (built : Partial) (character : Char) : Option Reader :=
  match character with
  | ' ' | '\t' | '\n' | '\r' => some ⟨.none, built⟩
  | '[' => token built .openArray
  | ']' => token built .closeArray
  | '\x7b' => token built .openObject
  | '\x7d' => token built .closeObject
  | ',' => token built .comma
  | ':' => token built .colon
  | '"' => some ⟨.text .plain [], built⟩
  | 'n' => some ⟨.word ['u', 'l', 'l'] .null, built⟩
  | 't' => some ⟨.word ['r', 'u', 'e'] (.bool true), built⟩
  | 'f' => some ⟨.word ['a', 'l', 's', 'e'] (.bool false), built⟩
  | _ => (NumberPart.first? character).map fun part => ⟨.number part [character], built⟩

def inText (built : Partial) (part : TextPart) (codes : List Nat) (character : Char) :
    Option Reader :=
  match part with
  | .plain =>
    if character = '"' then
      token built (.scalar (.text ((characters? codes.reverse).map String.ofList)))
    else if character = '\\' then some ⟨.text .backslash codes, built⟩
    else if character.toNat < 0x20 then none
    else some ⟨.text .plain (character.toNat :: codes), built⟩
  | .backslash =>
    if character = 'u' then some ⟨.text (.code 4 0) codes, built⟩
    else (escaped? character).map fun code => ⟨.text .plain (code :: codes), built⟩
  | .code missing value =>
    (Numeral.digitValue? 16 character).map fun digit =>
      let value := 16 * value + digit
      if missing ≤ 1 then ⟨.text .plain (value :: codes), built⟩
      else ⟨.text (.code (missing - 1) value) codes, built⟩

def push (reader : Reader) (character : Char) : Option Reader :=
  match reader.lexeme with
  | .none => between reader.built character
  | .word rest value =>
    match rest with
    | [] => none
    | [last] => if character = last then token reader.built (.scalar value) else none
    | next :: rest => if character = next then some ⟨.word rest value, reader.built⟩ else none
  | .number part written =>
    match part.next? character with
    | some part => some ⟨.number part (character :: written), reader.built⟩
    | none =>
      if part.complete then
        (reader.built.push (.scalar (ofNumeral written.reverse))).bind (between · character)
      else none
  | .text part codes => inText reader.built part codes character

def value? (reader : Reader) : Option Json :=
  match reader.lexeme with
  | .none => reader.built.value?
  | .number part written =>
    if part.complete then
      (reader.built.push (.scalar (ofNumeral written.reverse))).bind Partial.value?
    else none
  | _ => none

end Reader

def read? (text : String) : Option Json :=
  (text.toList.foldlM Reader.push Reader.start).bind Reader.value?

end Json
end LoongArch
