import LoongArch.Effects
import LoongArch.Numeral

/-!
# Effects as text

A set of effects is written as the names of its effects in the order of their bits, with ` | ` between
them, and what is left of its bits follows in hexadecimal. A reader takes the parts in any order, with
any white space around them, and takes a blank text for the empty set.
-/

set_option autoImplicit false

namespace LoongArch

def Effect.ofName? (name : String) : Option Effect :=
  Effect.all.find? (·.name = name)

namespace Effects

def text (effects : Effects) : String :=
  let names := effects.toList.map Effect.name
  let rest := if effects.unnamed = 0 then [] else [Numeral.hex effects.unnamed.toNat]
  " | ".intercalate (names ++ rest)

def parts : List Char → List (List Char)
  | [] => [[]]
  | '|' :: rest => [] :: parts rest
  | character :: rest =>
    match parts rest with
    | first :: others => (character :: first) :: others
    | [] => [[character]]

def part? (part : List Char) : Option Effects :=
  match part with
  | '0' :: 'x' :: digits => (Numeral.natural? 16 UInt16.size digits).map fun bits => ⟨UInt16.ofNat bits⟩
  | _ => (Effect.ofName? (String.ofList part)).map fun effect => ⟨effect.bit⟩

/-- Reads a set of effects. A part may not be blank unless the whole text is. -/
def ofText? (text : String) : Option Effects :=
  if (Blank.trim text.toList).isEmpty then some empty
  else
    ((parts text.toList).mapM fun part => part? (Blank.trim part)).map
      (·.foldl union empty)

end Effects
end LoongArch
