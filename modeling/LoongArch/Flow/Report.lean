import LoongArch.Flow.Block

/-!
# Reports

What an analysis found, as lists, and its summary as text.
-/

set_option autoImplicit false

namespace LoongArch

structure Report where
  entries : List Word
  blocks : List Block
  edges : List Edge
  halts : List Word
  indirect : List Word
  memoryAccesses : List Word
deriving DecidableEq, Repr

def Analysis.report (analysis : Analysis) (entries : List Word) : Report where
  entries := entries
  blocks := analysis.blocks entries
  edges := analysis.edges.toList
  halts := analysis.halts.toList
  indirect := analysis.indirect.toList
  memoryAccesses := analysis.memoryAccesses.toList

def Report.line (pc : Word) (text : String) : String :=
  "  " ++ Numeral.address pc.toNat ++ ": " ++ text ++ "\n"

def Block.address (block : Block) (index : Nat) : Word :=
  block.start + 4 * .ofNat index

def Block.listing (block : Block) : List String :=
  block.lines.toList.mapIdx fun index line => Report.line (block.address index) line

def Block.text (block : Block) : String :=
  "\nloc_" ++ Numeral.hexDigits 8 block.start.toNat ++ ":\n" ++ String.join block.listing

def Report.count (label : String) (number : Nat) : String :=
  "  " ++ label ++ ": " ++ Numeral.decimal number ++ "\n"

def Report.text (report : Report) (instructions : Nat) : String :=
  "Analysis summary:\n" ++ count "insts    " instructions ++
    count "blocks   " report.blocks.length ++ count "edges    " report.edges.length ++
    count "halts    " report.halts.length ++ count "indirect " report.indirect.length ++
    count "mem      " report.memoryAccesses.length ++
    String.join (report.blocks.map Block.text)

end LoongArch
