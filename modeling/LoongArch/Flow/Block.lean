import LoongArch.Assembly
import LoongArch.Flow.Analysis
import Std.Data.TreeSet

/-!
# Blocks

The reached instructions cut into straight runs: control enters a block at its first instruction only
and leaves it after its last one only. The instructions are taken in the order of their addresses. Each
of them continues the last block if it follows it in memory, control may go on from there, and nothing
else leads to it; any other begins a block.
-/

set_option autoImplicit false

namespace LoongArch

/-- A straight run of instructions. -/
structure Block where
  start : Word
  stop : Word
  lines : Array String
deriving DecidableEq, Repr

namespace Block

def empty (start : Word) : Block where
  start := start
  stop := start
  lines := #[]

def extend (block : Block) (pc word : Word) : Block :=
  { block with
    stop := pc + 4
    lines := block.lines.push ((Instruction.decode word).text pc) }

end Block

/-- The instructions so far, cut into blocks. -/
structure Cutting where
  /-- The blocks, the last one in front. -/
  blocks : List Block
  isOpen : Bool

namespace Cutting

def empty : Cutting where
  blocks := []
  isOpen := false

/-- Takes in the next instruction, a word at its address, given where control enters and leaves. -/
def add (starts ends : Std.TreeSet Word) (cutting : Cutting) : Word × Word → Cutting
  | (pc, word) =>
    { blocks :=
        match cutting.blocks with
        | [] => [(Block.empty pc).extend pc word]
        | last :: earlier =>
          if cutting.isOpen && !starts.contains pc && last.stop == pc then
            last.extend pc word :: earlier
          else (Block.empty pc).extend pc word :: last :: earlier
      isOpen := !ends.contains pc }

end Cutting

namespace Analysis

def jumps (analysis : Analysis) : List Edge :=
  analysis.edges.toList.filter (·.kind ≠ .fallthrough)

def starts (analysis : Analysis) (entries : List Word) : Std.TreeSet Word :=
  .ofList (entries ++ analysis.jumps.map (·.target))

def ends (analysis : Analysis) : Std.TreeSet Word :=
  .ofList
    (analysis.halts.toList ++ analysis.indirect.toList ++ analysis.jumps.map (·.source))

def blocks (analysis : Analysis) (entries : List Word) : List Block :=
  let cut := Cutting.add (analysis.starts entries) analysis.ends
  (analysis.instructions.foldl cut .empty).blocks.reverse

end Analysis
end LoongArch
