import LoongArch.Flow.Report
import LoongArch.Json.Value

/-!
# JSON forms of reports
-/

set_option autoImplicit false

namespace LoongArch

def EdgeKind.name : EdgeKind → String
  | fallthrough => "ft"
  | jump => "br"
  | branch => "cbr"
  | call => "call"

def Edge.toJson (edge : Edge) : Json :=
  .record [
    ("from", .ofWord edge.source), ("to", .ofWord edge.target), ("kind", .ofString edge.kind.name)]

def Block.toJson (block : Block) : Json :=
  .record [
    ("start", .ofWord block.start), ("end", .ofWord block.stop),
    ("insns", .array (block.lines.toList.map .ofString))]

def Report.toJson (report : Report) : Json :=
  .record [
    ("entries", words report.entries), ("blocks", .array (report.blocks.map Block.toJson)),
    ("edges", .array (report.edges.map Edge.toJson)), ("halts", words report.halts),
    ("indirect", words report.indirect), ("mem_access", words report.memoryAccesses)]
where
  words (addresses : List Word) : Json :=
    .array (addresses.map .ofWord)

end LoongArch
