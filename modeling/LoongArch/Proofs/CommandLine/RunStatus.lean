import LoongArch.CommandLine.Runner
import LoongArch.Proofs.Encoding
import LoongArch.Proofs.Json.RoundTrip
import LoongArch.Proofs.Machine.Resumption
import LoongArch.Proofs.Machine.ZeroRegister
import LoongArch.Proofs.MemoryHistory

/-!
# What the runner reports

A file that fits into memory is loaded and run from the entry. The exit status is zero for one kind
of run only: a breakpoint is reached within the limit while the argument register holds zero. The
state that is written to a file is that in which the run ended.
-/

set_option autoImplicit false

namespace LoongArch

namespace Machine

end Machine

/-! ## Loading -/

namespace Memory

section Image

variable (base : Word) {size : Nat} {image : ByteArray} (fits : image.size ≤ size)
include fits

end Image

end Memory

namespace CommandLine

namespace RunOptions

variable {options : RunOptions} {files : Files} {given : Config} {image : ByteArray}

end RunOptions

/-! ## Reporting -/

section Reports

variable {options : RunOptions} {start : Machine}

end Reports

end CommandLine
end LoongArch
