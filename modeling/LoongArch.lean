import LoongArch.CommandLine.Task
import LoongArch.Json.InstructionForms
import LoongArch.Machine.Trace
import LoongArch.Main
import LoongArch.Proofs.BitFields
import LoongArch.Proofs.OperationEffects
import LoongArch.Proofs.Encoding
import LoongArch.Proofs.Arithmetic
import LoongArch.Proofs.MultiplyDivide
import LoongArch.Proofs.Numerals
import LoongArch.Proofs.Assembly
import LoongArch.Proofs.MemoryBytes
import LoongArch.Proofs.ImageMemory
import LoongArch.Proofs.Machine.Step
import LoongArch.Proofs.Machine.Run
import LoongArch.Proofs.Machine.Trapping
import LoongArch.Proofs.Machine.Resumption
import LoongArch.Proofs.Flow.Search
import LoongArch.Proofs.Flow.Reachability
import LoongArch.Proofs.Flow.Agreement
import LoongArch.Proofs.Flow.Coverage
import LoongArch.Proofs.Machine.Footprint
import LoongArch.Proofs.Machine.Advance
import LoongArch.Proofs.Machine.Integer
import LoongArch.Proofs.Machine.Transfer
import LoongArch.Proofs.Machine.Access
import LoongArch.Proofs.Machine.LastWriter
import LoongArch.Proofs.Machine.ZeroRegister
import LoongArch.Proofs.Machine.Lockstep
import LoongArch.Proofs.Machine.DivisionPolicy
import LoongArch.Proofs.Machine.LargerMemory
import LoongArch.Proofs.Machine.Sources
import LoongArch.Proofs.ByteAccess
import LoongArch.Proofs.MemoryHistory
import LoongArch.Proofs.Flow.Blocks
import LoongArch.Proofs.Flow.Alignment
import LoongArch.Proofs.Flow.Limit
import LoongArch.Proofs.Flow.Straightness
import LoongArch.Proofs.Flow.Bounds
import LoongArch.Proofs.Flow.SegmentCut
import LoongArch.Proofs.Checked.Arithmetic
import LoongArch.Proofs.Checked.Instruction
import LoongArch.Proofs.Checked.Memory
import LoongArch.Proofs.Checked.Step
import LoongArch.Proofs.Immediates
import LoongArch.Proofs.Listing
import LoongArch.Proofs.PatternText
import LoongArch.Proofs.PatternInclusion
import LoongArch.Proofs.TableOrder
import LoongArch.Proofs.Machine.Trace
import LoongArch.Proofs.Machine.Constants
import LoongArch.Proofs.CommandLine.AddressArguments
import LoongArch.Proofs.CommandLine.RunStatus
