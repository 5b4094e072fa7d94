import BradVector.Library.Outcome
import BradVector.Library.Bytes
import BradVector.Library.Ctype
import BradVector.Isa
import BradVector.Bvbc
import BradVector.Bvrt
import BradVector.Bradc
import BradVector.Proof.LaneLoop
import BradVector.Proof.StepAccess
import BradVector.Proof.StepSafety
import BradVector.Proof.LaneMask
import BradVector.Proof.Unpack
import BradVector.Proof.RoundTrip
import BradVector.Proof.Lines
import BradVector.Proof.AsmCases
import BradVector.Proof.Passes
import BradVector.Proof.Labels
import BradVector.Proof.Written
import BradVector.Library.Collective
import BradVector.Library.Heap
import BradVector.Fabric
import BradVector.Bvcomm
import BradVector.Proof.World
import BradVector.Proof.Transfer
import BradVector.Proof.Ring
import BradVector.Proof.AllReduce
import BradVector.Proof.AllGather
import BradVector.Bvlibs
import BradVector.Bvml
import BradVector.Bvn
import BradVector.Library.Machine
import BradVector.Bradtimeline
import BradVector.Bradgdb
import BradVector.Proof.Runs
import BradVector.Proof.LaneBody
import BradVector.Proof.Tracing
import BradVector.Proof.Debugging
import BradVector.Proof.CallStack
import BradVector.Proof.Noninterference
import BradVector.WasmShim
import BradVector.Proof.Strtol
import BradVector.Proof.Termination
import BradVector.Proof.Repack
import BradVector.Proof.Containment
import BradVector.Proof.Gemm
import BradVector.Library.RingBuffer
import BradVector.Library.Transactions
import BradVector.FabricTraffic
import BradVector.Proof.FabricAtomics
import BradVector.Proof.FabricRuns
import BradVector.Proof.FabricBounds
import BradVector.Proof.FabricWindows
import BradVector.Proof.SpmpTable
import BradVector.Proof.SpmpPool
import BradVector.Proof.SpmpRuns
import BradVector.Proof.SpmpFresh
import BradVector.Proof.SpmpMaps
import BradVector.Bradisa
import BradVector.Bradasm
import BradVector.Proof.AsmTokens
import BradVector.Proof.AsmLabels
import BradVector.BradCoreEmu
import BradVector.Proof.CoreAccess
import BradVector.Library.Simulation
import BradVector.Proof.Pipelines
import BradVector.HypercoreAtlas
import BradVector.Library.Commands
import BradVector.Proof.MvramRuns
import BradVector.Bradcore
import BradVector.Proof.CoreTable
import BradVector.BradCacheEmu
import BradVector.Proof.CacheLines
import BradVector.Proof.CacheRuns
import BradVector.Proof.L1Data
import BradVector.Proof.HierarchyRuns
import BradVector.Proof.Encodings
import BradVector.Proof.AsmBranches
import BradVector.Proof.Compressed
import BradVector.Rtl
import BradVector.Proof.IsaRuns
import BradVector.Proof.PipeRuns
import BradVector.Proof.FalconLiteRuns
import BradVector.Proof.BradCoreRuns
import BradVector.Bradgfx
import BradVector.Proof.GfxRegions
import BradVector.Proof.VectorZero
import BradVector.Proof.TrapPc
import BradVector.Proof.AtomicAdd
import BradVector.Proof.VectorCopy
import BradVector.ReferenceServer
import BradVector.Proof.WalletRuns
import BradVector.TifaQuant
import BradVector.Proof.QuantRounding
import BradVector.Proof.PassTraces
import BradVector.Library.Decimal
import BradVector.Library.Digits
import BradVector.Proof.DocForms
import BradVector.Proof.DocLines
import BradVector.Proof.Documented
import BradVector.Proof.DocKernels
import BradVector.Library.Arena
import BradVector.WasmBridge
import BradVector.Proof.BridgeRuns
import BradVector.Proof.Budgets
import BradVector.Proof.LaneResults
import BradVector.Proof.Moves
import BradVector.Proof.TraceCounts
import BradVector.Proof.DmaTransfers
import BradVector.Proof.SpmpErrors
import BradVector.Proof.SpmpEncryption
import BradVector.Proof.SoftmaxRun
import BradVector.Proof.Literals
import BradVector.Proof.AsmLiterals
import BradVector.Timer
import BradVector.Bradxonc
import BradVector.Proof.CounterReads
import BradVector.Proof.TimerDelays
import BradVector.Proof.ClockFields
import BradVector.Proof.DriveRanges
import BradVector.Proof.CoreSteps
import BradVector.Proof.LiteRegisters
import BradVector.Proof.CoreTermination
import BradVector.Proof.CallReturn
import BradVector.Eroe
import BradVector.Proof.Workloads
import BradVector.Proof.CacheVictims
import BradVector.Proof.FreeSets
import BradVector.Proof.DirectLoad
import BradVector.Library.LongDivision
import BradVector.Proof.Division
import BradVector.Proof.Coalescing
import BradVector.Proof.IntQuant
import BradVector.Proof.ArenaCalls
import BradVector.Proof.Waiting
import BradVector.Library.StableSort
import BradVector.TifaMoe
import BradVector.BradvectorCore
import BradVector.Proof.Scoreboard
import BradVector.Proof.SpoolerCache
import BradVector.Proof.Formatting
import BradVector.Braddev
import BradVector.Proof.VectorResults
import BradVector.Proof.SoftmaxResult
import BradVector.Proof.ContainerRuns
import BradVector.Proof.Agreement
import BradVector.Proof.Reassembly
import BradVector.Library.Interleaving
import BradVector.Proof.SocRuns
import BradVector.BradBp
import BradVector.Library.Potential
import BradVector.Proof.Prediction
import BradVector.Library.Reordering
import BradVector.Proof.LaneOrder
import BradVector.Proof.KernelOrder
import BradVector.Library.Binary32
import BradVector.Bradsense
import BradVector.Proof.SenseNumbers
import BradVector.Proof.FrameFilters
import BradVector.Proof.FrameSharpening
import BradVector.Proof.Reconstruction
import BradVector.Proof.SenseRuns
