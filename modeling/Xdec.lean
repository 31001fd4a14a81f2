import Xdec.Ceval
import Xdec.Idioms
import Xdec.IdiomSoundness
import Xdec.Algebra
import Xdec.AlgebraSoundness
import Xdec.AlgebraWalk
import Xdec.Registers
import Xdec.RegionCollapse
import Xdec.RegisterViews
import Xdec.Ancestors
import Xdec.Cfg
import Xdec.DispatchValues
import Xdec.DominatorSoundness
import Xdec.DominatorTree
import Xdec.PostDominators
import Xdec.PostDominatorSoundness
import Xdec.PostDominatorTree
import Xdec.Block
import Xdec.Session
import Xdec.SessionSync
import Xdec.Substitution
import Xdec.LocalPasses
import Xdec.BlockSteps
import Xdec.CopyPropagation
import Xdec.LoadForwarding
import Xdec.DeadWrites
import Xdec.LocalPassSoundness
import Xdec.CHelpers
import Xdec.SignedValue
import Xdec.CForms
import Xdec.Encoding
import Xdec.DecisionTree
import Xdec.SpecProgram
import Xdec.Fallible
import Xdec.GuestMemory
import Xdec.Overlaps
import Xdec.ByteMap
import Xdec.DirtyBits
import Xdec.MemoryRefinement
import Xdec.MemorySimulation
import Xdec.MemoryAccess
import Xdec.DirtyRanges
import Xdec.GuestHistory
import Xdec.PatchValidation
import Xdec.PatchLists
import Xdec.SessionMemory
import Xdec.SessionResume
import Xdec.ByteReader
import Xdec.SpecBlob
import Xdec.SpecRoundTrip
import Xdec.SpecEngine
import Xdec.ProbeElaborate
import Xdec.SpecSafety
import Xdec.HostArithmetic
import Xdec.VerifiedBlocks
import Xdec.ByteImage
import Xdec.JumpTable
import Xdec.JumpTableSoundness
import Xdec.MemoryMap
import Xdec.MemoryScan
import Xdec.ElfLoader
import Xdec.ElfRelocations
import Xdec.ElfRelr
import Xdec.BinaryImage
import Xdec.ImageQueries
import Xdec.ImmutableRanges
import Xdec.ElfRelocationValues
import Xdec.Discovery
import Xdec.DiscoveryLines
import Xdec.DiscoveryInvariant
import Xdec.DiscoverySoundness
import Xdec.ImageEval
import Xdec.Histories
import Xdec.ImageEvalNodes
import Xdec.ImageEvalSoundness
import Xdec.FlagConditions
import Xdec.FlagTests
import Xdec.FlagPhiInvariant
import Xdec.FlagPhiDistributor
import Xdec.TestTrees
import Xdec.StructureDispatch
import Xdec.StructureDispatchSoundness
import Xdec.FlagPrinter
import Xdec.TypeLayout
import Xdec.StackLocals
import Xdec.StackMemory
import Xdec.RecoveredWidths
import Xdec.RecoveredWidthsSoundness
import Xdec.FlagPhiSteps
import Xdec.FlagPhiRuns
import Xdec.InstructionSummary
import Xdec.InstructionSummaryNodes
import Xdec.InstructionSummarySoundness
import Xdec.StackAlias
import Xdec.LoadInlining
import Xdec.SharedNames
import Xdec.SymInt
import Xdec.SymBuild
import Xdec.SpecCheck
import Xdec.BottomUp
import Xdec.FlagFolding
import Xdec.ConstantFolding
import Xdec.ImageEvalMisread
import Xdec.ImageEvalClosed
import Xdec.Tarjan
import Xdec.Reducibility
import Xdec.SpecIntegers
import Xdec.ChainedFixups
import Xdec.Demand
import Xdec.DeadCode
import Xdec.Leb
import Xdec.DyldOpcodes
import Xdec.StackEscapes
import Xdec.DeadStackStores
import Xdec.BoundedWalk
import Xdec.SpecRuns
import Xdec.SpecWalk
import Xdec.SpecCompile
import Xdec.SpecForward
import Xdec.SpecTermination
import Xdec.TopologicalOrder
import Xdec.Registry
import Xdec.RegistrySoundness
import Xdec.HeaderConstants
import Xdec.HeaderConstantsSoundness
import Xdec.TypeDatabase
import Xdec.TypeTermination
import Xdec.MergeTermination
import Xdec.DatabaseRuns
import Xdec.FieldPaths
import Xdec.StructLayout
import Xdec.BitVectors
import Xdec.ExecMemory
import Xdec.TrampolineFold
import Xdec.ExecutionCoverage
