import Libaflmm.Runs
import Libaflmm.Chronology
import Libaflmm.CorpusMap
import Libaflmm.CorpusHash
import Libaflmm.CorpusObs
import Libaflmm.CorpusLaws
import Libaflmm.Store
import Libaflmm.StorePartition
import Libaflmm.StoreDisk
import Libaflmm.StoreLaws
import Libaflmm.Cache
import Libaflmm.CacheFifo
import Libaflmm.CacheIdentity
import Libaflmm.CacheLaws
import Libaflmm.SchedulerQueue
import Libaflmm.Calls
import Libaflmm.StdFuzzer
import Libaflmm.FuzzerStats
import Libaflmm.Loader
import Libaflmm.LoaderRestart
import Libaflmm.LoaderFuzzer
import Libaflmm.Hitcounts
import Libaflmm.Calibration
import Libaflmm.CalibrationVerdict
import Libaflmm.MapFeedback
import Libaflmm.MapFeedbackCount
import Libaflmm.MapFeedbackNovelty
import Libaflmm.SimdFeedback
import Libaflmm.ListFeedback
import Libaflmm.Slices
import Libaflmm.BytesSubInput
import Libaflmm.Rand
import Libaflmm.Mutations
import Libaflmm.MutationsSafe
import Libaflmm.MutationsBounds
import Libaflmm.HashTables
import Libaflmm.GraphRouter
import Libaflmm.Connection
import Libaflmm.SocketSync
import Libaflmm.GenericWorker
import Libaflmm.GenericController
import Libaflmm.ControllerForward
import Libaflmm.ControllerExit
import Libaflmm.WorkerSeen
import Libaflmm.Campaign
import Libaflmm.MessageFlow
import Libaflmm.CampaignImports
import Libaflmm.RegexMutator
import Libaflmm.RegexMutatorSafe
import Libaflmm.Grammar
import Libaflmm.GrammarSizes
import Libaflmm.GrammarTree
import Libaflmm.GrammarDraws
import Libaflmm.PreorderTrees
import Libaflmm.Derivations
import Libaflmm.GrammarGenerate
import Libaflmm.AsanHost
import Libaflmm.AsanRollback
import Libaflmm.IntervalTrees
import Libaflmm.QemuEdges
import Libaflmm.QemuEdgesSize
import Libaflmm.Snapshot
import Libaflmm.SnapshotMaps
import Libaflmm.AsanFrontend
import Libaflmm.AsanFrontendShadow
import Libaflmm.HostSegments
import Libaflmm.HostSegmentsExact
import Libaflmm.RecursionInfo
import Libaflmm.RecursionSampling
import Libaflmm.Aarch64Machine
import Libaflmm.CmpLogMap
import Libaflmm.EdgeCounts
import Libaflmm.Executions
import Libaflmm.Forkserver
import Libaflmm.FridaAllocator
import Libaflmm.FridaAllocatorExact
import Libaflmm.FridaCmplog
import Libaflmm.FridaCmplogFaults
import Libaflmm.FridaCoverage
import Libaflmm.FridaCoverageExact
import Libaflmm.PcGuards
import Libaflmm.RegexLanguage
import Libaflmm.RegexLanguageExact
import Libaflmm.Restarts
import Libaflmm.StdEmulator
import Libaflmm.GraphRouterRoutes
import Libaflmm.ShadowMaps
import Libaflmm.ShadowMerges
import Libaflmm.AsanAllocErrors
import Libaflmm.Environ
import Libaflmm.GuestFastTracking
import Libaflmm.MapsReader
import Libaflmm.StringBounds
import Libaflmm.StringCopies
import Libaflmm.DrCov
import Libaflmm.DrCovLines
import Libaflmm.DrCovRoundTrip
import Libaflmm.MapsLines
import Libaflmm.MapsReads
import Libaflmm.AddressFilters
import Libaflmm.AsanAccesses
import Libaflmm.AsanChunks
import Libaflmm.AsanPoisoning
import Libaflmm.GrammarLeast
import Libaflmm.SnapshotAccesses
import Libaflmm.SnapshotFilters
import Libaflmm.StringNumbers
import Libaflmm.DrCovMerge
import Libaflmm.FileWrites
import Libaflmm.FridaCheckShadow
import Libaflmm.FridaHeapContract
import Libaflmm.FridaTotals
import Libaflmm.IntegerSqrt
import Libaflmm.LoadedDice
import Libaflmm.Patterns
import Libaflmm.RuleFormats
import Libaflmm.RuleFormatsExact
import Libaflmm.GrammarGrowth
import Libaflmm.GrammarPanics
import Libaflmm.Minimize
import Libaflmm.RuleMutations
import Libaflmm.CoreLists
import Libaflmm.Injections
import Libaflmm.SancovTables
import Libaflmm.IntelPt
import Libaflmm.ForkserverMapSize
import Libaflmm.DrCovFlush
import Libaflmm.Breakpoints
import Libaflmm.RedqueenResults
import Libaflmm.RoutineHooks
import Libaflmm.BytesSwap
import Libaflmm.SimdCovmap
import Libaflmm.ClassifyCounts
import Libaflmm.NextPowerOfTwo
import Libaflmm.CmpLogReplace
import Libaflmm.GraphRouterOnce
import Libaflmm.WorkerImports
import Libaflmm.PollRestarts
import Libaflmm.RangeMaps
import Libaflmm.DrCovModules
import Libaflmm.DrCovModulesExact
import Libaflmm.CorpusHistory
import Libaflmm.Usize
import Libaflmm.SliceReader
import Libaflmm.RandRange
import Libaflmm.Inserts
import Libaflmm.StrDecode
import Libaflmm.DictionaryFile
import Libaflmm.ShmHeader
import Libaflmm.Loops
import Libaflmm.Unparse
import Libaflmm.TreeTexts
import Libaflmm.ChunkStore
import Libaflmm.GrammarSplices
import Libaflmm.TreePumps
import Libaflmm.GrammarPumps
import Libaflmm.NautilusRuns
import Libaflmm.X86Stack
import Libaflmm.FridaShadowCheck
import Libaflmm.FridaShadowCheckExact
import Libaflmm.FridaShadowReport
import Libaflmm.QasanMalloc
import Libaflmm.QasanMarks
import Libaflmm.QasanMallocSound
import Libaflmm.QasanMallocRuns
import Libaflmm.ScheduledMutators
import Libaflmm.HavocReach
