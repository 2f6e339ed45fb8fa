import WinKernl.Lib.ByteMem
import WinKernl.Lib.Ask
import WinKernl.Lib.Ends
import WinKernl.Lib.Runs
import WinKernl.Lib.Memo
import WinKernl.Lib.X86
import WinKernl.Lib.Elements
import WinKernl.Lib.Listing
import WinKernl.Lib.Orbit
import WinKernl.Lib.Text
import WinKernl.Lib.WhileLoop
import WinKernl.Lib.Interleave
import WinKernl.Lib.Rely
import WinKernl.Lib.Server
import WinKernl.Lib.Shares
import WinKernl.Lib.Table
import WinKernl.Lib.Changing
import WinKernl.Lib.ListWalk
import WinKernl.Lib.Codec
import WinKernl.PageTable
import WinKernl.PageWalk
import WinKernl.ArchWalk
import WinKernl.WalkLevels
import WinKernl.WalkReads
import WinKernl.PageTranslation
import WinKernl.WalkRaces
import WinKernl.PteStore
import WinKernl.KHook
import WinKernl.EmittedJumps
import WinKernl.Trampoline
import WinKernl.PrologueLoop
import WinKernl.HookRuns
import WinKernl.HookNesting
import WinKernl.HookFailures
import WinKernl.Mdl
import WinKernl.ReadOnlyWrite
import WinKernl.SharedLedger
import WinKernl.CopyHelpers
import WinKernl.ProcessReferences
import WinKernl.KernelAllocator
import WinKernl.GlobalAlloc
import WinKernl.SharedAllocator
import WinKernl.MemorySlice
import WinKernl.ProcessList
import WinKernl.ProcessLoop
import WinKernl.OwnedMemory
import WinKernl.OwnedInvariant
import WinKernl.OwnedOperations
import WinKernl.OwnedRuns
import WinKernl.PoolAlignment
import WinKernl.PatternSearch
import WinKernl.SystemModules
import WinKernl.FileNames
import WinKernl.ModuleBuffer
import WinKernl.StructureOffset
import WinKernl.OffsetCache
import WinKernl.CacheRaces
import WinKernl.ProcessCalls
import WinKernl.ProcessRaces
import WinKernl.ListRaces
import WinKernl.ProcessFields
import WinKernl.HookKernel
import WinKernl.HookLedger
import WinKernl.HookControl
import WinKernl.SharedKernel
import WinKernl.HookThreads
