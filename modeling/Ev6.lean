import Ev6.RecoveryLocking.History
import Ev6.RecoveryLocking.Entrance
import Ev6.RecoveryLocking.Waiting
import Ev6.Files.FileRecovery
import Ev6.Files.ForkRollback
import Ev6.BufferCache.Ring
import Ev6.MList.PageTableRegistry
import Ev6.MList.ObjectList
import Ev6.Allocator.MirrorRun
import Ev6.NmiQueue.Orderly
import Ev6.Transactions.Counters
import Ev6.Logging.Handlers
import Ev6.Allocator.KmemRecovery
import Ev6.PageTable.Recovery
import Ev6.PageTable.Unmapping
import Ev6.PageTable.Extension
import Ev6.Processes.Registration
import Ev6.PageTable.Capacity
import Ev6.MList.RecoveredList
import Ev6.MList.Relisting
import Ev6.Processes.UserCoop
import Ev6.FileSystem.ByteArray
import Ev6.FileSystem.Transfers
import Ev6.FileSystem.Accounting
import Ev6.Logging.Overflow
import Ev6.Processes.Kill
import Ev6.Console.Input
import Ev6.Pipes.Sleepers
import Ev6.Processes.Reaping
import Ev6.Processes.SchedulerRuns
import Ev6.PageTable.Translation
import Ev6.Allocator.MultiPage
import Ev6.Allocator.RunRecovery
import Ev6.MList.PageTableOwners
import Ev6.PageTable.Encoding
import Ev6.PageTable.Insertion
import Ev6.PageTable.UserBit
import Ev6.PageTable.Disposal
import Ev6.VirtioDisk.Completions
import Ev6.AddressSpace.Calls
import Ev6.AddressSpace.Custody
import Ev6.AddressSpace.Sizes
import Ev6.StackTrace.Bottom
import Ev6.StackTrace.ChdirRule
import Ev6.RecoveryLocking.BusyNodes
import Ev6.Files.InodeSearch
import Ev6.Files.PipeRecovery
import Ev6.Files.OpenArgs
import Ev6.Files.References
import Ev6.Logging.Eviction
import Ev6.FileSystem.LogBudget
import Ev6.Allocator.RunSlots
import Ev6.BufferCache.Pinning
import Ev6.RecoveryLocking.HistoryArray
import Ev6.FileSystem.PathNames
import Ev6.PageTable.UserMemory
import Ev6.UserHeap.Runs
import Ev6.FileSystem.DirectoryRuns
import Ev6.AddressSpace.Isolation
import Ev6.AddressSpace.GrowthRuns
import Ev6.AddressSpace.Freeing
import Ev6.AddressSpace.Recording
import Ev6.AddressSpace.Depiction
import Ev6.PageTable.Agreement
import Ev6.UserPrograms.Grep
import Ev6.Locks.Sleeplock
