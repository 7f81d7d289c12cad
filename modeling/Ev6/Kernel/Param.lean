import Mathlib.Algebra.GroupWithZero.Nat

/-!
# Kernel parameters

The constants of `param.h`, `riscv.h`, `memlayout.h` and `recovery_locking.h`
that the modelled functions read.
-/

namespace Ev6

/-- `NPROC`: the maximum number of processes. -/
def nproc : Nat := 64

instance : NeZero nproc := ⟨Nat.succ_ne_zero 63⟩

/-- `NOFILE`: open files per process. -/
def nofile : Nat := 16

/-- `NFILE`: open files per system. -/
def nfile : Nat := 100

/-- `NINODE`: the maximum number of active inodes. -/
def ninode : Nat := 50

/-- `MAXOPBLOCKS`: the number of blocks any file-system operation writes. -/
def maxopblocks : Nat := 10

/-- `LOGSIZE`: data blocks in the on-disk log. -/
def logsize : Nat := maxopblocks * 3

/-- `NBUF`: the size of the disk block cache. -/
def nbuf : Nat := maxopblocks * 3

/-- `NMI_QUEUE_SIZE`: the size of the NMI queue. -/
def nmiQueueSize : Nat := 5

/-- `PGSIZE`: bytes per page. -/
def pgsize : Nat := 4096

theorem pgsize_eq : pgsize = 4096 := rfl

/-- `ENTRY_SIZE`: words per page. -/
def entrySize : Nat := 512

theorem entrySize_eq : entrySize = 512 := rfl

/-- `KERNBASE`: the start of physical memory. -/
def kernbase : Nat := 0x80000000

/-- `PHYSTOP`: the end of physical memory. -/
def phystop : Nat := kernbase + 128 * 1024 * 1024

theorem kernbase_eq : kernbase = 0x80000000 := rfl

theorem phystop_eq : phystop = 0x88000000 := rfl

/-- `RL_FLAG_BCACHE`: the giant section of the buffer cache. -/
def rlFlagBcache : Nat := 0x1

/-- `RL_FLAG_CONS`. -/
def rlFlagCons : Nat := 0x2

/-- `RL_FLAG_FTABLE`: the giant section of the file table. -/
def rlFlagFtable : Nat := 0x3

/-- `RL_FLAG_ICACHE`: the giant section of the inode cache. -/
def rlFlagIcache : Nat := 0x4

/-- `RL_FLAG_KMEM`. -/
def rlFlagKmem : Nat := 0x5

/-- `RL_FLAG_LOG`. -/
def rlFlagLog : Nat := 0x6

/-- `RL_FLAG_PIPE`. -/
def rlFlagPipe : Nat := 0x7

/-- `RL_FLAG_PR`. -/
def rlFlagPr : Nat := 0x8

/-- `LAST_FLAG_WO_IDX`: the last flag that names a single object. -/
def lastFlagWoIdx : Nat := 8

/-- `RL_NFLAGS`: the number of recovery locks. -/
def rlNflags : Nat := 8 + nbuf + nfile + ninode + 1

/-- `RL_FLAG_MAX`: the bound the section functions check a flag against. -/
def rlFlagMax : Nat := rlNflags

/-- `LOG_COMMIT`: the exception value of the log section during `commit`. -/
def logCommit : Nat := 1

/-- `ICACHE_FORK`: the exception value of the inode-cache section in `fork`. -/
def icacheFork : Nat := 2

/-- `RCS_INFO_HISTORY_SIZE`: the slots of a process's section history. -/
def rcsInfoHistorySize : Nat := 5

end Ev6
