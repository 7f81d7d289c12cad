/-!
# Call stacks and after-treatment policies

A recovery handler decides from the return addresses on the kernel stack of the
process that met the error which functions it was in (`ISINSIDE` of `nmi.h`), and
answers with a policy of `after-treatment.h`.
-/

namespace Ev6

/-- The functions that the recovery handlers look for. -/
inductive Routine where
  | beginOp
  | bfree
  | brelse
  | clockintr
  | commit
  | consoleintr
  | create
  | dirlink
  | endOp
  | exit
  | fileclose
  | freeproc
  | fsinit
  | idup
  | installTrans
  | iput
  | iupdate
  | kerneltrap
  | kernelvec
  | kvminit
  | logWrite
  | nmivec
  | pipealloc
  | procinit
  | readsb
  | sysChdir
  | sysClose
  | sysExec
  | sysFstat
  | sysLink
  | sysOpen
  | sysRead
  | sysSbrk
  | sysUnlink
  | sysWrite
  | usertrap
  | uvmalloc
  | uvmcopy
  | uvmunmap
  | virtioDiskIntr
  | writei
  | writeHead
  | writeLog
deriving DecidableEq

/-- The first and the last address of each function, as `func_pointer.c` has them. -/
abbrev Text := Routine → Nat × Nat

/-- `ISINSIDE`: a return address lies in a function. -/
def Text.isInside (text : Text) (address : Nat) (routine : Routine) : Bool :=
  decide ((text routine).1 ≤ address ∧ address ≤ (text routine).2)

/-- A return address lies in one of some functions. -/
def Text.isInsideAny (text : Text) (address : Nat) (routines : List Routine) : Bool :=
  routines.any (text.isInside address)

/-- `AGGRESSIVE` and `CONSERVATIVE`. -/
inductive RecoveryMode where
  | aggressive
  | conservative
deriving DecidableEq

/-- `DEPTH`: the return addresses that a handler looks at. -/
def depth : Nat := 30

/-- The policies of `after-treatment.h`, and the error results of the handlers. -/
abbrev Policy := Int

def Policy.syscallSuccess : Policy := 0x2
def Policy.syscallFail : Policy := 0x3
def Policy.syscallRedo : Policy := 0x4
def Policy.reopenSyscallFail : Policy := 0x5
def Policy.reopenSyscallRedo : Policy := 0x6
def Policy.failStop : Policy := 0x7
def Policy.processKill : Policy := 0x8
def Policy.returnToUser : Policy := 0x9
def Policy.returnToKernel : Policy := 0xa

end Ev6
