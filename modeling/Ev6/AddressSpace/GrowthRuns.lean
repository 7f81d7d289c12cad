import Ev6.AddressSpace.Machine

/-!
# `sbrk` in a running machine

How a call of `growproc` ends for a process of a machine, between the operations of the other
processes.
-/

namespace Ev6.AddressSpace

open Option (any_eq_true)
open Support PageTable

/-- The process, the request and the answer of a call of `growproc` that is about to return. -/
def Slot.sbrkAnswer : Slot → Option (Proc × Int × Int × Proc)
  | .sbrk p n (.done answer) => some (p, n, answer)
  | _ => none

/-- The process, the request and the panic of a call of `growproc`. -/
def Slot.sbrkPanic : Slot → Option (Proc × Int × Panic)
  | .sbrk p n (.fault reason) => some (p, n, reason)
  | _ => none

namespace Machine

variable {all : List Page} {machine : Machine} {i : Fin nproc} {p : Proc} {n : Int}

theorem slot_of_sbrkAnswer {slot : Slot} {call : Proc × Int × Int × Proc}
    (ended : slot.sbrkAnswer = some call) : slot = .sbrk call.1 call.2.1 (.done call.2.2) := by
  unfold Slot.sbrkAnswer at ended
  split at ended
  · cases ended
    rfl
  · cases ended

theorem slot_of_sbrkPanic {slot : Slot} {call : Proc × Int × Panic}
    (ended : slot.sbrkPanic = some call) : slot = .sbrk call.1 call.2.1 (.fault call.2.2) := by
  unfold Slot.sbrkPanic at ended
  split at ended
  · cases ended
    rfl
  · cases ended

end Machine

end Ev6.AddressSpace
