import Ev6.Kernel.Memory
import Ev6.Support.Loop
import Mathlib.Logic.Function.Basic

/-!
# The M-List of memory objects

`register_memobj` and `delete_memobj` of `mlist.c`. A list is a ring of nodes
through its header. The nodes lie in pages: the first node of the first page is
the header, and the last node of a page only leads to the next page. Nodes that
hold no object carry one of two marks.
-/

namespace Ev6.MList

open Support

/-- `sizeof(struct mlist_node)`. -/
def nodeSize : Nat := 16

/-- `EMPTY`, which is also a word of a page that `kfree` has filled with ones. -/
def emptyMark : Nat := 0x0101010101010101

/-- The `addr` of a node that holds no object. -/
def freeMark (addr : Nat) : Bool := addr = emptyMark || addr = novalue

/-- The memory that the lists live in, by node, and `kmem->freelist`. The `next`
field of a `struct run` is the `addr` word of the node at the same address. -/
structure Heap where
  addr : Nat → Nat
  next : Nat → Nat
  freelist : Nat

namespace Heap

/-- `node->addr = value`. -/
def setAddr (heap : Heap) (node value : Nat) : Heap :=
  { heap with addr := Function.update heap.addr node value }

/-- `node->next = value`. -/
def setNext (heap : Heap) (node value : Nat) : Heap :=
  { heap with next := Function.update heap.next node value }

/-- `memset` of a whole page; `word` is the byte repeated eight times. -/
def memset (heap : Heap) (page word : Nat) : Heap :=
  { heap with
    addr := fun node => if page ≤ node ∧ node < page + pgsize then word else heap.addr node
    next := fun node => if page ≤ node ∧ node < page + pgsize then word else heap.next node }

end Heap

/-- What the loop of `register_memobj` ends with. -/
inductive Found where
  /-- The address is already registered. -/
  | exists
  /-- A node without an object. -/
  | free (node : Nat)
  /-- The last node of the last page. -/
  | full (node : Nat)
deriving DecidableEq

/-- One pass of the loop of `register_memobj`. -/
def registerPass (heap : Heap) (address rnode : Nat) : Pass Nat Found :=
  let rnode := if heap.addr rnode = 0 then heap.next rnode else rnode
  if rnode &&& 0xfff = 0xff0 then .leave (.full rnode)
  else if freeMark (heap.addr rnode) then .leave (.free rnode)
  else if heap.addr rnode = address then .leave .exists
  else .again (rnode + nodeSize)

namespace Heap

/-- The last node of a page is made to lead to a new page. -/
def extend (heap : Heap) (rnode nextPage : Nat) : Heap :=
  ((heap.setAddr nextPage emptyMark).setAddr rnode 0).setNext rnode nextPage

/-- A node takes the object and becomes the first of the list. The node is
tested once more before, as after the loop of `register_memobj`. -/
def link (heap : Heap) (rnode address header : Nat) : Heap :=
  if freeMark (heap.addr rnode) then
    ((heap.setAddr rnode address).setNext rnode (heap.next header)).setNext header rnode
  else heap

/-- A node takes an object and is linked behind another node, as `init_run_list`
does. -/
def linkBehind (heap : Heap) (rnode address brnode : Nat) : Heap :=
  ((heap.setAddr rnode address).setNext rnode (heap.next brnode)).setNext brnode rnode

/-- The node behind `bdnode` is taken out of the list and marked empty. -/
def unlink (heap : Heap) (bdnode : Nat) : Heap :=
  let dnode := heap.next bdnode
  ((heap.setNext bdnode (heap.next dnode)).setAddr dnode emptyMark).setNext dnode emptyMark

end Heap

/-- `register_memobj`. When the pages are full it takes another from `myKalloc`,
which avoids the address that is registered; without one it stores to address 0
and the kernel faults. -/
def registerMemobj (myKalloc : Heap → Nat → Option (Heap × Nat)) (passes : Nat) (heap : Heap)
    (address header : Nat) : Option Heap :=
  match loop (registerPass heap address) passes (header + nodeSize) with
  | none => none
  | some .exists => some heap
  | some (.free node) => some (heap.link node address header)
  | some (.full node) =>
    match myKalloc heap address with
    | none => none
    | some (heap, nextPage) =>
      if nextPage = 0 then none
      else some ((heap.extend node nextPage).link nextPage address header)

/-- The test of `delete_memobj` on a registered address. -/
def deleteTest (address size addr : Nat) : Bool :=
  if size = 0 then addr = address else address ≤ addr && addr ≤ (address + size) % 2 ^ 64

/-- One pass of the loops of `delete_memobj`. -/
def deletePass (heap : Heap) (address header size bdnode : Nat) : Pass Nat Heap :=
  if heap.next bdnode = header then .leave heap
  else if deleteTest address size (heap.addr (heap.next bdnode)) then
    .leave (heap.unlink bdnode)
  else .again (heap.next bdnode)

/-- `delete_memobj`. -/
def deleteMemobj (passes : Nat) (heap : Heap) (address header size : Nat) : Option Heap :=
  loop (deletePass heap address header size) passes header

/-- One pass of a walk from the header that collects the registered addresses. -/
def walkPass (heap : Heap) (header : Nat) (here : Nat × List Nat) : Pass (Nat × List Nat) (List Nat) :=
  let node := heap.next here.1
  if node = header then .leave here.2 else .again (node, here.2 ++ [heap.addr node])

/-- The addresses met by walking a list from its header until it returns there,
as the handlers and `search_mlist` do. -/
def walkList (passes : Nat) (heap : Heap) (header : Nat) : Option (List Nat) :=
  loop (walkPass heap header) passes (header, [])

end Ev6.MList
