import Ev6.MList.ObjectList

/-!
# The page allocator

`kalloc` and `kfree` of `kalloc.c`, and `my_kalloc` and `init_run_list` of
`mlist.c`. The free pages are linked through their first words, from
`kmem->freelist`. Once `mlist.run_list` is set, it mirrors them.
-/

namespace Ev6.Allocator

open Support MList

/-- `delete_memobj(r, mlist.run_list, 0x0)`, which waits for the list to exist. -/
def unregister (passes runList : Nat) (heap : Heap) (r : Nat) : Option Heap :=
  if runList = 0 then some heap else deleteMemobj passes heap r runList 0

/-- `kalloc`. It returns 0 when no page is free. -/
def kalloc (passes runList : Nat) (heap : Heap) : Option (Heap × Nat) :=
  let r := heap.freelist
  if r = 0 then some (heap, 0)
  else
    (unregister passes runList { heap with freelist := heap.addr r } r).map fun heap =>
      (heap.memset r novalue, r)

/-- `my_kalloc(avoid, 0)`. When the first free page is to be avoided, the second is
taken; without a first one that reads from address 0 and the kernel faults. -/
def myKalloc (passes runList : Nat) (heap : Heap) (avoid : Nat) : Option (Heap × Nat) :=
  let r := heap.freelist
  if r = avoid then
    if r = 0 then none
    else
      let second := heap.addr r
      if second = 0 then some (heap, 0)
      else
        (unregister passes runList (heap.setAddr r (heap.addr second)) second).map fun heap =>
          (heap, second)
  else if r = 0 then some (heap, 0)
  else
    (unregister passes runList { heap with freelist := heap.addr r } r).map fun heap => (heap, r)

/-- `kfree`. It panics at an address that is no page, and when the run list needs
another page: `my_kalloc` would acquire `kmem->lock`, which `kfree` holds. -/
def kfree (passes kernelEnd runList : Nat) (heap : Heap) (pa : Nat) : Option Heap :=
  if pa % pgsize ≠ 0 ∨ pa < kernelEnd ∨ phystop ≤ pa then none
  else
    let heap := heap.memset pa emptyMark
    let registered :=
      if runList = 0 then some heap else registerMemobj (fun _ _ => none) passes heap pa runList
    registered.map fun heap => { heap.setAddr pa heap.freelist with freelist := pa }

/-- The memory of the allocator and of the lists. No function reads the other
fields: `lists` are the node pages of each list by its header, `held` are the
pages that `kalloc` has returned and `kfree` has not taken back, and `tail` is
the page that `init_run_list` leaves out, until it is first allocated. -/
structure State where
  heap : Heap
  kernelEnd : Nat
  runList : Nat
  lists : Nat → List Nat
  held : List Nat
  tail : Option Nat

namespace State

/-- More passes than a loop along the list makes. -/
def passes (state : State) (header : Nat) : Nat := 256 * ((state.lists header).length + 1)

/-- `kalloc`, with the pages of the lists. -/
def kalloc (state : State) : Option (Heap × Nat) :=
  Allocator.kalloc (state.passes state.runList) state.runList state.heap

/-- `my_kalloc`, with the pages of the lists. -/
def myKalloc (state : State) : Heap → Nat → Option (Heap × Nat) :=
  Allocator.myKalloc (state.passes state.runList) state.runList

/-- A list is given another node page. -/
def grow (state : State) (header page : Nat) : State :=
  { state with
    lists := Function.update state.lists header (state.lists header ++ [page])
    tail := state.tail.filter (· ≠ page) }

end State

/-! ## `init_run_list` -/

/-- The variables of the loop of `init_run_list`. -/
structure InitCursor where
  state : State
  r : Nat
  rnode : Nat
  brnode : Nat
  i : Nat

/-- The last node of a page is made to lead to a page from `kalloc`. -/
def nextNodePage (state : State) (rnode : Nat) : Option (State × Nat) :=
  match state.kalloc with
  | none => none
  | some (heap, nrnode) =>
    if nrnode = 0 then none
    else
      let heap := ((heap.setAddr nrnode 0x1010101).setAddr rnode 0).setNext rnode nrnode
      some ({ state with heap := heap }.grow state.runList nrnode, nrnode)

/-- One pass of the loop of `init_run_list`. -/
def initPass (here : InitCursor) : Pass InitCursor (Option State) :=
  if here.state.heap.addr here.r = 0 then
    .leave (some { here.state with tail := some here.r })
  else
    let place :=
      if here.i = lastNode then
        (nextNodePage here.state here.rnode).map fun (state, nrnode) => (state, nrnode, 0)
      else some (here.state, here.rnode, here.i)
    match place with
    | none => .leave none
    | some (state, rnode, i) =>
      let heap := state.heap.linkBehind rnode here.r here.brnode
      .again
        { state := { state with heap := heap }
          r := heap.addr here.r
          rnode := rnode + nodeSize
          brnode := heap.next here.brnode
          i := i + 1 }

/-- `init_run_list`. -/
def initRunList (passes : Nat) (state : State) : Option State :=
  (loop initPass passes
    { state := state
      r := state.heap.freelist
      rnode := state.runList + nodeSize
      brnode := state.runList
      i := 1 }).join

/-! ## Sequences of calls -/

/-- The calls: of the allocator, of `register_memobj` and `delete_memobj` on another
list, and the stores of its owner to an allocated page. -/
inductive Call where
  | kalloc
  | kfree (page : Nat)
  | register (address : Object) (header : Nat)
  | delete (address size header : Nat)
  | store (page offset addr next : Nat)

/-- The page that a registration takes from `my_kalloc`. -/
def grown (state : State) (address header : Nat) : Option Nat :=
  match loop (registerPass state.heap address) (state.passes header) (header + nodeSize) with
  | some (.full _) => (state.myKalloc state.heap address).map Prod.snd
  | _ => none

/-- One call. -/
def callStep (state : State) : Call → Option State
  | .kalloc =>
    state.kalloc.map fun (heap, r) =>
      { state with
        heap := heap
        held := if r = 0 then state.held else r :: state.held
        tail := state.tail.filter (· ≠ r) }
  | .kfree page =>
    (kfree (state.passes state.runList) state.kernelEnd state.runList state.heap page).map
      fun heap => { state with heap := heap, held := state.held.erase page }
  | .register address header =>
    (registerMemobj state.myKalloc (state.passes header) state.heap address header).map
      fun heap =>
        match grown state address header with
        | none => { state with heap := heap }
        | some page => { state with heap := heap }.grow header page
  | .delete address size header =>
    (deleteMemobj (state.passes header) state.heap address header size).map fun heap =>
      { state with heap := heap }
  | .store page offset addr next =>
    some { state with
      heap := (state.heap.setAddr (page + offset) addr).setNext (page + offset) next }

/-- Only allocated pages are freed and stored to, and the registrations are on
other lists than the run list. -/
def Allowed (state : State) : Call → Prop
  | .kalloc => True
  | .kfree page => page ∈ state.held
  | .register _ header => header ≠ state.runList ∧ state.lists header ≠ []
  | .delete _ _ header => header ≠ state.runList ∧ state.lists header ≠ []
  | .store page offset _ _ => page ∈ state.held ∧ offset < pgsize

/-- Sequences of calls from a state. -/
def allocatorSystem (start : State) : LabelledSystem State Call where
  Initial := (· = start)
  Step state call next := Allowed state call ∧ callStep state call = some next

/-! ## The free list -/

/-- One pass of a walk along `kmem->freelist`. -/
def freePass (heap : Heap) (here : Nat × List Nat) : Pass (Nat × List Nat) (List Nat) :=
  if here.1 = 0 then .leave here.2 else .again (heap.addr here.1, here.2 ++ [here.1])

/-- The pages met by walking from `kmem->freelist` to the end. -/
def walkFree (passes : Nat) (heap : Heap) : Option (List Nat) :=
  loop (freePass heap) passes (heap.freelist, [])

end Ev6.Allocator
