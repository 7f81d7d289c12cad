import Ev6.Kernel.Memory

/-!
# The M-List of page tables

`mlist_pagetable.c`, and `search_ptb_mlist` of `mlist_tracker.c`. The list is a
chain of pages from `mlist.ptb_list`. The word of a registered table holds its
address, the process and the level; zero and the junk of `kalloc` mark empty
slots. The four functions are one loop each over a page pointer and an index.
-/

namespace Ev6.MList.PageTables

open Support

/-- The index of a page's link word. -/
def linkIndex : Nat := entrySize - 1

theorem linkIndex_eq : linkIndex = 511 := rfl

/-- `PID2MLNODE`. -/
def pid2mlnode (pid : Nat) : Nat := pid <<< 2

/-- `MLNODE2PA`. -/
def mlnode2pa (node : Nat) : Nat := node &&& (2 ^ 64 - 2 ^ 12)

/-- `MLNODE2PID`. -/
def mlnode2pid (node : Nat) : Nat := (node &&& 0xFFD) >>> 2

/-- A slot that `register_ptb_mlist` may fill. -/
def emptySlot (word : Nat) : Bool := word = 0 || word = novalue

/-- What `register_ptb_mlist` is called with: a page table, a process identifier
that fits the node's field, and a level. -/
structure TableNode where
  table : Page
  pid : Fin (2 ^ 10)
  level : Fin (2 ^ 2)
deriving DecidableEq

/-- The word that `register_ptb_mlist` stores. -/
def TableNode.word (node : TableNode) : Nat :=
  node.table.val ||| pid2mlnode node.pid ||| node.level

/-- The memory of the list and `mlist.ptb_list`. `pages` are the pages that
`kalloc` has given to the list so far; no function reads it. -/
structure PtbMList where
  memory : PageMemory Nat
  ptbList : Nat
  pages : List Nat

namespace PtbMList

/-- `page[index] = value`. -/
def store (list : PtbMList) (page index value : Nat) : PtbMList :=
  { list with memory := list.memory.write page index value }

/-- The most passes that a loop over the list makes. -/
def passes (list : PtbMList) : Nat := entrySize * (list.pages.length + 1)

end PtbMList

/-- A position of one of the storing loops. -/
structure Cursor where
  list : PtbMList
  page : Nat
  index : Nat

/-- `page[i]`. -/
def Cursor.word (cursor : Cursor) : Nat := cursor.list.memory cursor.page cursor.index

/-- The start of every loop. -/
def PtbMList.front (list : PtbMList) : Cursor := ⟨list, list.ptbList, 0⟩

/-- The pass that `register_ptb_mlist` and `delete_ptb_mlist` share. At the link
word it first moves to slot 0 of the next page, or does `onLast` on the last
page; then it tests the slot, and a hit is overwritten and ends the loop. -/
def slotPass (onLast : PtbMList → Nat → Option Cursor) (hit : Nat → Bool) (value : Nat)
    (cursor : Cursor) : Pass Cursor PtbMList :=
  if entrySize ≤ cursor.index then .leave cursor.list
  else
    let moved :=
      if cursor.index = linkIndex then
        if cursor.word = cursor.list.ptbList then onLast cursor.list cursor.page
        else some ⟨cursor.list, cursor.word, 0⟩
      else some cursor
    match moved with
    | none => .leave cursor.list
    | some here =>
      if hit here.word then .leave (here.list.store here.page here.index value)
      else .again { here with index := here.index + 1 }

/-- On the last page `register_ptb_mlist` links a new page behind it, if
`kalloc` has one. -/
def extend (answer : Option Page) (list : PtbMList) (page : Nat) : Option Cursor :=
  answer.map fun (newpage : Page) =>
    let filled := { list with
      memory := allocated list.memory newpage
      pages := list.pages ++ [newpage.val] }
    ⟨(filled.store newpage linkIndex list.ptbList).store page linkIndex newpage, newpage, 0⟩

/-- `register_ptb_mlist`, with the answer that `kalloc` gives if it is called. -/
def registerPtbMlist (list : PtbMList) (node : TableNode) (answer : Option Page) :
    Option PtbMList :=
  loop (slotPass (extend answer) emptySlot node.word) list.passes list.front

/-- `delete_ptb_mlist`. -/
def deletePtbMlist (list : PtbMList) (addr : Nat) : Option PtbMList :=
  loop (slotPass (fun _ _ => none) (fun word => mlnode2pa word = addr) 0) list.passes list.front

/-- One pass of `delete_ptb_mlist_all`: the link word is tested like a slot, and
after a move to the next page the loop goes on with its slot 1. -/
def deleteAllPass (pid : Nat) (cursor : Cursor) : Pass Cursor PtbMList :=
  if entrySize ≤ cursor.index then .leave cursor.list
  else if mlnode2pid cursor.word = pid then
    .again ⟨cursor.list.store cursor.page cursor.index 0, cursor.page, cursor.index + 1⟩
  else if cursor.index = linkIndex then
    if cursor.word = cursor.list.ptbList then .leave cursor.list
    else .again ⟨cursor.list, cursor.word, 1⟩
  else .again { cursor with index := cursor.index + 1 }

/-- `delete_ptb_mlist_all`. -/
def deletePtbMlistAll (list : PtbMList) (pid : Nat) : Option PtbMList :=
  loop (deleteAllPass pid) list.passes list.front

/-- The test of `search_ptb_mlist`: the target lies in the page of the node. -/
def covers (word target : Nat) : Bool :=
  mlnode2pa word ≤ target && target < (mlnode2pa word + pgsize) % 2 ^ 64

/-- One pass of `search_ptb_mlist`, which tests the link word and continues with
slot 1 of the next page like `delete_ptb_mlist_all`. -/
def searchPass (target : Nat) (cursor : Cursor) : Pass Cursor Nat :=
  if entrySize ≤ cursor.index then .leave 0
  else if covers cursor.word target then .leave cursor.word
  else if cursor.index = linkIndex then
    if cursor.word = cursor.list.ptbList then .leave 0
    else .again ⟨cursor.list, cursor.word, 1⟩
  else .again { cursor with index := cursor.index + 1 }

/-- `search_ptb_mlist`. -/
def searchPtbMlist (list : PtbMList) (target : Nat) : Option Nat :=
  loop (searchPass target) list.passes list.front

end Ev6.MList.PageTables
