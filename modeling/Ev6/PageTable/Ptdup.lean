import Ev6.PageTable.Entries
import Ev6.Support.PageChain
import Ev6.Support.Slots

/-!
# Duplicates of page tables

The data of `ptdup.c`. Each user page table has a head with a copy of its L2 table, the
copies of its L1 tables, and two lists of records of the entries of its L0 tables. The
pages of such a list are linked in a ring through their last words; here they stand in
order, from the header on, without these words.
-/

namespace Ev6.PageTable

open Support

/-- `PTDUP_SIZE`. -/
def ptdupSize : Nat := nproc + 2

/-- The records of one page of a list, the words before its link. -/
def pageRecords : Nat := entrySize - 1

theorem pageRecords_eq : pageRecords = 511 := rfl

/-- A list of records: its first page, the number of pages behind that one, and the words
of its pages one after the other. -/
structure Records where
  header : Page
  behind : Nat
  word : Nat → Nat

namespace Records

/-- The number of pages. -/
def pages (records : Records) : Nat := records.behind + 1

/-- The number of words. -/
def size (records : Records) : Nat := pageRecords * records.pages

/-- The words in the order in which the loops read them. -/
def toList (records : Records) : List Nat := (List.range records.size).map records.word

end Records

/-- A record that the loops of `recovery_handler_pagetable.c` skip. -/
def emptyRecord (word : Nat) : Bool := word = 0 || word = novalue

/-- `struct ptdup_head`, without its lock. -/
structure PtdupHead where
  l2 : Nat
  l1 : Nat
  l0Ptds : Option Records
  l0Pted : Option Records

/-- The memory, `ptdup_head` and `idx_ptdup`. The words from `ENTRY_SIZE` on of a page
are what lies behind it. -/
structure Tables where
  memory : PageMemory Nat
  head : Nat → PtdupHead
  idxPtdup : Nat → Nat

/-- `memset(page, value, PGSIZE)`, where all bytes of the word `value` are the same. -/
def memsetPage (memory : PageMemory Nat) (page value : Nat) : PageMemory Nat :=
  Function.update memory page fun index => if index < entrySize then value else memory page index

/-- `memmove(to, from, PGSIZE)`. -/
def memmovePage (memory : PageMemory Nat) (target source : Nat) : PageMemory Nat :=
  Function.update memory target fun index =>
    if index < entrySize then memory source index else memory target index

end Ev6.PageTable
