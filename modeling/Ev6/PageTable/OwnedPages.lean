import Ev6.PageTable.Chains
import Ev6.Support.LabelledSystem

/-!
# The pages of a duplicate

What the duplicate of one page table has got from `kalloc` in the course of its life, which
goes from `ptdup_init` through any calls of `ptdup_create_l1`, `ptdup_update`, `L0_ptes_add`
and `L0_ptes_delete`: the copies of the upper levels, their directory, and the two chains.
-/

namespace Ev6.PageTable

open Option (bind_eq_some_iff)
open List (count_append map_append map_cons mem_append mem_append_left mem_append_right mem_map
  mem_range perm_iff_count perm_middle)
open Function (update update_of_ne update_self)
open Support
open PageMemory (write_apply write_of_page_ne)

/-! ## The pages of a table -/

/-- The copies of the L1 tables. -/
def copies (memory : PageMemory Nat) (directory : Nat) : List Nat :=
  ((List.range entrySize).map (memory directory)).filter fun word => word ≠ 0

/-- The copies of the upper levels, and the directory. -/
def upperPages (memory : PageMemory Nat) (head : PtdupPages) : List Nat :=
  copies memory head.l1 ++ [head.l1, head.l2]

/-- The pages that a duplicate has. -/
def ownedPages (memory : PageMemory Nat) (head : PtdupPages) (lists : Bool → List Nat) : List Nat :=
  upperPages memory head ++ (lists true ++ lists false)

/-- The duplicate of a table: its pages, those of the two lists among them, are different
ones, and none of them is free. -/
structure Owned (l2 idx : Nat) (lists : Bool → List Nat) (stock : Stock) : Prop where
  index : stock.ptdupIndex l2 = some idx
  chain : ∀ flag, Chain stock.memory pageRecords ((stock.head idx).list flag) (lists flag)
  directory : ∀ i < entrySize, stock.memory (stock.head idx).l1 i ≠ novalue
  distinct : (ownedPages stock.memory (stock.head idx) lists ++
    stock.free.map Subtype.val).Nodup
  physical : ∀ page ∈ ownedPages stock.memory (stock.head idx) lists, IsPage page
  usable : ∀ page ∈ ownedPages stock.memory (stock.head idx) lists ++ stock.free.map Subtype.val,
    stock.kernelEnd ≤ page

section Owned

variable {l2 idx : Nat} {lists : Bool → List Nat} {stock after : Stock} {more : List Page}
  {flag : Bool}

theorem ownedPages_perm (memory : PageMemory Nat) (head : PtdupPages) (lists : Bool → List Nat)
    (flag : Bool) : (ownedPages memory head lists).Perm
      (lists flag ++ (lists (!flag) ++ upperPages memory head)) := by
  rw [perm_iff_count]
  intro page
  cases flag <;> simp only [ownedPages, count_append, Bool.not_true, Bool.not_false] <;> omega

theorem Owned.listed (owned : Owned l2 idx lists stock) (flag : Bool) :
    Listed ((stock.head idx).list flag) (lists flag) stock where
  chain := owned.chain flag
  physical page member := owned.physical page
    ((ownedPages_perm _ _ lists flag).mem_iff.mpr (mem_append_left _ member))
  apart page free member := by
    have inside := (ownedPages_perm stock.memory (stock.head idx) lists flag).mem_iff.mpr
      (mem_append_left _ member)
    exact List.disjoint_of_nodup_append owned.distinct inside (List.mem_map_of_mem free)
  distinct := List.Nodup.of_map _ owned.distinct.of_append_right

/-- The pages of the other list, the upper levels and the directory are apart from a list
that has grown. -/
theorem Owned.apart (owned : Owned l2 idx lists stock)
    (grows : Lengthens ((stock.head idx).list flag) (lists flag) stock after more) {page : Nat}
    (other : page ∈ lists (!flag) ++ upperPages stock.memory (stock.head idx)) :
    page ∉ lists flag ++ more.map Subtype.val := by
  have distinct := owned.distinct
  rw [grows.free, map_append] at distinct
  have arranged : (ownedPages stock.memory (stock.head idx) lists ++
      (more.map Subtype.val ++ after.free.map Subtype.val)).Perm
        ((lists flag ++ more.map Subtype.val) ++
          (lists (!flag) ++ upperPages stock.memory (stock.head idx) ++
            after.free.map Subtype.val)) := by
    refine ((ownedPages_perm _ _ lists flag).append_right _).trans ?_
    rw [perm_iff_count]
    intro page
    simp only [count_append]
    omega
  have apart := List.disjoint_of_nodup_append (arranged.nodup_iff.mp distinct)
  exact fun inside => apart inside (mem_append_left _ other)

theorem ownedPages_update (memory : PageMemory Nat) (head : PtdupPages)
    (lists : Bool → List Nat) (flag : Bool) (pages : List Nat) :
    (ownedPages memory head (update lists flag (lists flag ++ pages))).Perm
      (pages ++ ownedPages memory head lists) := by
  rw [perm_iff_count]
  intro page
  cases flag <;> simp [ownedPages, count_append] <;> omega

/-- The duplicate whose list has grown has the pages that the list has got. -/
theorem Owned.grow (owned : Owned l2 idx lists stock)
    (grows : Lengthens ((stock.head idx).list flag) (lists flag) stock after more) :
    Owned l2 idx (update lists flag (lists flag ++ more.map Subtype.val)) after ∧
      (ownedPages after.memory (after.head idx)
        (update lists flag (lists flag ++ more.map Subtype.val))).Perm
        (more.map Subtype.val ++ ownedPages stock.memory (stock.head idx) lists) := by
  have directory : after.memory (stock.head idx).l1 = stock.memory (stock.head idx).l1 :=
    grows.elsewhere _ (owned.apart grows (mem_append_right _ (by simp [upperPages])))
  have upper : upperPages after.memory (stock.head idx) =
      upperPages stock.memory (stock.head idx) := by
    rw [upperPages, upperPages, copies, copies, directory]
  have pages : (ownedPages after.memory (after.head idx)
      (update lists flag (lists flag ++ more.map Subtype.val))).Perm
        (more.map Subtype.val ++ ownedPages stock.memory (stock.head idx) lists) := by
    rw [grows.head]
    refine (ownedPages_update _ _ lists flag _).trans ?_
    rw [ownedPages, upper]
    exact List.Perm.refl _
  refine ⟨⟨?_, ?_, ?_, ?_, ?_, ?_⟩, pages⟩
  · rw [Stock.ptdupIndex, grows.index]
    exact owned.index
  · intro other
    rw [grows.head]
    by_cases same : other = flag
    · subst same
      rw [update_self]
      exact grows.chain
    · obtain rfl : other = !flag := by
        cases other <;> cases flag <;> simp_all
      rw [update_of_ne same]
      refine (owned.chain (!flag)).congr fun page member => ?_
      rw [grows.elsewhere page (owned.apart grows (mem_append_left _ member))]
  · rw [grows.head, directory]
    exact owned.directory
  · have before := owned.distinct
    rw [grows.free, map_append] at before
    refine (List.Perm.nodup_iff ?_).mpr before
    refine (pages.append_right _).trans ?_
    rw [perm_iff_count]
    intro page
    simp only [count_append]
    omega
  · intro page member
    rcases mem_append.mp (pages.mem_iff.mp member) with new | old
    · obtain ⟨fresh, -, rfl⟩ := mem_map.mp new
      exact fresh.property
    · exact owned.physical page old
  · intro page member
    rw [grows.kernelEnd]
    refine owned.usable page ?_
    rw [grows.free, map_append]
    rcases mem_append.mp member with inside | free
    · rcases mem_append.mp (pages.mem_iff.mp inside) with new | old
      · exact mem_append_right _ (mem_append_left _ new)
      · exact mem_append_left _ old
    · exact mem_append_right _ (mem_append_right _ free)

end Owned

/-! ## The life of a duplicate -/

/-- The calls between `ptdup_init` and `ptdup_delete_all`, and what else the kernel does. -/
inductive DupCall where
  | createL1 (l1 content : Nat)
  | update (l1 content index : Nat)
  | add (content : Nat) (flag : Bool)
  | delete (vaStart sz : Nat)
  | elsewhere

/-- The kernel, and the pages that `kalloc` has returned for the duplicate. -/
structure Life where
  stock : Stock
  taken : List Page

/-- The pages that a call has got from `kalloc`. -/
def took (before after : Stock) : List Page :=
  before.free.take (before.free.length - after.free.length)

/-- A call of `ptdup.c`. -/
def perform (passes l2 : Nat) (stock : Stock) : DupCall → Option Stock
  | .createL1 l1 content => stock.ptdupCreateL1 l2 l1 content
  | .update l1 content index => stock.ptdupUpdate l2 l1 content index
  | .add content flag => stock.l0PtesAdd passes l2 content flag
  | .delete vaStart sz => stock.l0PtesDelete passes l2 vaStart sz
  | .elsewhere => none

/-- What else the kernel does leaves the pages of the duplicate alone. -/
structure Undisturbed (l2 : Nat) (life : Life) (after : Stock) : Prop where
  index : after.ptdupIndex l2 = life.stock.ptdupIndex l2
  head : ∀ idx, life.stock.ptdupIndex l2 = some idx → after.head idx = life.stock.head idx
  memory : ∀ page ∈ life.taken, after.memory page.val = life.stock.memory page.val
  distinct : after.free.Nodup
  apart : ∀ page ∈ after.free, page ∉ life.taken
  kernelEnd : after.kernelEnd = life.stock.kernelEnd
  usable : ∀ page ∈ after.free, after.kernelEnd ≤ page.val

/-- A page table without a duplicate, and an allocator in order. -/
structure Ready (l2 : Nat) (stock : Stock) : Prop where
  index : stock.ptdupIndex l2 = none
  distinct : stock.free.Nodup
  usable : ∀ page ∈ stock.free, stock.kernelEnd ≤ page.val

/-- The life of the duplicate of one page table, from `ptdup_init` on. -/
def lifeSystem (l2 : Nat) : LabelledSystem Life DupCall where
  Initial life := ∃ before, Ready l2 before ∧ before.ptdupInit l2 = some life.stock ∧
    life.taken = took before life.stock
  Step life call next :=
    (∃ passes, perform passes l2 life.stock call = some next.stock ∧
      next.taken = life.taken ++ took life.stock next.stock) ∨
    (call = .elsewhere ∧ Undisturbed l2 life next.stock ∧ next.taken = life.taken)

/-- An L1 table is given its only duplicate, an entry is one of a page, and no record of a
list is taken for the link of its last page. -/
def Proper (l2 : Nat) (life : Life) : DupCall → Prop
  | .createL1 l1 _ => ∀ idx i, life.stock.ptdupIndex l2 = some idx →
      life.stock.l1Index l2 l1 = some i → life.stock.memory (life.stock.head idx).l1 i = 0
  | .update _ _ index => index < entrySize
  | .add _ flag => ∀ idx, life.stock.ptdupIndex l2 = some idx →
      Clear ((life.stock.head idx).list flag) life.stock.memory
  | .delete vaStart sz => ∀ idx passes middle here, life.stock.ptdupIndex l2 = some idx →
      life.stock.deletePted passes idx vaStart (Stock.deleteEnd vaStart sz) = some middle →
      Reached (Stock.sweepPass ((middle.head idx).list true)
        (Stock.ptdsDeleteSlot passes l2 vaStart (Stock.deleteEnd vaStart sz)))
        (Stock.sweepStart middle ((middle.head idx).list true)) here →
      Clear ((middle.head idx).list true) here.stock.memory
  | .elsewhere => True

/-- `ptdup_delete_all` returns, and it has put exactly the pages of the duplicate on the free
list, each once. -/
def Disposed (l2 : Nat) (life : Life) : Prop :=
  ∃ passes after freed, life.stock.ptdupDeleteAll passes l2 = some after ∧
    after.free = freed ++ life.stock.free ∧ freed.Perm life.taken ∧ freed.Nodup

/-- What holds throughout the life of a duplicate. -/
def Sound (l2 : Nat) (life : Life) : Prop :=
  ∃ idx lists, Owned l2 idx lists life.stock ∧
    (ownedPages life.stock.memory (life.stock.head idx) lists).Perm (life.taken.map Subtype.val)

section Steps

variable {l2 idx : Nat} {lists : Bool → List Nat} {stock after : Stock} {taken more : List Page}

theorem took_eq (free : stock.free = more ++ after.free) : took stock after = more := by
  rw [took, free, List.length_append, Nat.add_sub_cancel, List.take_left']
  rfl

theorem took_self (stock : Stock) : took stock stock = [] := took_eq rfl

theorem sound_grow {flag : Bool} (owned : Owned l2 idx lists stock)
    (pages : (ownedPages stock.memory (stock.head idx) lists).Perm (taken.map Subtype.val))
    (grows : Lengthens ((stock.head idx).list flag) (lists flag) stock after more) :
    ∃ lists', Owned l2 idx lists' after ∧
      (ownedPages after.memory (after.head idx) lists').Perm
        ((taken ++ took stock after).map Subtype.val) := by
  obtain ⟨kept, grown⟩ := owned.grow grows
  refine ⟨_, kept, grown.trans ?_⟩
  rw [took_eq grows.free, map_append]
  exact (pages.append_left _).trans List.perm_append_comm

theorem Owned.list_ne_zero (owned : Owned l2 idx lists stock) (flag : Bool) :
    (stock.head idx).list flag ≠ 0 := by
  have listed := owned.listed flag
  exact (listed.physical _ (List.mem_of_mem_head? listed.chain.first)).ne_zero

theorem sound_add {passes content : Nat} {flag : Bool} (owned : Owned l2 idx lists stock)
    (pages : (ownedPages stock.memory (stock.head idx) lists).Perm (taken.map Subtype.val))
    (clear : Clear ((stock.head idx).list flag) stock.memory)
    (done : stock.l0PtesAdd passes l2 content flag = some after) :
    ∃ lists', Owned l2 idx lists' after ∧
      (ownedPages after.memory (after.head idx) lists').Perm
        ((taken ++ took stock after).map Subtype.val) := by
  unfold Stock.l0PtesAdd at done
  rw [owned.index] at done
  dsimp only at done
  rw [if_neg (owned.list_ne_zero flag)] at done
  obtain ⟨more, grows⟩ := ptdsPtedAdd_lengthens (owned.listed flag) (clear _ (owned.chain flag)) done
  exact sound_grow owned pages grows

theorem sound_delete {passes vaStart sz : Nat} (owned : Owned l2 idx lists stock)
    (pages : (ownedPages stock.memory (stock.head idx) lists).Perm (taken.map Subtype.val))
    (clear : ∀ middle here,
      stock.deletePted passes idx vaStart (Stock.deleteEnd vaStart sz) = some middle →
      Reached (Stock.sweepPass ((middle.head idx).list true)
        (Stock.ptdsDeleteSlot passes l2 vaStart (Stock.deleteEnd vaStart sz)))
        (Stock.sweepStart middle ((middle.head idx).list true)) here →
      Clear ((middle.head idx).list true) here.stock.memory)
    (done : stock.l0PtesDelete passes l2 vaStart sz = some after) :
    ∃ lists', Owned l2 idx lists' after ∧
      (ownedPages after.memory (after.head idx) lists').Perm
        ((taken ++ took stock after).map Subtype.val) := by
  unfold Stock.l0PtesDelete at done
  rw [owned.index] at done
  dsimp only at done
  split at done
  · obtain ⟨middle, entries, runs⟩ := bind_eq_some_iff.mp done
    have reached := fun here => clear middle here entries
    unfold Stock.deletePted at entries
    dsimp only at entries
    rw [if_neg (owned.list_ne_zero false)] at entries
    obtain ⟨more, grows⟩ := ptedSweep_lengthens (owned.listed false) entries
    obtain ⟨lists', kept, grown⟩ := sound_grow owned pages grows
    unfold Stock.deletePtds at runs
    dsimp only at runs
    rw [if_neg (kept.list_ne_zero true)] at runs
    obtain ⟨extra, further⟩ := ptdsSweep_lengthens (kept.listed true) kept.index rfl
      reached runs
    obtain ⟨lists'', kept', grown'⟩ := sound_grow kept grown further
    refine ⟨lists'', kept', ?_⟩
    have whole : took stock after = more ++ extra :=
      took_eq (by rw [grows.free, further.free, List.append_assoc])
    rwa [took_eq grows.free, took_eq further.free, List.append_assoc, ← whole] at grown'
  · cases done
    refine ⟨lists, owned, ?_⟩
    rwa [took_self, List.append_nil]

theorem copies_set {memory memory' : PageMemory Nat} {directory i copy : Nat} (low : i < entrySize)
    (free : memory directory i = 0) (nonzero : copy ≠ 0)
    (entries : ∀ j, memory' directory j = if j = i then copy else memory directory j) :
    (copies memory' directory).Perm (copy :: copies memory directory) := by
  obtain ⟨front, back, split⟩ := List.append_of_mem (mem_range.mpr low)
  have once := List.nodup_range (n := entrySize)
  rw [split] at once
  obtain ⟨fresh, -⟩ := List.nodup_middle.mp once |> List.nodup_cons.mp
  have others : ∀ j ∈ front ++ back, memory' directory j = memory directory j := by
    intro j member
    rw [entries, if_neg]
    rintro rfl
    exact fresh member
  have here : memory' directory i = copy := by rw [entries, if_pos rfl]
  have before := List.map_congr_left fun j member => others j (mem_append_left back member)
  have behind := List.map_congr_left fun j member => others j (mem_append_right front member)
  rw [copies, copies, split, map_append, map_append, map_cons, map_cons, here,
    before, behind, free, List.filter_append, List.filter_append, List.filter_cons_of_pos (by simpa),
    List.filter_cons_of_neg (by simp)]
  exact perm_middle

theorem Owned.upper (owned : Owned l2 idx lists stock) {page : Nat}
    (member : page ∈ upperPages stock.memory (stock.head idx)) (flag : Bool) :
    page ∉ lists flag := by
  have pages := owned.distinct.of_append_left
  have arranged := (ownedPages_perm stock.memory (stock.head idx) lists flag).nodup_iff.mp pages
  exact fun inside => List.disjoint_of_nodup_append arranged inside (mem_append_right _ member)

/-- The chains are as they were when no word of them has changed. -/
theorem Owned.chains (owned : Owned l2 idx lists stock) (head : after.head idx = stock.head idx)
    (same : ∀ flag, ∀ page ∈ lists flag, after.memory page = stock.memory page) (flag : Bool) :
    Chain after.memory pageRecords ((after.head idx).list flag) (lists flag) := by
  rw [head]
  refine (owned.chain flag).congr fun page member => ?_
  rw [same flag page member]

theorem Owned.not_free (owned : Owned l2 idx lists stock) {page : Nat}
    (member : page ∈ ownedPages stock.memory (stock.head idx) lists) :
    page ∉ stock.free.map Subtype.val := List.disjoint_of_nodup_append owned.distinct member

theorem Owned.l1_ne_l2 (owned : Owned l2 idx lists stock) :
    (stock.head idx).l1 ≠ (stock.head idx).l2 := by
  have pages := owned.distinct.of_append_left.of_append_left.of_append_right
  intro same
  simp [same] at pages

theorem mem_upperPages_l1 (memory : PageMemory Nat) (head : PtdupPages) :
    head.l1 ∈ upperPages memory head := by simp [upperPages]

theorem mem_upperPages_l2 (memory : PageMemory Nat) (head : PtdupPages) :
    head.l2 ∈ upperPages memory head := by simp [upperPages]

/-- The memory after `ptdup_create_l1`. -/
def withCopy (stock : Stock) (head : PtdupPages) (next : Page) (i content : Nat) :
    PageMemory Nat :=
  ((memsetPage (allocated stock.memory next) next 0).write head.l1 i next).write head.l2 i content

theorem withCopy_of_ne {head : PtdupPages} {next : Page} {i content page : Nat}
    (new : page ≠ next.val) (one : page ≠ head.l1) (two : page ≠ head.l2) :
    withCopy stock head next i content page = stock.memory page := by
  rw [withCopy, write_of_page_ne _ _ _ two, write_of_page_ne _ _ _ one,
    memsetPage, update_of_ne new, allocated_of_ne _ new]

theorem withCopy_l1 {head : PtdupPages} {next : Page} {i content : Nat}
    (new : head.l1 ≠ next.val) (two : head.l1 ≠ head.l2) (j : Nat) :
    withCopy stock head next i content head.l1 j =
      if j = i then next.val else stock.memory head.l1 j := by
  rw [withCopy, write_of_page_ne _ _ _ two, write_apply, memsetPage,
    update_of_ne new, allocated_of_ne _ new]
  simp

theorem sound_createL1 {l1 content : Nat} (owned : Owned l2 idx lists stock)
    (pages : (ownedPages stock.memory (stock.head idx) lists).Perm (taken.map Subtype.val))
    (only : ∀ i, stock.l1Index l2 l1 = some i → stock.memory (stock.head idx).l1 i = 0)
    (done : stock.ptdupCreateL1 l2 l1 content = some after) :
    ∃ lists', Owned l2 idx lists' after ∧
      (ownedPages after.memory (after.head idx) lists').Perm
        ((taken ++ took stock after).map Subtype.val) := by
  unfold Stock.ptdupCreateL1 at done
  rw [owned.index] at done
  dsimp only at done
  split at done
  · cases done
  · cases place : stock.l1Index l2 l1 with
    | none =>
      rw [place] at done
      cases done
      refine ⟨lists, owned, ?_⟩
      rwa [took_self, List.append_nil]
    | some i =>
      rw [place] at done
      dsimp only at done
      unfold Stock.kzalloc at done
      split at done
      next => cases done
      next next rest supply =>
        obtain rfl : after = { stock with
            free := rest, memory := withCopy stock (stock.head idx) next i content } :=
          (Option.some.inj done).symm
        have low : i < entrySize := (firstSlot_eq_some.mp place).1
        have inside : next.val ∈ stock.free.map Subtype.val := by simp [supply]
        have fresh {page : Nat}
            (member : page ∈ ownedPages stock.memory (stock.head idx) lists) :
            page ≠ next.val := fun same => owned.not_free member (same ▸ inside)
        have upper {page : Nat} (member : page ∈ upperPages stock.memory (stock.head idx)) :
            page ∈ ownedPages stock.memory (stock.head idx) lists := mem_append_left _ member
        have one := mem_upperPages_l1 stock.memory (stock.head idx)
        have two := mem_upperPages_l2 stock.memory (stock.head idx)
        have directory (j : Nat) := @withCopy_l1 stock (stock.head idx) next i content
          (fresh (upper one)) owned.l1_ne_l2 j
        have more : (ownedPages (withCopy stock (stock.head idx) next i content)
            (stock.head idx) lists).Perm
              (next.val :: ownedPages stock.memory (stock.head idx) lists) := by
          have grown := copies_set low (only i place) next.property.ne_zero directory
          exact (grown.append_right _).append_right _
        refine ⟨lists, ⟨owned.index, owned.chains rfl fun flag page member => ?_, ?_, ?_, ?_, ?_⟩,
          ?_⟩
        · have mine := (ownedPages_perm stock.memory (stock.head idx) lists flag).mem_iff.mpr
            (mem_append_left _ member)
          exact withCopy_of_ne (fresh mine) (fun same => owned.upper one flag (same ▸ member))
            (fun same => owned.upper two flag (same ▸ member))
        · intro j inner
          change withCopy stock (stock.head idx) next i content (stock.head idx).l1 j ≠ novalue
          rw [directory]
          split
          · have page := next.property.bounds
            rw [novalue]
            omega
          · exact owned.directory j inner
        · have before := owned.distinct
          rw [supply, map_cons] at before
          refine ((more.append_right _).nodup_iff).mpr ?_
          exact perm_middle.nodup_iff.mp before
        · intro page member
          rcases List.mem_cons.mp (more.mem_iff.mp member) with rfl | old
          · exact next.property
          · exact owned.physical page old
        · intro page member
          refine owned.usable page ?_
          rw [supply, map_cons]
          exact perm_middle.mem_iff.mpr ((more.append_right _).mem_iff.mp member)
        · have new : took stock { stock with
              free := rest, memory := withCopy stock (stock.head idx) next i content } = [next] :=
            took_eq supply
          rw [new, map_append]
          exact more.trans ((pages.cons _).trans (List.perm_append_singleton _ _).symm)

/-- An entry of the directory is one of the copies. -/
theorem mem_copies {memory : PageMemory Nat} {directory i : Nat} (low : i < entrySize)
    (used : memory directory i ≠ 0) : memory directory i ∈ copies memory directory := by
  refine List.mem_filter.mpr ⟨List.mem_map_of_mem (mem_range.mpr low), ?_⟩
  simpa using used

theorem Owned.unchanged (owned : Owned l2 idx lists stock)
    (index : after.ptdupIndex l2 = stock.ptdupIndex l2) (head : after.head idx = stock.head idx)
    (directory : after.memory (stock.head idx).l1 = stock.memory (stock.head idx).l1)
    (chains : ∀ flag, ∀ page ∈ lists flag, after.memory page = stock.memory page)
    (distinct : (ownedPages stock.memory (stock.head idx) lists ++
      after.free.map Subtype.val).Nodup)
    (usable : ∀ page ∈ ownedPages stock.memory (stock.head idx) lists ++
      after.free.map Subtype.val, after.kernelEnd ≤ page) :
    Owned l2 idx lists after ∧
      ownedPages after.memory (after.head idx) lists =
        ownedPages stock.memory (stock.head idx) lists := by
  have same : ownedPages after.memory (after.head idx) lists =
      ownedPages stock.memory (stock.head idx) lists := by
    rw [ownedPages, upperPages, copies, head, directory]
    rfl
  refine ⟨⟨?_, owned.chains head chains, ?_, ?_, ?_, ?_⟩, same⟩
  · rw [index]
    exact owned.index
  · rw [head, directory]
    exact owned.directory
  · rw [same]
    exact distinct
  · rw [same]
    exact owned.physical
  · rw [same]
    exact usable

theorem sound_update {l1 content index : Nat} (owned : Owned l2 idx lists stock)
    (pages : (ownedPages stock.memory (stock.head idx) lists).Perm (taken.map Subtype.val))
    (done : stock.ptdupUpdate l2 l1 content index = some after) :
    ∃ lists', Owned l2 idx lists' after ∧
      (ownedPages after.memory (after.head idx) lists').Perm
        ((taken ++ took stock after).map Subtype.val) := by
  unfold Stock.ptdupUpdate at done
  rw [owned.index] at done
  dsimp only at done
  split at done
  · cases done
  · cases place : stock.l1Index (stock.head idx).l2 l1 with
    | none =>
      rw [place] at done
      cases done
    | some i =>
      rw [place, Option.elim_some] at done
      split at done
      next => cases done
      next used =>
        have copy := mem_copies (firstSlot_eq_some.mp place).1 used
        have upper : stock.memory (stock.head idx).l1 i ∈
            upperPages stock.memory (stock.head idx) := mem_append_left _ copy
        -- The copies are not the directory.
        have other : (stock.head idx).l1 ≠ stock.memory (stock.head idx).l1 i := by
          have distinct : (copies stock.memory (stock.head idx).l1 ++
              [(stock.head idx).l1, (stock.head idx).l2]).Nodup :=
            owned.distinct.of_append_left.of_append_left
          intro same
          refine List.disjoint_of_nodup_append distinct copy ?_
          rw [← same]
          exact List.mem_cons_self
        cases done
        obtain ⟨kept, same⟩ := @Owned.unchanged l2 idx lists stock
          (stock.write (stock.memory (stock.head idx).l1 i) index content) owned rfl rfl
          (stock.memory.write_of_page_ne index content other)
          (fun flag page member => stock.memory.write_of_page_ne index content fun here =>
            owned.upper upper flag (here ▸ member))
          owned.distinct owned.usable
        refine ⟨lists, kept, ?_⟩
        have none : took stock (stock.write (stock.memory (stock.head idx).l1 i) index content) =
          [] := took_eq rfl
        rw [same, none, List.append_nil]
        exact pages

theorem sound_elsewhere {life : Life} (owned : Owned l2 idx lists life.stock)
    (pages : (ownedPages life.stock.memory (life.stock.head idx) lists).Perm
      (life.taken.map Subtype.val)) (undisturbed : Undisturbed l2 life after) :
    Owned l2 idx lists after ∧
      (ownedPages after.memory (after.head idx) lists).Perm (life.taken.map Subtype.val) := by
  have memory {page : Nat}
      (member : page ∈ ownedPages life.stock.memory (life.stock.head idx) lists) :
      after.memory page = life.stock.memory page := by
    obtain ⟨mine, inside, rfl⟩ := mem_map.mp (pages.mem_iff.mp member)
    exact undisturbed.memory mine inside
  have directory := memory (mem_append_left _
    (mem_upperPages_l1 life.stock.memory (life.stock.head idx)))
  have distinct : (ownedPages life.stock.memory (life.stock.head idx) lists ++
      after.free.map Subtype.val).Nodup := by
    refine owned.distinct.of_append_left.append (undisturbed.distinct.map Subtype.val_injective) ?_
    intro page inside free
    obtain ⟨mine, taken, rfl⟩ := mem_map.mp (pages.mem_iff.mp inside)
    obtain ⟨spare, left, equal⟩ := mem_map.mp free
    exact undisturbed.apart spare left (Subtype.ext equal ▸ taken)
  have usable : ∀ page ∈ ownedPages life.stock.memory (life.stock.head idx) lists ++
      after.free.map Subtype.val, after.kernelEnd ≤ page := by
    intro page member
    rcases mem_append.mp member with inside | free
    · rw [undisturbed.kernelEnd]
      exact owned.usable page (mem_append_left _ inside)
    · obtain ⟨spare, left, rfl⟩ := mem_map.mp free
      exact undisturbed.usable spare left
  obtain ⟨kept, same⟩ := owned.unchanged undisturbed.index (undisturbed.head idx owned.index)
    directory (fun flag page member => memory ((ownedPages_perm _ _ lists flag).mem_iff.mpr
      (mem_append_left _ member))) distinct usable
  rw [same]
  exact ⟨kept, pages⟩

theorem kzalloc_inv {page : Page} (done : stock.kzalloc = some (page, after)) :
    ∃ rest, stock.free = page :: rest ∧ after = { stock with
      free := rest, memory := memsetPage (allocated stock.memory page) page 0 } := by
  unfold Stock.kzalloc at done
  split at done
  next => cases done
  next next rest supply =>
    cases done
    exact ⟨rest, supply, rfl⟩

theorem kalloc_inv {page : Page} (done : stock.kalloc = some (page, after)) :
    ∃ rest, stock.free = page :: rest ∧
      after = { stock with free := rest, memory := allocated stock.memory page } := by
  unfold Stock.kalloc at done
  split at done
  next => cases done
  next next rest supply =>
    cases done
    exact ⟨rest, supply, rfl⟩

/-- The memory after `ptdup_init`. -/
def initMemory (memory : PageMemory Nat) (copy directory ptds pted : Nat) : PageMemory Nat :=
  let upper := memsetPage (allocated (memsetPage (allocated memory copy) copy 0) directory)
    directory 0
  ((allocated (allocated upper ptds) pted).write ptds pageRecords ptds).write pted pageRecords pted

theorem ptdupInit_inv (done : stock.ptdupInit l2 = some after) :
    ∃ (idx : Nat) (copy directory ptds pted : Page) (rest : List Page),
      stock.ptdupIndex 0 = some idx ∧ l2 ≠ 0 ∧
      stock.free = [copy, directory, ptds, pted] ++ rest ∧ after.free = rest ∧
      after.memory = initMemory stock.memory copy directory ptds pted ∧
      after.head idx = ⟨copy, directory, ptds, pted⟩ ∧
      after.idxPtdup = update stock.idxPtdup idx l2 ∧
      after.kernelEnd = stock.kernelEnd := by
  unfold Stock.ptdupInit at done
  split at done
  next => cases done
  next idx place =>
    split at done
    next => cases done
    next nonzero =>
      obtain ⟨⟨copy, one⟩, first, done⟩ := bind_eq_some_iff.mp done
      obtain ⟨⟨directory, two⟩, second, done⟩ := bind_eq_some_iff.mp done
      obtain ⟨⟨ptds, three⟩, third, done⟩ := bind_eq_some_iff.mp done
      obtain ⟨⟨pted, four⟩, fourth, done⟩ := bind_eq_some_iff.mp done
      obtain ⟨free1, supply1, rfl⟩ := kzalloc_inv first
      obtain ⟨free2, supply2, rfl⟩ := kzalloc_inv second
      obtain ⟨free3, supply3, rfl⟩ := kalloc_inv third
      obtain ⟨free4, supply4, rfl⟩ := kalloc_inv fourth
      cases done
      refine ⟨idx, copy, directory, ptds, pted, free4, place, nonzero, ?_, rfl, rfl, ?_, rfl, rfl⟩
      · dsimp only at supply2 supply3 supply4
        rw [supply1, supply2, supply3, supply4]
        rfl
      · exact update_self ..

section Init

variable {memory : PageMemory Nat} {copy directory ptds pted : Nat}
  (distinct : [copy, directory, ptds, pted].Nodup)

include distinct

theorem initMemory_directory {i : Nat} (low : i < entrySize) :
    initMemory memory copy directory ptds pted directory i = 0 := by
  have one : directory ≠ pted := by rintro rfl; simp at distinct
  have two : directory ≠ ptds := by rintro rfl; simp at distinct
  simp [initMemory, write_apply, one, two, allocated_of_ne, memsetPage, low]

theorem initMemory_ptds : initMemory memory copy directory ptds pted ptds pageRecords = ptds := by
  have other : ptds ≠ pted := by rintro rfl; simp at distinct
  simp [initMemory, write_apply, other]

end Init

theorem initMemory_pted (memory : PageMemory Nat) (copy directory ptds pted : Nat) :
    initMemory memory copy directory ptds pted pted pageRecords = pted := by
  simp [initMemory]

theorem copies_of_zero {memory : PageMemory Nat} {directory : Nat}
    (zero : ∀ i < entrySize, memory directory i = 0) : copies memory directory = [] := by
  rw [copies, List.filter_eq_nil_iff]
  intro word member
  obtain ⟨i, inside, rfl⟩ := mem_map.mp member
  simp [zero i (mem_range.mp inside)]

/-- The index that `ptdup_init` has taken. -/
theorem ptdupIndex_init (fresh : stock.ptdupIndex l2 = none)
    (place : stock.ptdupIndex 0 = some idx) :
    firstSlot (fun i => update stock.idxPtdup idx l2 i = l2) ptdupSize = some idx := by
  obtain ⟨low, -, -⟩ := firstSlot_eq_some.mp place
  refine firstSlot_eq_some.mpr ⟨low, by simp, fun earlier before => ?_⟩
  have other := firstSlot_eq_none.mp fresh earlier (Nat.lt_trans before low)
  rw [update_of_ne (Nat.ne_of_lt before)]
  exact other

/-- The duplicate that `ptdup_init` makes. -/
theorem sound_init (ready : Ready l2 stock) (done : stock.ptdupInit l2 = some after) :
    Sound l2 ⟨after, took stock after⟩ := by
  obtain ⟨idx, copy, directory, ptds, pted, rest, place, -, supply, left, memory, head, index, last⟩ :=
    ptdupInit_inv done
  have all : (stock.free.map Subtype.val).Nodup := ready.distinct.map Subtype.val_injective
  rw [supply, map_append] at all
  have distinct : [copy.val, directory.val, ptds.val, pted.val].Nodup := all.of_append_left
  have zero (i : Nat) (low : i < entrySize) := @initMemory_directory stock.memory copy.val
    directory.val ptds.val pted.val distinct i low
  let lists : Bool → List Nat := fun flag => if flag then [ptds.val] else [pted.val]
  have pages : ownedPages after.memory (after.head idx) lists =
      [directory.val, copy.val, ptds.val, pted.val] := by
    rw [ownedPages, upperPages, memory, head, copies_of_zero zero]
    rfl
  have swapped : [directory.val, copy.val, ptds.val, pted.val].Perm
      ([copy, directory, ptds, pted].map Subtype.val) := List.Perm.swap ..
  have place : after.ptdupIndex l2 = some idx := by
    rw [Stock.ptdupIndex, index]
    exact ptdupIndex_init ready.index place
  have chain (flag : Bool) :
      Chain after.memory pageRecords ((after.head idx).list flag) (lists flag) := by
    rw [head, memory]
    cases flag with
    | true => exact ⟨rfl, List.nodup_singleton _, initMemory_ptds distinct⟩
    | false => exact ⟨rfl, List.nodup_singleton _, initMemory_pted ..⟩
  have entries : ∀ i < entrySize, after.memory (after.head idx).l1 i ≠ novalue := by
    intro i low
    rw [head, memory, zero i low]
    decide
  have taken : took stock after = [copy, directory, ptds, pted] := took_eq (left ▸ supply)
  refine ⟨idx, lists, ⟨place, chain, entries, ?_, ?_, ?_⟩, ?_⟩
  · rw [pages, left]
    exact ((swapped.append_right _).nodup_iff).mpr all
  · intro page member
    rw [pages] at member
    obtain ⟨fresh, -, rfl⟩ := mem_map.mp (swapped.mem_iff.mp member)
    exact fresh.property
  · intro page member
    rw [pages, left] at member
    have inside : page ∈ stock.free.map Subtype.val := by
      rw [supply, map_append]
      exact (swapped.append_right _).mem_iff.mp member
    obtain ⟨fresh, free, rfl⟩ := mem_map.mp inside
    rw [last]
    exact ready.usable fresh free
  · rw [pages, taken]
    exact swapped

theorem sound_step {life next : Life} {call : DupCall} (sound : Sound l2 life)
    (proper : Proper l2 life call) (step : (lifeSystem l2).Step life call next) :
    Sound l2 next := by
  obtain ⟨idx, lists, owned, pages⟩ := sound
  rcases step with ⟨passes, done, taken⟩ | ⟨rfl, undisturbed, taken⟩
  · rw [Sound, taken]
    cases call with
    | createL1 l1 content =>
      simp only [perform] at done
      exact ⟨idx, sound_createL1 owned pages (fun i => proper idx i owned.index) done⟩
    | update l1 content index =>
      simp only [perform] at done
      exact ⟨idx, sound_update owned pages done⟩
    | add content flag =>
      simp only [perform] at done
      exact ⟨idx, sound_add owned pages (proper idx owned.index) done⟩
    | delete vaStart sz =>
      simp only [perform] at done
      exact ⟨idx, sound_delete owned pages
        (fun middle here => proper idx passes middle here owned.index) done⟩
    | elsewhere => cases done
  · rw [Sound, taken]
    exact ⟨idx, lists, sound_elsewhere owned pages undisturbed⟩

end Steps

end Ev6.PageTable
