import Ev6.AddressSpace.TablePages
import Mathlib.Data.Finset.Card
import Mathlib.Data.List.Range

/-!
# The size of an address space

The leaves of a process below `TRAPFRAME` are those of the pages below its size, and each
has its tables. Growing, shrinking and copying keep this. As no page is held twice, there
are never more leaves than pages of memory, so the sizes are far from the ends of the words
that hold them.
-/

namespace Ev6.AddressSpace

open Multiset (add_cons cons_add count_add)
open Support PageTable
open AssocList (find_eq_none keys mapValues)

variable {strict : Prop} {held spare : Holding}

/-! ## Numbers -/

/-- The number of the pages of an address space of a size. -/
def pages (sz : Nat) : Nat := pgroundup sz / pgsize

/-- The number of the pages of physical memory. -/
def memoryPages : Nat := (phystop - kernbase) / pgsize

theorem memoryPages_eq : memoryPages = 32768 := rfl

theorem trapframePage_eq : trapframePage = 67108862 := rfl

theorem maxPage_eq : maxPage = 67108864 := rfl

theorem pgroundup_eq {sz : Nat} (small : sz < 2 ^ 63) :
    pgroundup sz = (sz + 4095) / 4096 * 4096 := by
  have fits : (sz + pgsize - 1) % 2 ^ 64 = sz + 4095 := by
    rw [pgsize_eq]
    omega
  exact (congrArg pgrounddown fits).trans (pgrounddown_eq (by omega))

theorem pages_eq {sz : Nat} (small : sz < 2 ^ 63) : pages sz = (sz + 4095) / 4096 := by
  rw [pages, pgroundup_eq small, pgsize_eq, Nat.mul_div_cancel _ (by decide)]

/-- The pages that `uvmunmap` visits in a range that starts at a page. -/
theorem unmap_range {first size : Nat} (positive : 0 < size) (low : first * pgsize + size < 2 ^ 63) :
    pgrounddown (first * pgsize) / pgsize = first ∧
      first + World.pageSteps (first * pgsize) size = (first * pgsize + size - 1) / pgsize := by
  simp only [pgsize_eq, Nat.mul_comm first] at low ⊢
  have start : pgrounddown (4096 * first) = 4096 * first := by
    have small : 4096 * first < 2 ^ 64 := by omega
    rw [pgrounddown_eq small]
    omega
  have stop : subWord (4096 * first + size) 1 = 4096 * first + size - 1 := by
    unfold subWord
    omega
  have last : pgrounddown (4096 * first + size - 1) = (4096 * first + size - 1) / 4096 * 4096 := by
    have small : 4096 * first + size - 1 < 2 ^ 64 := by omega
    exact pgrounddown_eq small
  constructor
  · rw [start, Nat.mul_div_cancel_left _ (by decide)]
  · rw [World.pageSteps, pgsize_eq, stop, last, start, subWord]
    omega

/-- There are not more different pages than memory has. -/
theorem length_le_memoryPages {pages : List Page} (once : pages.Nodup) :
    pages.length ≤ memoryPages := by
  have apart : (pages.map fun page => (page.val - kernbase) / pgsize).Nodup := by
    refine once.map fun first second equal => Subtype.ext ?_
    have one := first.property.bounds
    have other := second.property.bounds
    rw [kernbase_eq, pgsize_eq] at equal
    omega
  have inside : (pages.map fun page => (page.val - kernbase) / pgsize).toFinset ⊆
      Finset.range memoryPages := by
    intro number member
    obtain ⟨page, _, rfl⟩ := List.mem_map.mp (List.mem_toFinset.mp member)
    have bounds := page.property.bounds
    rw [Finset.mem_range, memoryPages_eq, kernbase_eq, pgsize_eq]
    omega
  have few := Finset.card_le_card inside
  rwa [List.toFinset_card_of_nodup apart, List.length_map, Finset.card_range] at few

/-! ## Leaves -/

namespace Table

variable {table after : Table} {self n count : Nat} {page : Page} {S : Nat → Prop}

/-- The leaves below `TRAPFRAME` are those of the pages in `S`. Each leaf has its tables and
can be read, and those from `TRAPFRAME` on are not for the user. -/
structure Spans (table : Table) (S : Nat → Prop) : Prop where
  once : (keys table.leaves).Nodup
  user : ∀ n < trapframePage, (table.leaf n).isSome = true ↔ S n
  reached : ∀ n, (table.leaf n).isSome = true → table.reaches n = true
  readable : ∀ n pte, table.leaf n = some pte → pte.perm &&& pteR ≠ 0
  kernel : ∀ n pte, trapframePage ≤ n → table.leaf n = some pte → pte.perm &&& pteU = 0

/-- The leaves below `TRAPFRAME` are those of the first pages. -/
abbrev Filled (table : Table) (count : Nat) : Prop := table.Spans fun n => n < count

variable {pte : Pte}

theorem leaf_withLeaf (k : Nat) :
    (table.withLeaf n pte).leaf k = if n = k then some pte else table.leaf k :=
  AssocList.find_cons (n, pte)

theorem leaf_withoutLeaf (once : (keys table.leaves).Nodup) (k : Nat) :
    (table.withoutLeaf n).leaf k = if k = n then none else table.leaf k :=
  AssocList.find_remove once

theorem Steady.leaf (steady : Steady table after) (n : Nat) : after.leaf n = table.leaf n := by
  rw [Table.leaf, Table.leaf, steady.leaves]

theorem Spans.congr {T : Nat → Prop} (spans : table.Spans S) (same : ∀ n, S n ↔ T n) :
    table.Spans T :=
  ⟨spans.once, fun n user => (spans.user n user).trans (same n), spans.reached, spans.readable,
    spans.kernel⟩

theorem Spans.steady (spans : table.Spans S) (steady : Steady table after) : after.Spans S := by
  refine ⟨by rw [steady.leaves]; exact spans.once, fun n user => ?_, fun n there => ?_,
    fun n pte found => ?_, fun n pte kernel found => ?_⟩
  · rw [steady.leaf]
    exact spans.user n user
  · rw [steady.leaf] at there
    exact steady.reaches n (spans.reached n there)
  · rw [steady.leaf] at found
    exact spans.readable n pte found
  · rw [steady.leaf] at found
    exact spans.kernel n pte kernel found

theorem Spans.withLeaf (spans : table.Spans S) (free : table.leaf n = none)
    (reached : table.reaches n = true) (read : pte.perm &&& pteR ≠ 0)
    (fine : trapframePage ≤ n → pte.perm &&& pteU = 0) :
    (table.withLeaf n pte).Spans fun k => S k ∨ k = n := by
  refine ⟨?_, fun k user => ?_, fun k there => ?_, fun k other found => ?_,
    fun k other kernel found => ?_⟩
  · exact List.nodup_cons.mpr ⟨find_eq_none.mp free, spans.once⟩
  · rw [leaf_withLeaf]
    by_cases same : n = k
    · simp [same]
    · rw [if_neg same, spans.user k user]
      exact ⟨.inl, fun either => either.resolve_right (Ne.symm same)⟩
  · rw [leaf_withLeaf] at there
    by_cases same : n = k
    · exact same ▸ reached
    · rw [if_neg same] at there
      exact spans.reached k there
  · rw [leaf_withLeaf] at found
    by_cases same : n = k
    · rw [if_pos same] at found
      exact Option.some.inj found ▸ read
    · rw [if_neg same] at found
      exact spans.readable k other found
  · rw [leaf_withLeaf] at found
    by_cases same : n = k
    · subst same
      rw [if_pos rfl] at found
      exact Option.some.inj found ▸ fine kernel
    · rw [if_neg same] at found
      exact spans.kernel k other kernel found

theorem Spans.withoutLeaf (spans : table.Spans S) (n : Nat) :
    (table.withoutLeaf n).Spans fun k => S k ∧ k ≠ n := by
  refine ⟨AssocList.nodup_keys_remove spans.once, fun k user => ?_, fun k there => ?_,
    fun k other found => ?_, fun k other kernel found => ?_⟩
  · rw [leaf_withoutLeaf spans.once]
    by_cases same : k = n
    · simp [same]
    · rw [if_neg same, spans.user k user]
      exact ⟨fun inside => ⟨inside, same⟩, And.left⟩
  · rw [leaf_withoutLeaf spans.once] at there
    by_cases same : k = n
    · simp [same] at there
    · rw [if_neg same] at there
      exact spans.reached k there
  · rw [leaf_withoutLeaf spans.once] at found
    by_cases same : k = n
    · simp [same] at found
    · rw [if_neg same] at found
      exact spans.readable k other found
  · rw [leaf_withoutLeaf spans.once] at found
    by_cases same : k = n
    · simp [same] at found
    · rw [if_neg same] at found
      exact spans.kernel k other kernel found

/-- There are as many pages as leaves below `TRAPFRAME`. -/
theorem Filled.length (filled : table.Filled count) (low : count ≤ trapframePage) :
    table.userPages.length = count := by
  have once : (keys (AssocList.only isUser table.leaves)).Nodup :=
    filled.once.sublist (List.filter_sublist.map Prod.fst)
  have same : (keys (AssocList.only isUser table.leaves)).Perm (List.range count) := by
    refine (List.perm_ext_iff_of_nodup once List.nodup_range).mpr fun k => ?_
    rw [List.mem_range]
    constructor
    · intro member
      obtain ⟨entry, there, rfl⟩ := List.mem_map.mp member
      obtain ⟨there, user⟩ := List.mem_filter.mp there
      refine (filled.user _ (of_decide_eq_true user)).mp ?_
      rw [Option.isSome_iff_ne_none, Table.leaf, Ne, find_eq_none, not_not]
      exact List.mem_map_of_mem there
    · intro inside
      have user : isUser k = true := decide_eq_true (inside.trans_le low)
      have there := (filled.user k (inside.trans_le low)).mpr inside
      rw [Option.isSome_iff_ne_none, Table.leaf, ← AssocList.find_only _ user, Ne,
        find_eq_none, not_not] at there
      exact there
  have lengths := same.length_eq
  rw [List.length_range] at lengths
  rw [userPages, List.length_map]
  rwa [keys, List.length_map] at lengths

/-- A table that is held has at most as many leaves as memory has pages. -/
theorem Filled.bounded (filled : table.Filled count) (low : count ≤ trapframePage)
    (single : Single (table.holding + spare)) : count ≤ memoryPages := by
  have once : table.userPages.Nodup := by
    rw [← Multiset.coe_nodup, Multiset.nodup_iff_count_le_one]
    intro page
    have bound := single page
    rw [holding, count_add, count_add, count_items_page] at bound
    omega
  rw [← filled.length low]
  exact length_le_memoryPages once

/-! ## Shrinking -/

theorem unmapPages_fault {post : Table → Holding → Prop} {doFree : Bool} (steps : Nat)
    (absent : table.leaf n = none) :
    (custody strict).Holds held (unmapPages doFree steps n table) post := by
  have fails : (custody strict).Holds held (table.unmapPage n doFree) fun _ _ => False := by
    unfold unmapPage
    rw [absent]
    split
    · exact .fault
    split
    · exact .fault
    · exact .fault
  cases steps with
  | zero => exact fails.mono fun _ _ never => never.elim
  | succ steps => exact fails.bind fun _ _ never => never.elim

/-- Pages below `TRAPFRAME` are unmapped and freed. -/
theorem unmapPages_free_holds (steps : Nat) (spans : table.Spans S)
    (low : n + steps < trapframePage) :
    (custody strict).Holds (table.holding + spare) (unmapPages true steps n table)
      fun after kept => kept = after.holding + spare ∧ after.root = table.root ∧
        after.Spans fun k => S k ∧ ¬ (n ≤ k ∧ k ≤ n + steps) := by
  induction steps generalizing table n S with
  | zero =>
    refine (unmapPage_free_holds low).mono fun after kept met => ?_
    obtain ⟨rfl, rfl, _⟩ := met
    refine ⟨rfl, rfl, (spans.withoutLeaf n).congr fun k => and_congr_right fun _ => ?_⟩
    omega
  | succ steps ih =>
    refine (unmapPage_free_holds (by omega)).bind fun after kept met => ?_
    obtain ⟨rfl, rfl, _⟩ := met
    refine (ih (spans.withoutLeaf n) (by omega)).mono fun after kept met => ?_
    obtain ⟨rfl, root, spans⟩ := met
    refine ⟨rfl, root, spans.congr fun k => ?_⟩
    rw [and_assoc]
    refine and_congr_right fun _ => ?_
    omega

/-- `uvmunmap` of the pages from one on, up to the last. -/
theorem uvmunmap_free_holds {first size : Nat} (positive : 0 < size)
    (filled : table.Filled count) (last : count = (first * pgsize + size + 4095) / 4096)
    (bounded : count ≤ memoryPages) (inside : first ≤ count) :
    (custody strict).Holds (table.holding + spare) (table.uvmunmap (first * pgsize) size true)
      fun after kept => kept = after.holding + spare ∧ after.root = table.root ∧
        after.Filled first := by
  have sizes : pgsize = 4096 := pgsize_eq
  have most : memoryPages = 32768 := memoryPages_eq
  have top : trapframePage = 67108862 := trapframePage_eq
  have small : first * pgsize + size < 2 ^ 63 := by
    rw [sizes] at last ⊢
    omega
  obtain ⟨start, steps⟩ := unmap_range positive small
  have count_eq : first + World.pageSteps (first * pgsize) size + 1 = count := by
    rw [steps, last, sizes]
    omega
  unfold uvmunmap
  rw [start]
  refine (unmapPages_free_holds _ filled (by omega)).bind fun after kept met => ?_
  obtain ⟨rfl, root, spans⟩ := met
  refine l0PtesDelete_holds.mono fun final kept met => ?_
  obtain ⟨rfl, steady⟩ := met
  refine ⟨rfl, steady.root.trans root, (spans.congr fun k => ?_).steady steady⟩
  omega

/-- `uvmdealloc` leaves the pages of the smaller size. -/
theorem uvmdealloc_holds (oldsz newsz : Nat) (filled : table.Filled (pages oldsz))
    (low : oldsz < 2 ^ 63) (small : newsz < 2 ^ 63) (bounded : pages oldsz ≤ memoryPages) :
    (custody strict).Holds (table.holding + spare) (table.uvmdealloc oldsz newsz)
      fun answer kept => kept = answer.2.holding + spare ∧ answer.1 = min oldsz newsz ∧
        answer.2.Filled (pages (min oldsz newsz)) := by
  have old := pages_eq low
  have new := pages_eq small
  have oldup : pgroundup oldsz = (oldsz + 4095) / 4096 * 4096 := pgroundup_eq low
  have newup : pgroundup newsz = pages newsz * pgsize := by
    rw [pgroundup_eq small, new, pgsize_eq]
  unfold uvmdealloc
  split
  · next less =>
     refine .pure ⟨rfl, (min_eq_left less).symm, ?_⟩
     rwa [min_eq_left less]
  · next more =>
     have least : min oldsz newsz = newsz := min_eq_right (by omega)
     rw [least]
     have sizes : pgsize = 4096 := pgsize_eq
     split
     · next shrinks =>
        rw [newup] at shrinks ⊢
        have positive : 0 < oldsz - pages newsz * pgsize := by
          rw [oldup] at shrinks
          rw [sizes] at shrinks ⊢
          omega
        have last : pages oldsz =
            (pages newsz * pgsize + (oldsz - pages newsz * pgsize) + 4095) / 4096 := by
          rw [old, Nat.add_sub_cancel' (by omega)]
        refine (uvmunmap_free_holds positive filled last bounded (by omega)).bind
          fun after kept met => ?_
        obtain ⟨rfl, _, shrunk⟩ := met
        exact .pure ⟨rfl, rfl, shrunk⟩
     · next same =>
        refine .pure ⟨rfl, rfl, filled.congr fun k => ?_⟩
        rw [oldup, newup, sizes] at same
        have equal : pages newsz = pages oldsz := by omega
        rw [equal]

/-! ## Growing -/

variable {run : Run}

theorem recordPage_holds {second : Nat} :
    (custody strict).Holds (table.holding + spare) (table.recordPage run n second page)
      fun answer kept => kept = answer.2.holding + spare ∧ Steady table answer.2 := by
  unfold recordPage
  split
  · exact .pure ⟨rfl, .refl table⟩
  · refine l0PtesAdd_holds.bind fun after kept met => ?_
    obtain ⟨rfl, steady⟩ := met
    have next : (custody strict).Holds (after.holding + spare)
        (if n = second then after.l0PtesAdd else pure after)
        fun last kept => kept = last.holding + spare ∧ Steady after last := by
      split
      · exact l0PtesAdd_holds
      · exact .pure ⟨rfl, .refl after⟩
    refine next.bind fun last kept met => ?_
    obtain ⟨rfl, further⟩ := met
    exact .pure ⟨rfl, steady.trans further⟩

theorem recordLast_holds : (custody strict).Holds (table.holding + spare) (table.recordLast run)
      fun after kept => kept = after.holding + spare ∧ Steady table after := by
  unfold recordLast
  split
  · exact l0PtesAdd_holds
  · exact .pure ⟨rfl, .refl table⟩

/-- A page that has been allocated is mapped, or the table has only grown. -/
theorem mappages_fresh_holds {perm : Nat} (filled : table.Filled n) (low : n < trapframePage)
    (read : perm &&& pteR ≠ 0) :
    (custody strict).Holds (.page page ::ₘ (table.holding + spare)) (table.mappages self n page perm)
      fun answer kept =>
        (answer.1 = 0 ∧ kept = answer.2.holding + spare ∧ answer.2.Filled (n + 1)) ∨
          (answer.1 = -1 ∧ kept = .page page ::ₘ (answer.2.holding + spare) ∧
            answer.2.Filled n) := by
  rw [← add_cons]
  refine mappages_holds.mono fun answer kept met => ?_
  obtain ⟨walked, steady, rfl, ⟨res, absent, reached, mapped⟩ | ⟨res, same⟩⟩ := met
  · refine .inl ⟨res, ?_, ?_⟩
    · rw [mapped, holding_withLeaf low, add_cons, cons_add]
    · rw [mapped]
      refine ((filled.steady steady).withLeaf absent reached read fun above => ?_).congr
        fun k => ?_
      · omega
      · omega
  · refine .inr ⟨res, ?_, ?_⟩
    · rw [same, add_cons]
    · rw [same]
      exact filled.steady steady

/-- The leaves of a table are those of an address space of a size. -/
structure Fits (table : Table) (sz : Nat) : Prop where
  filled : table.Filled (pages sz)
  low : sz ≤ memoryPages * pgsize

variable {sz : Nat}

theorem Fits.small (fits : table.Fits sz) : sz ≤ 134217728 := fits.low

theorem Fits.pages_le (fits : table.Fits sz) : pages sz ≤ memoryPages := by
  have small := fits.small
  rw [pages_eq (by omega), memoryPages_eq]
  omega

theorem pages_mul (few : n ≤ memoryPages) : pages (n * pgsize) = n := by
  rw [memoryPages_eq] at few
  rw [pgsize_eq, Nat.mul_comm, pages_eq (by omega)]
  omega

theorem uvmallocErr_holds {base : Nat} (filled : table.Filled n) (more : base ≤ n)
    (few : n ≤ memoryPages) :
    (custody strict).Holds (table.holding + spare) (table.uvmallocErr (base * pgsize) n)
      fun answer kept => kept = answer.2.holding + spare ∧ answer.1 = none ∧
        answer.2.Filled base := by
  have sizes : pgsize = 4096 := pgsize_eq
  have most : memoryPages = 32768 := memoryPages_eq
  have here : pages (n * pgsize) = n := pages_mul few
  have low (k : Nat) (le : k ≤ memoryPages) : k * pgsize < 2 ^ 63 := by
    rw [sizes, Nat.mul_comm]
    omega
  have least : min (n * pgsize) (base * pgsize) = base * pgsize :=
    min_eq_right (Nat.mul_le_mul_right _ more)
  have whole : table.Filled (pages (n * pgsize)) := by rwa [here]
  have bounded : pages (n * pgsize) ≤ memoryPages := by rwa [here]
  refine (uvmdealloc_holds (n * pgsize) (base * pgsize) whole (low n few)
    (low base (more.trans few)) bounded).bind fun answer kept met => ?_
  obtain ⟨_, shrunk⟩ := answer
  obtain ⟨rfl, _, left⟩ := met
  rw [least, pages_mul (more.trans few)] at left
  exact .pure ⟨rfl, rfl, left⟩

/-- The loop of `uvmalloc` maps all pages, or takes back those it has mapped. -/
theorem uvmallocLoop_holds {base : Nat} (filled : table.Filled n) (more : base ≤ n)
    (few : n ≤ memoryPages) : (custody strict).Holds (table.holding + spare)
      (uvmallocLoop self (base * pgsize) count n run table)
      fun answer kept => kept = answer.2.holding + spare ∧
        ((answer.1 = none ∧ answer.2.Filled base) ∨
          (answer.1.isSome = true ∧ answer.2.Filled (n + count) ∧ n + count ≤ memoryPages)) := by
  induction count generalizing n run table with
  | zero => exact .pure ⟨rfl, .inr ⟨rfl, filled, few⟩⟩
  | succ count ih =>
    have top : trapframePage = 67108862 := trapframePage_eq
    have most : memoryPages = 32768 := memoryPages_eq
    have gaveUp {shrunk : Table} (left : shrunk.Filled n) :
        (custody strict).Holds (shrunk.holding + spare) (shrunk.uvmallocErr (base * pgsize) n)
          fun answer kept => kept = answer.2.holding + spare ∧
            ((answer.1 = none ∧ answer.2.Filled base) ∨ (answer.1.isSome = true ∧
              answer.2.Filled (n + (count + 1)) ∧ n + (count + 1) ≤ memoryPages)) :=
      (uvmallocErr_holds left more few).mono fun _ _ met => ⟨met.1, .inl met.2⟩
    refine kalloc_holds.bind fun found kept met => ?_
    subst met
    cases found with
    | none =>
      dsimp only
      rw [Option.toList_none, items_nil, zero_add]
      exact gaveUp filled
    | some mem =>
      dsimp only
      rw [Option.toList_some, items_cons, items_nil, cons_add, zero_add]
      refine (mappages_fresh_holds filled (by omega) (by decide)).bind
        fun answer kept met => ?_
      obtain ⟨res, mapped⟩ := answer
      obtain ⟨rfl, rfl, grown⟩ | ⟨rfl, rfl, same⟩ := met
      · refine recordPage_holds.bind fun answer kept met => ?_
        obtain ⟨next, recorded⟩ := answer
        obtain ⟨rfl, steady⟩ := met
        refine Contract.Holds.of_valid fun single => ?_
        have further := grown.steady steady
        have bound := Filled.bounded further (by omega) single
        refine (ih further (by omega) bound).mono fun answer kept met => ?_
        have sum : n + 1 + count = n + (count + 1) := by omega
        rwa [sum] at met
      · refine (kfree_holds mem).bind fun _ kept met => ?_
        subst met
        exact gaveUp same

/-- `uvmalloc`: the new size, or 0 with the pages of the old one. -/
theorem uvmalloc_holds {oldsz newsz : Nat} (fits : table.Fits oldsz) :
    (custody strict).Holds (table.holding + spare) (table.uvmalloc self oldsz newsz)
      fun answer kept => kept = answer.2.holding + spare ∧
        (answer.1 = 0 → answer.2.Fits oldsz) ∧ (answer.1 ≠ 0 → answer.2.Fits answer.1) := by
  have small := fits.small
  have old : pages oldsz = (oldsz + 4095) / 4096 := pages_eq (by omega)
  unfold uvmalloc
  split
  · exact .pure ⟨rfl, fun _ => fits, fun _ => fits⟩
  · next less =>
     have start : pgroundup oldsz = pages oldsz * pgsize := by
       rw [pgroundup_eq (by omega), old, pgsize_eq]
     dsimp only
     rw [start, Nat.mul_div_cancel _ (by decide)]
     refine (uvmallocLoop_holds fits.filled le_rfl fits.pages_le).bind fun answer kept met => ?_
     obtain ⟨run, grown⟩ := answer
     obtain ⟨rfl, ⟨rfl, back⟩ | ⟨done, filled, few⟩⟩ := met
     · exact .pure ⟨rfl, fun _ => ⟨back, fits.low⟩, fun never => absurd rfl never⟩
     · cases run with
       | none => cases done
       | some run =>
         refine recordLast_holds.bind fun last kept met => ?_
         obtain ⟨rfl, steady⟩ := met
         have sizes : pgsize = 4096 := pgsize_eq
         have most : memoryPages = 32768 := memoryPages_eq
         rw [sizes, most] at few
         have low : newsz ≤ 134217728 := by omega
         have number : pages oldsz + (newsz - pages oldsz * pgsize + (pgsize - 1)) / pgsize =
             pages newsz := by
           have new : pages newsz = (newsz + 4095) / 4096 := pages_eq (by omega)
           rw [new, sizes]
           omega
         have reached : last.Fits newsz := ⟨number ▸ filled.steady steady, low⟩
         refine .pure ⟨rfl, fun nothing => ?_, fun _ => reached⟩
         obtain rfl : newsz = 0 := nothing
         obtain rfl : oldsz = 0 := by omega
         exact reached

/-! ## Copying -/

/-- `uvmcopy` gives up only with pages to take back. -/
theorem uvmcopyErr_holds (filled : table.Filled n) (few : n ≤ memoryPages) :
    (custody strict).Holds (table.holding + spare) (table.uvmcopyErr n)
      fun answer kept => kept = answer.2.holding + spare ∧ answer.1 = none ∧
        answer.2.Filled 0 := by
  have sizes : pgsize = 4096 := pgsize_eq
  have most : memoryPages = 32768 := memoryPages_eq
  rcases Nat.eq_zero_or_pos n with rfl | positive
  · have absent : table.leaf 0 = none := by
      have empty := (filled.user 0 (by decide)).not.mpr (Nat.lt_irrefl 0)
      simpa using empty
    have start : pgrounddown 0 / pgsize = 0 := by decide
    have fails : (custody strict).Holds (table.holding + spare)
        (unmapPages true (World.pageSteps 0 (0 * pgsize)) 0 table) fun _ _ => False :=
      unmapPages_fault _ absent
    have stops : (custody strict).Holds (table.holding + spare)
        (table.uvmunmap 0 (0 * pgsize) true) fun _ _ => False := by
      unfold uvmunmap
      rw [start]
      exact fails.bind fun _ _ never => never.elim
    exact stops.bind fun _ _ never => never.elim
  · have last : n = (0 * pgsize + n * pgsize + 4095) / 4096 := by
      rw [sizes]
      omega
    have some : 0 < n * pgsize := Nat.mul_pos positive (by decide)
    have unmaps : (custody strict).Holds (table.holding + spare)
        (table.uvmunmap (0 * pgsize) (n * pgsize) true)
        fun after kept => kept = after.holding + spare ∧ after.root = table.root ∧
          after.Filled 0 :=
      uvmunmap_free_holds some filled last few (Nat.zero_le n)
    rw [Nat.zero_mul] at unmaps
    refine unmaps.bind fun after kept met => ?_
    obtain ⟨rfl, _, left⟩ := met
    exact .pure ⟨rfl, rfl, left⟩

/-- The loop of `uvmcopy` maps all pages, or takes back those it has mapped. -/
theorem uvmcopyLoop_holds {old : Table} (spans : old.Spans S)
    (filled : table.Filled n) (few : n ≤ memoryPages) :
    (custody strict).Holds (table.holding + spare) (uvmcopyLoop self old count n run table)
      fun answer kept => kept = answer.2.holding + spare ∧ ((answer.1 = none ∧ answer.2.Filled 0) ∨
          (answer.1.isSome = true ∧ answer.2.Filled (n + count))) := by
  induction count generalizing n run table with
  | zero => exact .pure ⟨rfl, .inr ⟨rfl, filled⟩⟩
  | succ count ih =>
    have top : trapframePage = 67108862 := trapframePage_eq
    have most : memoryPages = 32768 := memoryPages_eq
    have gaveUp {shrunk : Table} (left : shrunk.Filled n) :
        (custody strict).Holds (shrunk.holding + spare) (shrunk.uvmcopyErr n)
          fun answer kept => kept = answer.2.holding + spare ∧
            ((answer.1 = none ∧ answer.2.Filled 0) ∨
              (answer.1.isSome = true ∧ answer.2.Filled (n + (count + 1)))) :=
      (uvmcopyErr_holds left few).mono fun _ _ met => ⟨met.1, .inl met.2⟩
    unfold uvmcopyLoop
    split
    · exact .fault
    split
    · exact .fault
    cases found : old.leaf n with
    | none => exact .fault
    | some pte =>
      refine kalloc_holds.bind fun found kept met => ?_
      subst met
      cases found with
      | none =>
        dsimp only
        rw [Option.toList_none, items_nil, zero_add]
        exact gaveUp filled
      | some mem =>
        dsimp only
        rw [Option.toList_some, items_cons, items_nil, cons_add, zero_add]
        refine (mappages_fresh_holds filled (by omega) (spans.readable n pte found)).bind
          fun answer kept met => ?_
        obtain ⟨res, mapped⟩ := answer
        obtain ⟨rfl, rfl, grown⟩ | ⟨rfl, rfl, same⟩ := met
        · refine recordPage_holds.bind fun answer kept met => ?_
          obtain ⟨next, recorded⟩ := answer
          obtain ⟨rfl, steady⟩ := met
          refine Contract.Holds.of_valid fun single => ?_
          have further := grown.steady steady
          have bound := Filled.bounded further (by omega) single
          refine (ih further bound).mono fun answer kept met => ?_
          have sum : n + 1 + count = n + (count + 1) := by omega
          rwa [sum] at met
        · refine (kfree_holds mem).bind fun _ kept met => ?_
          subst met
          exact gaveUp same

theorem uvmcopy_holds {old : Table} (spans : old.Spans S) (filled : table.Filled 0)
    (low : sz ≤ memoryPages * pgsize) :
    (custody strict).Holds (table.holding + spare) (table.uvmcopy self old sz)
      fun answer kept => kept = answer.2.holding + spare ∧
        ((answer.1 = -1 ∧ answer.2.Filled 0) ∨ (answer.1 = 0 ∧ answer.2.Fits sz)) := by
  refine (uvmcopyLoop_holds spans filled (Nat.zero_le _)).bind fun answer kept met => ?_
  obtain ⟨run, copied⟩ := answer
  obtain ⟨rfl, ⟨rfl, left⟩ | ⟨done, grown⟩⟩ := met
  · exact .pure ⟨rfl, .inl ⟨rfl, left⟩⟩
  · cases run with
    | none => cases done
    | some run =>
      refine recordLast_holds.bind fun last kept met => ?_
      obtain ⟨rfl, steady⟩ := met
      have number : 0 + (sz + (pgsize - 1)) / pgsize = pages sz := by
        have small : sz ≤ 134217728 := low
        rw [Nat.zero_add, pages_eq (by omega), pgsize_eq]
      exact .pure ⟨rfl, .inr ⟨rfl, number ▸ grown.steady steady, low⟩⟩

/-! ## The guard page -/

theorem clearUser_page (k : Nat) (pte : Pte) : (clearUser n k pte).page = pte.page := by
  unfold clearUser
  split <;> rfl

theorem clearUser_readable {k : Nat} (read : pte.perm &&& pteR ≠ 0) :
    (clearUser n k pte).perm &&& pteR ≠ 0 := by
  unfold clearUser
  split
  · have kept : (2 ^ 64 - 1 - pteU) &&& pteR = pteR := by decide
    show pte.perm &&& (2 ^ 64 - 1 - pteU) &&& pteR ≠ 0
    rwa [Nat.and_assoc, kept]
  · exact read

theorem clearUser_perm {k : Nat} (kernel : pte.perm &&& pteU = 0) :
    (clearUser n k pte).perm &&& pteU = 0 := by
  unfold clearUser
  split
  · have apart : (2 ^ 64 - 1 - pteU) &&& pteU = 0 := by decide
    show pte.perm &&& (2 ^ 64 - 1 - pteU) &&& pteU = 0
    rw [Nat.and_assoc, apart, Nat.and_zero]
  · exact kernel

/-- `uvmclear` takes a page from the user, which stays mapped. -/
theorem uvmclear_holds (fits : table.Fits sz) :
    (custody strict).Holds (table.holding + spare) (table.uvmclear n)
      fun after kept => kept = after.holding + spare ∧ after.Fits sz := by
  unfold uvmclear
  split
  · exact .fault
  split
  · exact .fault
  · let cleared : Table :=
      { table with leaves := mapValues (clearUser n) table.leaves }
    have leaf (k : Nat) : cleared.leaf k = (table.leaf k).map (clearUser n k) :=
      AssocList.find_mapValues (clearUser n)
    have pages : cleared.userPages = table.userPages := by
      rw [userPages, AssocList.only_mapValues, mapValues, List.map_map, userPages]
      exact List.map_congr_left fun entry _ => clearUser_page entry.1 entry.2
    have same : cleared.holding = table.holding := by
      rw [holding, pages]
      rfl
    have filled : cleared.Filled (Ev6.AddressSpace.pages sz) := by
      refine ⟨?_, fun k user => ?_, fun k there => ?_, fun k pte found => ?_,
        fun k pte kernel found => ?_⟩
      · rw [AssocList.keys_mapValues]
        exact fits.filled.once
      · rw [leaf, Option.isSome_map]
        exact fits.filled.user k user
      · rw [leaf, Option.isSome_map] at there
        exact fits.filled.reached k there
      · rw [leaf] at found
        obtain ⟨old, there, rfl⟩ := Option.map_eq_some_iff.mp found
        exact clearUser_readable (fits.filled.readable k old there)
      · rw [leaf] at found
        obtain ⟨old, there, rfl⟩ := Option.map_eq_some_iff.mp found
        exact clearUser_perm (fits.filled.kernel k old kernel there)
    show (custody strict).Holds _ cleared.l0PtesDelete _
    rw [← same]
    refine l0PtesDelete_holds.mono fun after kept met => ?_
    exact ⟨met.1, filled.steady met.2, fits.low⟩

end Table

end Ev6.AddressSpace
