import Ev6.AddressSpace.Lifecycle

/-!
# What growing and shrinking change

How `growproc` ends, whatever the other threads do and whatever memory is left: with the
size that was asked for and exactly its pages, with everything as before, or in one of the
panics of `ptdup.c`.
-/

namespace Ev6.AddressSpace

open Support PageTable
open AssocList (find find_cons)

variable {strict : Prop}

/-- The panics of `ptdup.c` without memory for the copy of an L1 table or for a record, and
without the copy of an L1 table. -/
def Panic.OfDuplicate : Panic → Prop
  | .ptdupCreateL1Kalloc | .ptdsPtedAddKalloc | .ptdupUpdateNoPagetable => True
  | _ => False

/-- A program ends in a result that meets a condition, or in a panic of `ptdup.c`. -/
abbrev Safe (strict : Prop) {α : Type} (program : Prog α) (post : α → Prop) : Prop :=
  program.Yields (learns strict) Panic.OfDuplicate post

/-! ## Single operations -/

theorem call_safe (op : Op) : Safe strict (call op) (learns strict op) :=
  Program.Yields.perform fun _ told => told

theorem kallocOr_safe {panic : Panic} (fine : panic.OfDuplicate) :
    Safe strict (kallocOr panic) fun _ => True := by
  refine (call_safe .kalloc).bind fun found _ => ?_
  cases found with
  | none => exact .fault fine
  | some page => exact .pure trivial

theorem kfree_safe (page : Page) : Safe strict (kfree page) fun _ => True := by
  refine (call_safe (.kfree page)).bind fun fine told => ?_
  obtain rfl : fine = true := told
  exact .pure trivial

theorem findPtdupOr_safe (root : Page) (panic : Panic) :
    Safe strict (findPtdupOr root panic) fun _ => True := by
  refine (call_safe (.findPtdup root)).bind fun found told => ?_
  obtain rfl : found = true := told
  exact .pure trivial

theorem takePages_safe (count : Nat) : Safe strict (takePages count) fun _ => True := by
  induction count with
  | zero => exact .pure trivial
  | succ count ih =>
    have fine : Panic.OfDuplicate .ptdsPtedAddKalloc := trivial
    refine (kallocOr_safe fine).bind fun page _ => ?_
    refine ih.bind fun pages _ => ?_
    exact .pure trivial

theorem recordPages_safe : Safe strict recordPages fun _ => True :=
  (call_safe .recordPages).bind fun count _ => takePages_safe count

namespace Table

variable {table after : Table} {self i j n count : Nat} {page : Page} {S : Nat → Prop}

/-! ## Records and walking -/

theorem l0PtesDelete_safe : Safe strict table.l0PtesDelete (Steady table) :=
  recordPages_safe.bind fun pages _ => .pure (withRecords_steady pages)

theorem l0PtesAdd_safe : Safe strict table.l0PtesAdd (Steady table) :=
  (findPtdupOr_safe _ _).bind fun _ _ => l0PtesDelete_safe

theorem registerAdded_safe (self : Nat) (page : Page) (level : Level) :
    Safe strict (registerAdded self page level) fun _ => True := by
  refine (call_safe .nextpid).bind fun nextpid _ => ?_
  split
  · exact (call_safe _).mono fun _ _ => trivial
  · exact .pure trivial

theorem ptdupCreateL1_safe : Safe strict (table.ptdupCreateL1 i) fun after =>
    ∃ copy, after = table.withCopy i copy := by
  refine (findPtdupOr_safe _ _).bind fun _ _ => ?_
  have fine : Panic.OfDuplicate .ptdupCreateL1Kalloc := trivial
  refine (kallocOr_safe fine).bind fun copy _ => ?_
  exact .pure ⟨copy, rfl⟩

theorem ptdupUpdate_safe : Safe strict (table.ptdupUpdate i) fun after => after = table := by
  refine (findPtdupOr_safe _ _).bind fun _ _ => ?_
  cases find table.duplicate.copies i with
  | none => exact .fault trivial
  | some copy => exact .pure rfl

theorem enterL1_safe : Safe strict (table.enterL1 self i) fun answer =>
    Steady table answer.2 ∧ (answer.1 = true → (find answer.2.l1 i).isSome = true) := by
  unfold enterL1
  cases found : find table.l1 i with
  | some old => exact .pure ⟨.refl table, fun _ => by rw [found]; rfl⟩
  | none =>
    refine (call_safe .kalloc).bind fun answer _ => ?_
    cases answer with
    | none => exact .pure ⟨.refl table, fun never => by cases never⟩
    | some page =>
      have here : (find (table.withL1 i page).l1 i).isSome = true := by
        simp [withL1, find_cons]
      refine (registerAdded_safe _ _ _).bind fun _ _ => ?_
      refine (call_safe .nextpid).bind fun nextpid _ => ?_
      split
      · refine ptdupCreateL1_safe.bind fun copied met => ?_
        obtain ⟨copy, rfl⟩ := met
        have steady : Steady (table.withL1 i page) ((table.withL1 i page).withCopy i copy) :=
          ⟨rfl, rfl, fun _ there => there⟩
        exact .pure ⟨withL1_steady.trans steady, fun _ => here⟩
      · exact .pure ⟨withL1_steady, fun _ => here⟩

theorem enterL0_safe : Safe strict (table.enterL0 self i j) fun answer =>
    Steady table answer.2 ∧ answer.2.l1 = table.l1 ∧
      (answer.1 = true → (find answer.2.l0 (i, j)).isSome = true) := by
  unfold enterL0
  cases found : find table.l0 (i, j) with
  | some old => exact .pure ⟨.refl table, rfl, fun _ => by rw [found]; rfl⟩
  | none =>
    refine (call_safe .kalloc).bind fun answer _ => ?_
    cases answer with
    | none => exact .pure ⟨.refl table, rfl, fun never => by cases never⟩
    | some page =>
      have here : (find (table.withL0 i j page).l0 (i, j)).isSome = true := by
        simp [withL0, find_cons]
      refine (registerAdded_safe _ _ _).bind fun _ _ => ?_
      refine (call_safe .nextpid).bind fun nextpid _ => ?_
      split
      · refine ptdupUpdate_safe.bind fun updated met => ?_
        subst met
        exact .pure ⟨withL0_steady, rfl, fun _ => here⟩
      · exact .pure ⟨withL0_steady, rfl, fun _ => here⟩

theorem walk_safe (low : n < maxPage) : Safe strict (table.walk self n) fun answer =>
    Steady table answer.2 ∧ (answer.1 = true → answer.2.reaches n = true) := by
  unfold walk
  rw [if_neg (Nat.not_le.mpr low)]
  refine enterL1_safe.bind fun answer met => ?_
  obtain ⟨there, entered⟩ := answer
  obtain ⟨steady, first⟩ := met
  cases there with
  | false => exact .pure ⟨steady, fun never => by cases never⟩
  | true =>
    refine enterL0_safe.mono fun answer met => ?_
    obtain ⟨further, same, second⟩ := met
    refine ⟨steady.trans further, fun there => ?_⟩
    rw [reaches_iff, same]
    exact ⟨first rfl, second there⟩

/-! ## Unmapping -/

/-- The leaves of a range of pages are removed, and no others. -/
def Unmaps (before after : Table) (first stop : Nat) : Prop :=
  ∀ k, after.leaf k = if first ≤ k ∧ k < stop then none else before.leaf k

theorem Unmaps.steady {last : Table} {first stop : Nat} (unmaps : Unmaps table after first stop)
    (steady : Steady after last) : Unmaps table last first stop := by
  intro k
  rw [steady.leaf]
  exact unmaps k

/-- One round of the loop of `uvmunmap`, for a page that is mapped. -/
theorem unmapPage_safe (spans : table.Spans S) (here : S n) (low : n < trapframePage) :
    Safe strict (table.unmapPage n true) fun after => after = table.withoutLeaf n := by
  have top : trapframePage = 67108862 := trapframePage_eq
  have most : maxPage = 67108864 := maxPage_eq
  have mapped := (spans.user n low).mpr here
  have reached := spans.reached n mapped
  obtain ⟨pte, found⟩ := Option.isSome_iff_exists.mp mapped
  have live : pte.perm ≠ 0 := by
    intro zero
    have read := spans.readable n pte found
    rw [zero, Nat.zero_and] at read
    exact read rfl
  unfold unmapPage
  rw [if_neg (by omega), if_neg (by simp [reached]), found]
  dsimp only
  rw [if_neg live]
  refine (kfree_safe pte.page).bind fun _ _ => ?_
  exact .pure rfl

/-- The loop of `uvmunmap`, by induction on the pages that are left. -/
theorem unmapPages_safe (steps : Nat) (spans : table.Spans S)
    (there : ∀ k, n ≤ k → k ≤ n + steps → S k) (low : n + steps < trapframePage) :
    Safe strict (unmapPages true steps n table) fun after =>
      Unmaps table after n (n + steps + 1) := by
  induction steps generalizing table n S with
  | zero =>
    refine (unmapPage_safe spans (there n le_rfl le_rfl) low).mono fun after met => ?_
    subst met
    intro k
    rw [leaf_withoutLeaf spans.once]
    refine if_congr ?_ rfl rfl
    omega
  | succ steps ih =>
    refine (unmapPage_safe spans (there n le_rfl (by omega)) (by omega)).bind
      fun after met => ?_
    subst met
    have rest : ∀ k, n + 1 ≤ k → k ≤ n + 1 + steps → S k ∧ k ≠ n := fun k front back =>
      ⟨there k (by omega) (by omega), by omega⟩
    refine (ih (spans.withoutLeaf n) rest (by omega)).mono fun after unmaps => ?_
    intro k
    rw [unmaps k, leaf_withoutLeaf spans.once]
    by_cases same : k = n
    · rw [if_pos same, ite_self, if_pos (by omega)]
    · rw [if_neg same]
      refine if_congr ?_ rfl rfl
      omega

/-- `uvmunmap` of the pages from one on, up to the last. -/
theorem uvmunmap_safe {first size : Nat} (positive : 0 < size) (filled : table.Filled count)
    (last : count = (first * pgsize + size + 4095) / 4096) (bounded : count ≤ trapframePage)
    (inside : first < count) :
    Safe strict (table.uvmunmap (first * pgsize) size true) fun after =>
      Unmaps table after first count := by
  have sizes : pgsize = 4096 := pgsize_eq
  have top : trapframePage = 67108862 := trapframePage_eq
  have small : first * pgsize + size < 2 ^ 63 := by
    rw [sizes] at last ⊢
    omega
  obtain ⟨start, steps⟩ := unmap_range positive small
  have count_eq : first + World.pageSteps (first * pgsize) size + 1 = count := by
    rw [steps, last, sizes]
    omega
  unfold uvmunmap
  rw [start]
  refine (unmapPages_safe _ filled (fun k _ back => by omega) (by omega)).bind
    fun after unmaps => ?_
  rw [count_eq] at unmaps
  exact l0PtesDelete_safe.mono fun final steady => unmaps.steady steady

/-- `uvmdealloc` unmaps the pages behind the smaller size. -/
theorem uvmdealloc_safe {oldsz newsz : Nat} (filled : table.Filled (pages oldsz))
    (low : oldsz < 2 ^ 63) (bounded : pages oldsz ≤ trapframePage) (less : newsz ≤ oldsz) :
    Safe strict (table.uvmdealloc oldsz newsz) fun answer =>
      answer.1 = newsz ∧ Unmaps table answer.2 (pages newsz) (pages oldsz) := by
  have small : newsz < 2 ^ 63 := by omega
  have old := pages_eq low
  have new := pages_eq small
  have oldup : pgroundup oldsz = (oldsz + 4095) / 4096 * 4096 := pgroundup_eq low
  have newup : pgroundup newsz = pages newsz * pgsize := by
    rw [pgroundup_eq small, new, pgsize_eq]
  have sizes : pgsize = 4096 := pgsize_eq
  have stays (same : pages oldsz ≤ pages newsz) :
      Unmaps table table (pages newsz) (pages oldsz) := by
    intro k
    rw [if_neg (by omega)]
  unfold uvmdealloc
  split
  · next more =>
     obtain rfl : newsz = oldsz := Nat.le_antisymm less more
     exact .pure ⟨rfl, stays le_rfl⟩
  · split
    · next shrinks =>
       rw [newup] at shrinks ⊢
       rw [oldup] at shrinks
       have positive : 0 < oldsz - pages newsz * pgsize := by
         rw [sizes] at shrinks ⊢
         omega
       have last : pages oldsz =
           (pages newsz * pgsize + (oldsz - pages newsz * pgsize) + 4095) / 4096 := by
         rw [old, Nat.add_sub_cancel' (by omega)]
       have inside : pages newsz < pages oldsz := by
         rw [sizes] at shrinks
         omega
       refine (uvmunmap_safe positive filled last bounded inside).bind fun after unmaps => ?_
       exact .pure ⟨rfl, unmaps⟩
    · next same =>
       refine .pure ⟨rfl, stays ?_⟩
       rw [oldup, newup, sizes] at same
       omega

/-! ## Mapping -/

/-- The pages of a range are mapped for the user, and no other leaf changes. -/
def Maps (before after : Table) (first stop : Nat) : Prop :=
  ∀ k, if first ≤ k ∧ k < stop then ∃ page, after.leaf k = some ⟨page, userPerm⟩
    else after.leaf k = before.leaf k

theorem Maps.refl (table : Table) (first : Nat) : Maps table table first first := by
  intro k
  rw [if_neg (by omega)]

/-- A page is mapped, or the table has only grown below its leaves. -/
theorem mappages_safe {perm : Nat} (low : n < maxPage) (absent : table.leaf n = none) :
    Safe strict (table.mappages self n page perm) fun answer => ∃ walked, Steady table walked ∧
      ((answer.1 = 0 ∧ walked.reaches n = true ∧ answer.2 = walked.withLeaf n ⟨page, perm⟩) ∨
        answer.1 = -1 ∧ answer.2 = walked) := by
  refine (walk_safe low).bind fun answer met => ?_
  obtain ⟨there, walked⟩ := answer
  obtain ⟨steady, reached⟩ := met
  cases there with
  | false => exact .pure ⟨walked, steady, .inr ⟨rfl, rfl⟩⟩
  | true =>
    dsimp only at steady reached ⊢
    rw [if_pos rfl, steady.leaf, absent]
    exact .pure ⟨walked, steady, .inl ⟨rfl, reached rfl, rfl⟩⟩

theorem recordPage_safe {run : Run} {second : Nat} :
    Safe strict (table.recordPage run n second page) fun answer => Steady table answer.2 := by
  unfold recordPage
  split
  · exact .pure (.refl table)
  · refine l0PtesAdd_safe.bind fun after steady => ?_
    have next : Safe strict (if n = second then after.l0PtesAdd else pure after)
        (Steady after) := by
      split
      · exact l0PtesAdd_safe
      · exact .pure (.refl after)
    refine next.bind fun last further => ?_
    exact .pure (steady.trans further)

theorem recordLast_safe {run : Run} : Safe strict (table.recordLast run) (Steady table) := by
  unfold recordLast
  split
  · exact l0PtesAdd_safe
  · exact .pure (.refl table)

/-- The pages that `uvmalloc` has mapped are taken back. -/
theorem uvmallocErr_safe {base : Nat} (filled : table.Filled n) (more : base ≤ n)
    (few : n ≤ trapframePage) :
    Safe strict (table.uvmallocErr (base * pgsize) n) fun answer =>
      answer.1 = none ∧ Unmaps table answer.2 base n := by
  have sizes : pgsize = 4096 := pgsize_eq
  have top : trapframePage = 67108862 := trapframePage_eq
  have here (k : Nat) (le : k ≤ n) : k * pgsize < 2 ^ 63 ∧ pages (k * pgsize) = k := by
    have small : k * pgsize < 2 ^ 63 := by
      rw [sizes]
      omega
    refine ⟨small, ?_⟩
    rw [pages_eq small, sizes]
    omega
  have whole : table.Filled (pages (n * pgsize)) := by rwa [(here n le_rfl).2]
  refine (uvmdealloc_safe whole (here n le_rfl).1 (by rwa [(here n le_rfl).2])
    (Nat.mul_le_mul_right _ more)).bind fun answer met => ?_
  have unmaps := met.2
  rw [(here n le_rfl).2, (here base more).2] at unmaps
  exact .pure ⟨rfl, unmaps⟩

/-- The loop of `uvmalloc` maps all pages, or leaves what there was before. -/
theorem uvmallocLoop_safe {base : Nat} {run : Run} (filled : table.Filled n) (more : base ≤ n)
    (few : n + count ≤ trapframePage) :
    Safe strict (uvmallocLoop self (base * pgsize) count n run table) fun answer =>
      (answer.1 = none ∧ Unmaps table answer.2 base n) ∨
        (answer.1.isSome = true ∧ Maps table answer.2 n (n + count)) := by
  induction count generalizing n run table with
  | zero => exact .pure (.inr ⟨rfl, .refl table n⟩)
  | succ count ih =>
    have top : trapframePage = 67108862 := trapframePage_eq
    have most : maxPage = 67108864 := maxPage_eq
    refine (call_safe .kalloc).bind fun found _ => ?_
    cases found with
    | none => exact (uvmallocErr_safe filled more (by omega)).mono fun _ met => .inl met
    | some mem =>
      have absent : table.leaf n = none := by
        have empty := (filled.user n (by omega)).not.mpr (Nat.lt_irrefl n)
        simpa using empty
      refine (mappages_safe (by omega) absent).bind fun answer met => ?_
      obtain ⟨res, mapped⟩ := answer
      obtain ⟨walked, steady, ⟨zero, reached, added⟩ | ⟨failed, same⟩⟩ := met
      · have zero : res = 0 := zero
        have added : mapped = walked.withLeaf n ⟨mem, userPerm⟩ := added
        subst zero added
        have here : walked.leaf n = none := (steady.leaf n).trans absent
        have read : userPerm &&& pteR ≠ 0 := by decide
        have spans : (walked.withLeaf n ⟨mem, userPerm⟩).Filled (n + 1) := by
          refine ((filled.steady steady).withLeaf here reached read
            fun above => ?_).congr fun k => ?_
          · omega
          · omega
        refine recordPage_safe.bind fun answer further => ?_
        obtain ⟨next, recorded⟩ := answer
        have leaves (k : Nat) : recorded.leaf k =
            if n = k then some ⟨mem, userPerm⟩ else table.leaf k := by
          rw [Steady.leaf further, leaf_withLeaf, steady.leaf]
        refine (ih (spans.steady further) (by omega) (by omega)).mono fun answer met => ?_
        obtain ⟨none, unmaps⟩ | ⟨done, maps⟩ := met
        · refine .inl ⟨none, fun k => ?_⟩
          rw [unmaps k, leaves]
          by_cases before : base ≤ k ∧ k < n
          · rw [if_pos (by omega), if_pos before]
          · rw [if_neg before]
            by_cases this : n = k
            · rw [if_pos (by omega), ← this, absent]
            · rw [if_neg (by omega), if_neg this]
        · refine .inr ⟨done, fun k => ?_⟩
          have known := maps k
          by_cases this : n = k
          · rw [if_neg (by omega), leaves, if_pos this] at known
            rw [if_pos (by omega)]
            exact ⟨mem, known⟩
          · rw [leaves, if_neg this] at known
            by_cases inside : n ≤ k ∧ k < n + (count + 1)
            · rw [if_pos (by omega)] at known
              rwa [if_pos inside]
            · rw [if_neg (by omega)] at known
              rwa [if_neg inside]
      · have failed : res = -1 := failed
        have same : mapped = walked := same
        subst failed same
        refine (kfree_safe mem).bind fun _ _ => ?_
        refine (uvmallocErr_safe (filled.steady steady) more (by omega)).mono
          fun answer met => .inl ⟨met.1, fun k => ?_⟩
        rw [met.2 k, steady.leaf]

/-- `uvmalloc` to a larger size: the new size with its pages, or 0 with the leaves as before. -/
theorem uvmalloc_safe {oldsz newsz : Nat} (fits : table.Fits oldsz) (less : oldsz ≤ newsz)
    (low : pages newsz ≤ trapframePage) (small : newsz < 2 ^ 63) :
    Safe strict (table.uvmalloc self oldsz newsz) fun answer =>
      (answer.1 = 0 ∧ ∀ k, answer.2.leaf k = table.leaf k) ∨
        (answer.1 = newsz ∧ Maps table answer.2 (pages oldsz) (pages newsz)) := by
  have bound := fits.small
  have old : pages oldsz = (oldsz + 4095) / 4096 := pages_eq (by omega)
  have new : pages newsz = (newsz + 4095) / 4096 := pages_eq small
  have sizes : pgsize = 4096 := pgsize_eq
  have start : pgroundup oldsz = pages oldsz * pgsize := by
    rw [pgroundup_eq (by omega), old, pgsize_eq]
  have number : pages oldsz + (newsz - pages oldsz * pgsize + (pgsize - 1)) / pgsize =
      pages newsz := by
    rw [new, sizes]
    omega
  unfold uvmalloc
  rw [if_neg (Nat.not_lt.mpr less)]
  dsimp only
  rw [start, Nat.mul_div_cancel _ (by decide)]
  refine (uvmallocLoop_safe fits.filled le_rfl (by omega)).bind fun answer met => ?_
  obtain ⟨run, grown⟩ := answer
  obtain ⟨failed, unmaps⟩ | ⟨done, maps⟩ := met
  · have failed : run = none := failed
    subst failed
    refine .pure (.inl ⟨rfl, fun k => ?_⟩)
    have known := unmaps k
    rwa [if_neg (by omega)] at known
  · cases run with
    | none => cases done
    | some run =>
      refine recordLast_safe.bind fun last steady => ?_
      rw [number] at maps
      refine .pure (.inr ⟨rfl, fun k => ?_⟩)
      rw [Steady.leaf steady]
      exact maps k

end Table

/-! ## `growproc` -/

/-- How the leaves change between two sizes in pages: those from the old size on are new, or
those from the new size on are gone, and the others stay. -/
structure Resized (before after : Table) (old new : Nat) : Prop where
  mapped : ∀ k, old ≤ k → k < new → before.leaf k = none ∧
    ∃ page, after.leaf k = some ⟨page, userPerm⟩
  unmapped : ∀ k, new ≤ k → k < old → (before.leaf k).isSome = true ∧ after.leaf k = none
  kept : ∀ k, k < min old new ∨ max old new ≤ k → after.leaf k = before.leaf k

/-- What `growproc` is to do with a process: it returns 0 with the size changed by `n` and
exactly the pages between the sizes, or -1 with everything as before. -/
def Grew (p : Proc) (n : Int) (answer : Int × Proc) : Prop :=
  (answer.1 = 0 ∧ (answer.2.sz : Int) = p.sz + n ∧ answer.2.sz < World.trapframeVa ∧
      Resized p.table answer.2.table (pages p.sz) (pages answer.2.sz)) ∨
    answer.1 = -1 ∧ answer.2.sz = p.sz ∧ ∀ k, answer.2.table.leaf k = p.table.leaf k

/-- What `growproc` does for every `n`: it leaves the pages at `TRAPFRAME` and `TRAMPOLINE` as
they are, and does what it is to do where the size would not be negative. -/
def Answers (p : Proc) (n : Int) (answer : Int × Proc) : Prop :=
  (∀ k, trapframePage ≤ k → answer.2.table.leaf k = p.table.leaf k) ∧
    (0 ≤ (p.sz : Int) + n → Grew p n answer)

/-- An `int`. -/
def IsInt (n : Int) : Prop := -2 ^ 31 ≤ n ∧ n < 2 ^ 31

instance (n : Int) : Decidable (IsInt n) := by
  unfold IsInt
  infer_instance

variable {p : Proc} {n : Int}

theorem resized_of_maps {before after : Table} {old new : Nat} (filled : before.Filled old)
    (maps : Table.Maps before after old new) (more : old ≤ new) (low : new ≤ trapframePage) :
    Resized before after old new := by
  refine ⟨fun k front back => ⟨?_, ?_⟩, fun k front back => ?_, fun k outside => ?_⟩
  · have empty := (filled.user k (by omega)).not.mpr (Nat.not_lt.mpr front)
    simpa using empty
  · have known := maps k
    rwa [if_pos ⟨front, back⟩] at known
  · omega
  · have known := maps k
    rwa [if_neg (by omega)] at known

theorem resized_of_unmaps {before after : Table} {old new : Nat} (filled : before.Filled old)
    (unmaps : Table.Unmaps before after new old) (less : new ≤ old) (low : old ≤ trapframePage) :
    Resized before after old new := by
  refine ⟨fun k front back => ?_, fun k front back => ⟨?_, ?_⟩, fun k outside => ?_⟩
  · omega
  · exact (filled.user k (by omega)).mpr back
  · rw [unmaps k, if_pos ⟨front, back⟩]
  · rw [unmaps k, if_neg (by omega)]

/-- A request that leaves a size of at least 0 is met or refused as a whole, or ends in a
panic of `ptdup.c`. -/
theorem growproc_grew (sized : p.Sized) (int : IsInt n) (positive : 0 ≤ (p.sz : Int) + n) :
    Safe strict (growproc p n) (Grew p n) := by
  have small : p.sz ≤ 134217728 := sized.small
  have same : uint p.sz = p.sz := uint_eq (by omega)
  obtain ⟨least, most⟩ := int
  have top : trapframePage = 67108862 := trapframePage_eq
  have memory : memoryPages = 32768 := memoryPages_eq
  have limit : World.trapframeVa = 274877898752 := by decide
  have few := sized.pages_le
  obtain ⟨size, sum⟩ : ∃ size : Nat, (p.sz : Int) + n = size := Int.eq_ofNat_of_zero_le positive
  have bound : size < 2 ^ 32 := by omega
  have target : uint (p.sz + n) = size := by
    rw [sum]
    exact uint_eq bound
  have number : pages size = (size + 4095) / 4096 := pages_eq (by omega)
  have old : pages p.sz = (p.sz + 4095) / 4096 := pages_eq (by omega)
  have inside : size < World.trapframeVa := by omega
  have lowOld : pages p.sz ≤ trapframePage := by omega
  have lowNew : pages size ≤ trapframePage := by omega
  unfold growproc
  rw [same]
  dsimp only
  rw [target]
  split
  · next grows =>
     have more : pages p.sz ≤ pages size := by omega
     refine (Table.uvmalloc_safe sized (by omega) (by omega) (by omega)).bind
       fun answer met => ?_
     obtain ⟨res, table⟩ := answer
     dsimp only at met ⊢
     obtain ⟨zero, leaves⟩ | ⟨grown, maps⟩ := met
     · rw [zero, if_pos (by decide)]
       exact .pure (.inr ⟨rfl, rfl, leaves⟩)
     · rw [grown, uint_eq bound, if_neg (by omega)]
       refine .pure (.inl ⟨rfl, sum.symm, inside, ?_⟩)
       exact resized_of_maps sized.filled maps more lowNew
  split
  · next shrinks =>
     have less : pages size ≤ pages p.sz := by omega
     refine (Table.uvmdealloc_safe sized.filled (by omega) (by omega) (by omega)).bind
       fun answer met => ?_
     obtain ⟨res, table⟩ := answer
     dsimp only at met ⊢
     obtain ⟨shrunk, unmaps⟩ := met
     rw [shrunk, uint_eq bound]
     refine .pure (.inl ⟨rfl, sum.symm, inside, ?_⟩)
     exact resized_of_unmaps sized.filled unmaps less lowOld
  · have stays : size = p.sz := by omega
    subst stays
    refine .pure (.inl ⟨rfl, sum.symm, inside, ?_⟩)
    refine resized_of_unmaps sized.filled (fun k => ?_) le_rfl lowOld
    have none : ¬ (pages p.sz ≤ k ∧ k < pages p.sz) := by omega
    exact (if_neg none).symm

/-- What `growproc` is to do does not concern the pages at `TRAPFRAME` and `TRAMPOLINE`. -/
theorem Grew.kernel {answer : Int × Proc} (sized : p.Sized) (grew : Grew p n answer) {k : Nat}
    (high : trapframePage ≤ k) : answer.2.table.leaf k = p.table.leaf k := by
  obtain ⟨_, _, inside, resized⟩ | ⟨_, _, leaves⟩ := grew
  · have top : trapframePage = 67108862 := trapframePage_eq
    have memory : memoryPages = 32768 := memoryPages_eq
    have limit : World.trapframeVa = 274877898752 := by decide
    have few := sized.pages_le
    have number : pages answer.2.sz = (answer.2.sz + 4095) / 4096 := pages_eq (by omega)
    exact resized.kept k (.inr (by omega))
  · exact leaves k

/-- A request that leaves a negative size wraps, and nothing changes. -/
theorem growproc_wrap (sized : p.Sized) (int : IsInt n) (negative : (p.sz : Int) + n < 0) :
    growproc p n = pure (0, p) := by
  have small : p.sz ≤ 134217728 := sized.small
  have same : uint p.sz = p.sz := uint_eq (by omega)
  obtain ⟨least, most⟩ := int
  have wraps : p.sz ≤ uint (p.sz + n) := by
    unfold uint
    omega
  unfold growproc
  dsimp only
  rw [same, if_neg (by omega), if_pos (by omega), Table.uvmdealloc, if_pos wraps]
  show (pure (0, { p with sz := uint p.sz }) : Prog (Int × Proc)) = pure (0, p)
  rw [same]

theorem growproc_safe (sized : p.Sized) (int : IsInt n) :
    Safe strict (growproc p n) (Answers p n) := by
  by_cases positive : 0 ≤ (p.sz : Int) + n
  · refine (growproc_grew sized int positive).mono fun answer grew => ?_
    exact ⟨fun k high => grew.kernel sized high, fun _ => grew⟩
  · rw [growproc_wrap sized int (by omega)]
    exact .pure ⟨fun _ _ => rfl, fun holds => absurd holds positive⟩

end Ev6.AddressSpace
