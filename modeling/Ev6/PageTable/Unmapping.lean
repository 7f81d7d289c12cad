import Ev6.PageTable.RecordDeletion

/-!
# Unmapping and the records

After `uvmunmap` the records should describe what they described before, without the pages
that have been unmapped. They do when every run lies inside the range or apart from it, and
the process is not the one at index 0 of `idx_ptdup`.
-/

namespace Ev6.PageTable

open Support

/-! ## Pages of records -/

section Pages

variable {va stop n : Nat} {records after : Records} {mapping : Mapping}

theorem Records.Runs.not_blank (runs : records.Runs mapping n) : ¬Blank (records.word n) := by
  obtain ⟨-, live, j, low, -⟩ := runs
  rintro (empty | none)
  · rw [live] at empty
    cases empty
  · omega

theorem Records.Runs.aligned (runs : records.Runs mapping n) (words : records.Words) :
    mapping.va % pgsize = 0 := by
  obtain ⟨-, -, j, -, rfl⟩ := runs
  have field := ptds2va_bounds (words n)
  dsimp only [runMapping]
  rw [pgsize_eq]
  omega

theorem Records.Runs.va_mem (runs : records.Runs mapping n) :
    ptds2va (records.word n) ≤ mapping.va ∧ mapping.va + pgsize ≤ runEnd (records.word n) := by
  obtain ⟨-, -, j, low, rfl⟩ := runs
  have below : (j + 1) * pgsize ≤ ptds2size (records.word n) * pgsize :=
    Nat.mul_le_mul_right pgsize low
  rw [Nat.succ_mul] at below
  dsimp only [runMapping]
  rw [runEnd]
  omega

/-- Every whole page between the ends of a run is a page of it. -/
theorem Records.runs_at (inside : n < records.size) (live : ¬Blank (records.word n))
    (words : records.Words) (page : Nat) (aligned : page % pgsize = 0)
    (front : ptds2va (records.word n) ≤ page) (back : page < runEnd (records.word n)) :
    ∃ mapping, mapping.va = page ∧ records.Runs mapping n := by
  have field := ptds2va_bounds (words n)
  have nonempty : emptyRecord (records.word n) = false := by
    by_contra empty
    exact live (.inl (by simpa using empty))
  rw [pgsize_eq] at aligned
  rw [runEnd, pgsize_eq] at back
  refine ⟨runMapping (records.word n) ((page - ptds2va (records.word n)) / 4096), ?_, inside,
    nonempty, _, ?_, rfl⟩
  · dsimp only [runMapping]
    rw [pgsize_eq]
    omega
  · omega

/-- The records that are left after a deletion that keeps them. -/
theorem runs_of_kept (parted : records.Parted va stop) (same : after.size = records.size)
    (kept : ∀ i < records.size, Kept va stop (records.word i) (after.word i)) :
    after.Runs mapping n ↔ records.Runs mapping n ∧ ¬(va ≤ mapping.va ∧ mapping.va < stop) := by
  have positive : 0 < pgsize := by decide
  constructor
  · intro runs
    have live := runs.not_blank
    have low : n < records.size := same ▸ runs.1
    rcases kept n low with ⟨-, blank⟩ | ⟨old, stays, equal⟩
    · exact absurd blank live
    · have before : records.Runs mapping n := by
        rw [Records.Runs, equal, same] at runs
        exact runs
      have ends := before.va_mem
      refine ⟨before, ?_⟩
      rcases (parted n low old).resolve_left stays with front | behind <;> omega
  · rintro ⟨runs, outside⟩
    have ends := runs.va_mem
    rcases kept n runs.1 with ⟨blank | within, -⟩ | ⟨-, -, equal⟩
    · exact absurd blank runs.not_blank
    · have first := within.1
      have last := within.2
      omega
    · rw [Records.Runs, equal, same]
      exact runs

/-- `PTED_delete` takes away the pages of the range. -/
theorem enters_ptedDelete (entries : Records) : (ptedDelete entries va stop).Enters mapping n ↔
      entries.Enters mapping n ∧ ¬(va ≤ mapping.va ∧ mapping.va < stop) := by
  by_cases gone : n < entries.size ∧ va ≤ ptds2va (entries.word n) ∧
      ptds2va (entries.word n) < stop
  · have word : (ptedDelete entries va stop).word n = novalue := if_pos gone
    have junk : emptyRecord novalue = true := rfl
    constructor
    · rintro ⟨-, live, -⟩
      rw [word, junk] at live
      cases live
    · rintro ⟨⟨-, -, rfl⟩, outside⟩
      exact absurd gone.2 outside
  · have word : (ptedDelete entries va stop).word n = entries.word n := if_neg gone
    rw [Records.Enters, word]
    constructor
    · rintro ⟨low, live, rfl⟩
      exact ⟨⟨low, live, rfl⟩, fun inside => gone ⟨low, inside⟩⟩
    · rintro ⟨⟨low, live, rfl⟩, -⟩
      exact ⟨low, live, rfl⟩

end Pages

/-! ## When a deletion is right -/

/-- The records are ones that `L0_ptes_delete` gets right: the list is left alone where
nothing is to be deleted, and otherwise every run lies inside the range or apart from it. -/
def Deletable (head : PtdupHead) (idx va stop : Nat) : Prop :=
  (idx = 0 ∧ ∀ mapping, head.Describes mapping → ¬(va ≤ mapping.va ∧ mapping.va < stop)) ∨
    (0 < idx ∧ ∀ records ∈ head.l0Ptds, records.Parted va stop)

/-- The loop meets no word that it would take for a run over the whole range although it
describes nothing. -/
structure Uncluttered (head : PtdupHead) (va stop : Nat) : Prop where
  junk : ¬InJunk va stop
  plain : 0 < va → ∀ records ∈ head.l0Ptds, records.Plain

/-- No page of a run is described by another record, and no run goes beyond `MAXVA`. -/
structure Tidy (head : PtdupHead) : Prop where
  runs : ∀ records ∈ head.l0Ptds, ∀ first second i j, records.Runs first i →
    records.Runs second j → first.va = second.va → i = j
  entries : ∀ records ∈ head.l0Ptds, ∀ entries ∈ head.l0Pted, ∀ first second i j,
    records.Runs first i → entries.Enters second j → first.va ≠ second.va
  low : ∀ records ∈ head.l0Ptds, ∀ i < records.size, ¬Blank (records.word i) →
    runEnd (records.word i) ≤ maxva

/-- The records after `uvmunmap(pagetable, va, size, do_free)` describe what they described
before, without the pages of the range. -/
def Removed (tables : Tables) (pagetable idx va size : Nat) (supply : List Page) : Prop :=
  ∃ after rest, uvmunmapRecords tables pagetable va size supply = some (after, rest) ∧
    ∀ mapping, (after.head idx).Describes mapping ↔
      (tables.head idx).Describes mapping ∧ ¬(va ≤ mapping.va ∧ mapping.va < va + size)

/-- The end of the last page of the range. -/
def rangeEnd (va size : Nat) : Nat := va + (size + pgsize - 1) / pgsize * pgsize

section Range

variable {va size : Nat}

theorem pageRange (start : va % pgsize = 0) (nonempty : 0 < size) (low : va + size ≤ maxva) :
    PageRange va (rangeEnd va size) := by
  have top : maxva = 0x4000000000 := rfl
  rw [pgsize_eq] at start
  refine ⟨start, ?_, ?_, ?_⟩ <;> rw [rangeEnd, pgsize_eq] <;> omega

/-- The end of the range as `L0_ptes_delete` computes it. -/
theorem unmap_end (start : va % pgsize = 0) (nonempty : 0 < size) (low : va + size ≤ maxva)
    (fits : size < 2 ^ 31 - pgsize) :
    (va + signExtend (((pgrounddown (va + size - 1) - pgrounddown va) / pgsize + 1) * pgsize)) %
      2 ^ 64 = rangeEnd va size := by
  have top : maxva = 0x4000000000 := rfl
  rw [pgsize_eq] at start fits
  rw [pgrounddown_eq (by omega), pgrounddown_eq (by omega), rangeEnd, signExtend, pgsize_eq]
  split <;> omega

/-- A page lies in the range exactly when it lies before its end. -/
theorem lt_rangeEnd {page : Nat} (start : va % pgsize = 0) (nonempty : 0 < size)
    (aligned : page % pgsize = 0) : page < rangeEnd va size ↔ page < va + size := by
  rw [pgsize_eq] at start aligned
  rw [rangeEnd, pgsize_eq]
  omega

end Range

/-! ## The deletion as a whole -/

/-- The words of the records of a process fit into 64 bits. -/
def PtdupHead.Words (head : PtdupHead) : Prop :=
  (∀ records ∈ head.l0Ptds, records.Words) ∧ ∀ entries ∈ head.l0Pted, entries.Words

theorem PtdupHead.Describes.aligned {head : PtdupHead} {mapping : Mapping} (words : head.Words)
    (described : head.Describes mapping) : mapping.va % pgsize = 0 := by
  rcases described with ⟨records, member, n, runs⟩ | ⟨entries, member, n, -, -, rfl⟩
  · exact runs.aligned (words.1 records member)
  · exact (ptds2va_bounds (words.2 entries member n)).1

theorem enters_map_ptedDelete {list : Option Records} {mapping : Mapping} {va stop : Nat} :
    (∃ entries ∈ list.map fun entries => ptedDelete entries va stop,
      ∃ n, entries.Enters mapping n) ↔
      (∃ entries ∈ list, ∃ n, entries.Enters mapping n) ∧
        ¬(va ≤ mapping.va ∧ mapping.va < stop) := by
  cases list with
  | none => simp
  | some entries => simp [enters_ptedDelete]

section Deletion

variable {tables : Tables} {pagetable idx va stop size : Nat} {supply : List Page}

/-- The head of the process after the deletion, when it has records. -/
theorem uvmunmapRecords_eq
    (found : firstSlot (fun i => tables.idxPtdup i = pagetable) ptdupSize = some idx)
    (start : va % pgsize = 0) (nonempty : 0 < size) (low : va + size ≤ maxva)
    (fits : size < 2 ^ 31 - pgsize) :
    uvmunmapRecords tables pagetable va size supply =
      if idx > 0 then
        let head := tables.head idx
        let l0Pted := head.l0Pted.map fun records => ptedDelete records va (rangeEnd va size)
        match head.l0Ptds with
        | none =>
          some ({ tables with
            head := Function.update tables.head idx { head with l0Pted := l0Pted } }, supply)
        | some records =>
          (ptdsDelete records va (rangeEnd va size) supply).map fun (records, supply) =>
            ({ tables with
              head := Function.update tables.head idx
                { head with l0Ptds := some records, l0Pted := l0Pted } }, supply)
      else some (tables, supply) := by
  unfold uvmunmapRecords l0PtesDelete
  cases records : (tables.head idx).l0Ptds with
  | none => simp only [unmap_end start nonempty low fits, found, records]
  | some records => simp only [unmap_end start nonempty low fits, found, records]

variable (found : firstSlot (fun i => tables.idxPtdup i = pagetable) ptdupSize = some idx)
  (words : (tables.head idx).Words) (start : va % pgsize = 0) (nonempty : 0 < size)
  (low : va + size ≤ maxva) (fits : size < 2 ^ 31 - pgsize)

/-- The range in terms of its end, for the pages that records describe. -/
theorem mem_range_iff (words : (tables.head idx).Words) (start : va % pgsize = 0)
    (nonempty : 0 < size) {mapping : Mapping} (described : (tables.head idx).Describes mapping) :
    (va ≤ mapping.va ∧ mapping.va < va + size) ↔
      (va ≤ mapping.va ∧ mapping.va < rangeEnd va size) := by
  rw [lt_rangeEnd start nonempty (described.aligned words)]

include found words start nonempty low fits

/-- A deletion from records that are in order is right. -/
theorem removed_of_deletable (uncluttered : Uncluttered (tables.head idx) va (rangeEnd va size))
    (deletable : Deletable (tables.head idx) idx va (rangeEnd va size)) :
    Removed tables pagetable idx va size supply := by
  have range := pageRange start nonempty low
  have same {mapping : Mapping} (described : (tables.head idx).Describes mapping) :=
    mem_range_iff words start nonempty described
  rw [Removed, uvmunmapRecords_eq found start nonempty low fits]
  rcases deletable with ⟨first, nothing⟩ | ⟨later, parted⟩
  · rw [if_neg (by omega)]
    refine ⟨tables, supply, rfl, fun mapping => ?_⟩
    constructor
    · intro described
      exact ⟨described, (not_congr (same described)).mpr (nothing mapping described)⟩
    · exact And.left
  · rw [if_pos later]
    dsimp only
    cases lists : (tables.head idx).l0Ptds with
    | none =>
      refine ⟨_, _, rfl, fun mapping => ?_⟩
      dsimp only
      rw [Function.update_self, and_congr_right fun described => not_congr (same described)]
      simp only [PtdupHead.Describes, lists, enters_map_ptedDelete, Option.not_mem_none,
        false_and, exists_false, false_or]
    | some records =>
      obtain ⟨after, rest, deleted, equal, kept⟩ := ptdsDelete_kept range uncluttered.junk
        (words.1 records lists) (parted records lists)
        (fun positive => uncluttered.plain positive records lists) supply
      dsimp only
      rw [deleted, Option.map_some]
      refine ⟨_, _, rfl, fun mapping => ?_⟩
      have runs (n : Nat) := @runs_of_kept va _ n records after mapping (parted records lists)
        equal kept
      dsimp only
      rw [Function.update_self, and_congr_right fun described => not_congr (same described)]
      simp only [PtdupHead.Describes, lists, enters_map_ptedDelete, Option.mem_some_iff,
        exists_eq_left', runs, exists_and_right, or_and_right]

end Deletion

/-! ## Runs that are cut wrongly -/

section Cut

variable {va stop i : Nat} {records after : Records} {mapping : Mapping}

/-- A run that grows by its own size goes on over the pages of the range, or changes its
user bit. -/
theorem grown_word {word : Nat} (bound : word < 2 ^ 64) :
    (∀ j, runMapping ((word + ptds2size word) % 2 ^ 64) j = runMapping word j) ∧
        ptds2size ((word + ptds2size word) % 2 ^ 64) = 2 * ptds2size word ∨
      ∀ j k, runMapping ((word + ptds2size word) % 2 ^ 64) j ≠ runMapping word k := by
  have size := ptds2size_eq word
  by_cases fits : 2 * ptds2size word < 512
  · have same : (word + ptds2size word) % 2 ^ 64 / 512 = word / 512 := by omega
    obtain ⟨va, user, ppn⟩ := fields_congr same
    refine .inl ⟨fun j => ?_, ?_⟩
    · rw [runMapping, runMapping, va, user, ppn j]
    · rw [ptds2size_eq ((word + ptds2size word) % 2 ^ 64)]
      omega
  · refine .inr fun j k same => ?_
    have user : ptds2ub ((word + ptds2size word) % 2 ^ 64) ≠ 0 ↔ ptds2ub word ≠ 0 :=
      decide_eq_decide.mp (congrArg Mapping.user same)
    rw [ptds2ub_ne_zero, ptds2ub_ne_zero] at user
    omega

/-- What is left of a record that was cut in the middle starts behind the range. -/
theorem cut_word {word j : Nat} (aligned : stop % pgsize = 0) (low : stop < maxva) :
    stop ≤ (runMapping (cutFront word stop + ptds2size word) j).va := by
  have none := ptds2size_cutFront word stop
  have size := ptds2size_lt word
  rw [ptds2size_eq (cutFront word stop)] at none
  have same : (cutFront word stop + ptds2size word) / 512 = cutFront word stop / 512 := by omega
  obtain ⟨field, -, -⟩ := fields_congr same
  have start := @le_ptds2va_cutFront word stop aligned low
  dsimp only [runMapping]
  omega

/-- A page of a record that neither lies inside the range nor apart from it, on each side
of a border of the range. -/
theorem crossing_pages (range : PageRange va stop) (words : records.Words)
    (inside : i < records.size) (live : ¬Blank (records.word i))
    (stays : ¬Within va stop (records.word i)) (touches : ¬Apart va stop (records.word i)) :
    (∃ within, records.Runs within i ∧ va ≤ within.va ∧ within.va < stop) ∧
      ∃ beyond, records.Runs beyond i ∧ ¬(va ≤ beyond.va ∧ beyond.va < stop) ∧
        (ptds2va (records.word i) < va → beyond.va < va) := by
  have field := ptds2va_bounds (words i)
  have ends := runEnd_mod (words i)
  have start := range.start
  have whole := range.whole
  have nonempty := range.nonempty
  have size : ptds2size (records.word i) ≠ 0 := fun none => live (.inr none)
  have long : ptds2va (records.word i) < runEnd (records.word i) := by
    rw [runEnd, pgsize_eq]
    omega
  rw [Apart, not_or, Nat.not_le, Nat.not_le] at touches
  rw [pgsize_eq] at start whole
  have page := Records.runs_at inside live words
  constructor
  · obtain ⟨mapping, address, runs⟩ := page (max va (ptds2va (records.word i)))
      (by rw [pgsize_eq]; omega) (by omega) (by omega)
    exact ⟨mapping, runs, by omega, by omega⟩
  · by_cases first : ptds2va (records.word i) < va
    · obtain ⟨mapping, address, runs⟩ := page _ field.1 (Nat.le_refl _) long
      exact ⟨mapping, runs, by omega, fun _ => by omega⟩
    · have last : stop < runEnd (records.word i) := by
        by_contra short
        exact stays ⟨by omega, by omega⟩
      obtain ⟨mapping, address, runs⟩ := page (runEnd (records.word i) - 4096)
        (by rw [pgsize_eq]; omega) (by omega) (by omega)
      exact ⟨mapping, runs, by omega, fun second => absurd second first⟩

/-- A deletion that is right leaves no run that crosses a border of the range. -/
theorem parted_of_exact (range : PageRange va stop) (words : records.Words)
    (outcome : ∀ i < records.size, Outcome va stop (records.word i) (after.word i))
    (fresh : ∀ i, records.size ≤ i → i < after.size → Blank (after.word i))
    (once : ∀ first second i j, records.Runs first i → records.Runs second j →
      first.va = second.va → i = j)
    (low : ∀ i < records.size, ¬Blank (records.word i) → runEnd (records.word i) ≤ maxva)
    (gone : ∀ mapping i, after.Runs mapping i → ¬(va ≤ mapping.va ∧ mapping.va < stop))
    (left : ∀ mapping i, records.Runs mapping i → ¬(va ≤ mapping.va ∧ mapping.va < stop) →
      ∃ k, after.Runs mapping k) : records.Parted va stop := by
  intro i inside live
  by_contra crosses
  rw [not_or] at crosses
  obtain ⟨⟨within, member, front, back⟩, beyond, other, outside, first⟩ :=
    crossing_pages range words inside live crosses.1 crosses.2
  -- the page beyond the range is still described, and only this record can do that
  obtain ⟨k, still⟩ := left beyond i other outside
  have bound : k < records.size := by
    by_contra high
    exact still.not_blank (fresh k (Nat.not_lt.mp high) still.1)
  have same : k = i := by
    rcases outcome k bound with blank | equal | ⟨hole, whole, -⟩
    · exact absurd blank still.not_blank
    · have before : records.Runs beyond k := by
        rw [Records.Runs, equal] at still
        exact ⟨bound, still.2⟩
      exact once beyond beyond k i before other rfl
    · have start := hole.1
      have final := hole.2
      obtain ⟨mapping, address, runs⟩ := Records.runs_at bound whole words within.va
        (member.aligned words) (by omega) (by omega)
      exact once mapping within k i runs member address
  subst same
  rcases outcome k bound with blank | equal | ⟨hole, whole, grown | cut⟩
  · exact still.not_blank blank
  · refine gone within k ?_ ⟨front, back⟩
    rw [Records.Runs, equal]
    exact ⟨still.1, member.2⟩
  · rcases grown_word (words k) with ⟨equal, double⟩ | never
    · refine gone within k ?_ ⟨front, back⟩
      obtain ⟨-, -, j, small, page⟩ := member
      refine ⟨still.1, still.2.1, j, ?_, ?_⟩
      · rw [grown, double]
        omega
      · rw [grown, equal j]
        exact page
    · obtain ⟨-, -, j, -, page⟩ := still
      obtain ⟨-, -, j', -, page'⟩ := other
      rw [grown] at page
      exact never j j' (page.symm.trans page')
  · obtain ⟨-, -, j, -, page⟩ := still
    have start := first hole.1
    have behind := @cut_word stop (records.word k) j range.whole
      (Nat.lt_of_lt_of_le hole.2 (low k bound whole))
    rw [cut] at page
    rw [← page] at behind
    have nonempty := range.nonempty
    omega

end Cut

section Deletion

variable {tables : Tables} {pagetable idx va size : Nat} {supply : List Page}
  (found : firstSlot (fun i => tables.idxPtdup i = pagetable) ptdupSize = some idx)
  (words : (tables.head idx).Words) (start : va % pgsize = 0) (nonempty : 0 < size)
  (low : va + size ≤ maxva) (fits : size < 2 ^ 31 - pgsize)

include found words start nonempty low fits

/-- Records for which the deletion is right are in order, when each page is described
once. -/
theorem deletable_of_removed (outside : ¬InJunk va (rangeEnd va size))
    (tidy : Tidy (tables.head idx)) (removed : Removed tables pagetable idx va size supply) :
    Deletable (tables.head idx) idx va (rangeEnd va size) := by
  have range := pageRange start nonempty low
  have same {mapping : Mapping} (described : (tables.head idx).Describes mapping) :=
    mem_range_iff words start nonempty described
  obtain ⟨after, rest, deleted, right⟩ := removed
  rw [uvmunmapRecords_eq found start nonempty low fits] at deleted
  rcases Nat.eq_zero_or_pos idx with zero | later
  · subst zero
    cases deleted
    refine .inl ⟨rfl, fun mapping described => ?_⟩
    exact (not_congr (same described)).mp ((right mapping).mp described).2
  · refine .inr ⟨later, fun records lists => ?_⟩
    rw [if_pos later] at deleted
    dsimp only at deleted
    rw [show (tables.head idx).l0Ptds = some records from lists] at deleted
    obtain ⟨⟨cut, rest'⟩, passed, equal⟩ := Option.map_eq_some_iff.mp deleted
    cases equal
    obtain ⟨outcome, fresh⟩ :=
      ptdsDelete_outcome range outside (words.1 records lists) passed
    dsimp only at right
    rw [Function.update_self] at right
    refine parted_of_exact range (words.1 records lists) outcome fresh
      (tidy.runs records lists) (tidy.low records lists) (fun mapping i runs => ?_)
      (fun mapping i runs beyond => ?_)
    · obtain ⟨before, beyond⟩ := (right mapping).mp (.inl ⟨cut, rfl, i, runs⟩)
      exact (not_congr (same before)).mp beyond
    · have before : (tables.head idx).Describes mapping := .inl ⟨records, lists, i, runs⟩
      rcases (right mapping).mpr ⟨before, (not_congr (same before)).mpr beyond⟩ with
        ⟨list, member, k, still⟩ | entered
      · cases member
        exact ⟨k, still⟩
      · obtain ⟨⟨entries, member, k, enters⟩, -⟩ := enters_map_ptedDelete.mp entered
        exact absurd rfl (tidy.entries records lists entries member mapping mapping i k runs enters)

/-- The records after `uvmunmap` are right exactly when they are `Deletable`. -/
theorem removed_iff (uncluttered : Uncluttered (tables.head idx) va (rangeEnd va size)) :
    (Deletable (tables.head idx) idx va (rangeEnd va size) →
      Removed tables pagetable idx va size supply) ∧
    (Tidy (tables.head idx) → Removed tables pagetable idx va size supply →
      Deletable (tables.head idx) idx va (rangeEnd va size)) :=
  ⟨removed_of_deletable found words start nonempty low fits uncluttered,
    deletable_of_removed found words start nonempty low fits uncluttered.junk⟩

end Deletion

/-! ## A process that shrinks -/

/-- A run of three pages at address zero. -/
def sampleRun : Nat := va2ptds 0 ||| ppn2ptds (pa2pte 0x87f50000) ||| ub2ptds pteU ||| 3

/-- A process at index 1 with one run. -/
def sampleRecords : Records := ⟨⟨0x87f04000, by decide⟩, 0, fun n => if n = 0 then sampleRun else novalue⟩

/-- The page table of the process is at 0x87f10000. -/
def sampleProcess : Tables where
  memory := fun _ _ => 0
  head := fun _ => ⟨0x87f00000, 0x87f01000, some sampleRecords, none⟩
  idxPtdup := fun i => if i = 1 then 0x87f10000 else 0

theorem found_sampleProcess :
    firstSlot (fun i => sampleProcess.idxPtdup i = 0x87f10000) ptdupSize = some 1 := by
  decide +kernel

theorem words_sampleProcess : (sampleProcess.head 1).Words := by
  refine ⟨fun records member n => ?_, fun entries member => nomatch member⟩
  cases member
  by_cases first : n = 0
  · subst first
    decide +kernel
  · have word : sampleRecords.word n = novalue := if_neg first
    rw [word]
    decide

theorem uncluttered_sampleProcess (stop : Nat) : Uncluttered (sampleProcess.head 1) 0 stop where
  junk inside := Nat.not_lt_zero _ inside.1
  plain positive := absurd positive (Nat.lt_irrefl 0)

theorem parted_sampleRecords : sampleRecords.Parted 0 0x3000 := by
  intro n _ live
  by_cases first : n = 0
  · subst first
    exact .inl (by unfold Within; decide +kernel)
  · have word : sampleRecords.word n = novalue := if_neg first
    exact absurd (word ▸ blank_novalue) live

/-- The process gives up all its pages. -/
theorem removed_iff_sample : Removed sampleProcess 0x87f10000 1 0 0x3000 [] :=
  (removed_iff found_sampleProcess words_sampleProcess (by decide) (by decide) (by decide)
    (by decide) (uncluttered_sampleProcess _)).1
    (.inr ⟨by decide, fun records member => Option.some.inj member ▸ parted_sampleRecords⟩)

/-- When the process gives up its last page, the run still describes it. -/
theorem last_page_still_described : ¬∀ tables pagetable idx va size supply,
    firstSlot (fun i => tables.idxPtdup i = pagetable) ptdupSize = some idx →
    (tables.head idx).Words → va % pgsize = 0 → 0 < size → va + size ≤ maxva →
    size < 2 ^ 31 - pgsize → Removed tables pagetable idx va size supply := by
  intro always
  obtain ⟨after, rest, deleted, right⟩ := always sampleProcess 0x87f10000 1 0x2000 0x1000 []
    found_sampleProcess words_sampleProcess (by decide) (by decide) (by decide) (by decide)
  have kept : ((uvmunmapRecords sampleProcess 0x87f10000 0x2000 0x1000 []).any fun result =>
      (result.1.head 1).l0Ptds.any fun records =>
        decide (records.word 0 = sampleRun) && decide (0 < records.size)) = true := by
    decide +kernel
  rw [deleted, Option.any_some] at kept
  cases list : (after.head 1).l0Ptds with
  | none =>
    rw [list] at kept
    cases kept
  | some records =>
    rw [list, Option.any_some, Bool.and_eq_true, decide_eq_true_eq, decide_eq_true_eq] at kept
    have runs : records.Runs (runMapping sampleRun 2) 0 := by
      refine ⟨kept.2, ?_, 2, ?_, ?_⟩
      · rw [kept.1]
        decide +kernel
      · rw [kept.1]
        decide +kernel
      · rw [kept.1]
    have page : (runMapping sampleRun 2).va = 0x2000 := by decide +kernel
    have gone := ((right (runMapping sampleRun 2)).mp (.inl ⟨records, list, 0, runs⟩)).2
    rw [page] at gone
    exact gone (by decide)

end Ev6.PageTable
