import Ev6.PageTable.Ptdup

/-!
# Records of L0 tables

`PTDS_PTED_add`, `PTDS_delete`, `PTED_delete` and `L0_ptes_delete` of `ptdup.c`, and what
the records of a process say about its address space.
-/

namespace Ev6.PageTable

open Support

/-! ## The functions -/

/-- Store one word of a list. -/
def Records.set (records : Records) (n value : Nat) : Records :=
  { records with word := Function.update records.word n value }

/-- A word at which `PTDS_PTED_add` stops. -/
def Records.stops (records : Records) (n : Nat) : Bool :=
  emptyRecord (records.word n) || records.word n = records.header

/-- `PTDS_PTED_add`. `supply` are the pages that `kalloc` has left. The word equal to the
header is normally the link of the last page; wherever it stands it is replaced by the
address of a new page, and the content goes into the first word of the old one. -/
def ptdsPtedAdd (records : Records) (content : Nat) (supply : List Page) :
    Option (Records × List Page) :=
  match firstSlot records.stops records.size with
  | some n =>
    if emptyRecord (records.word n) then some (records.set n content, supply)
    else
      match supply with
      | [] => none
      | next :: rest =>
        some ((records.set n next).set (n / pageRecords * pageRecords) content, rest)
  | none =>
    match supply with
    | [] => none
    | _ :: rest =>
      let longer : Records :=
        { records with
          behind := records.behind + 1
          word := fun n => if n < records.size then records.word n else novalue }
      some (longer.set (pageRecords * records.behind) content, rest)

/-- The word that `PTDS_delete` computes to cut off the front of a run. -/
def cutFront (word vaEnd : Nat) : Nat :=
  let size := ptds2size word
  va2ptds (vaEnd + 1) ||| ppn2ptds (subWord (ptds2ppn word) (size * pgsize)) |||
    ub2ptds (ptds2ub word) ||| subWord (ptds2size word) size

/-- The last address of a run, as `PTDS_delete` computes it. -/
def runLast (word : Nat) : Nat := subWord (ptds2va word + ptds2size word * pgsize) 1

/-- One word in the loop of `PTDS_delete`. -/
def ptdsDeleteWord (vaStart vaEnd n : Nat) :
    Records × List Page → Option (Records × List Page)
  | (records, supply) =>
    let word := records.word n
    let first := ptds2va word
    let last := runLast word
    let size := ptds2size word
    if vaStart ≤ first ∧ last ≤ vaEnd then some (records.set n 0, supply)
    else if vaStart = first ∧ vaEnd < last then
      some (records.set n (cutFront word vaEnd), supply)
    else if first < vaStart ∧ last = vaEnd then
      some (records.set n
        (word ||| (2 ^ 64 - 0x200) ||| subWord (word &&& 0x1FF) size), supply)
    else if first < vaStart ∧ vaEnd < last then
      (ptdsPtedAdd records (cutFront word vaEnd) supply).map fun (records, supply) =>
        (records.set n ((records.word n + size) % 2 ^ 64), supply)
    else some (records, supply)

/-- The words of one page in `PTDS_delete`. -/
def ptdsDeletePage (vaStart vaEnd page : Nat) (state : Records × List Page) :
    Option (Records × List Page) :=
  (List.range pageRecords).foldlM
    (fun state i => ptdsDeleteWord vaStart vaEnd (pageRecords * page + i) state) state

/-- The pages from `page` on in `PTDS_delete`. Whether a page is the last one is decided
before its words are looked at. -/
def ptdsDeleteFrom (vaStart vaEnd : Nat) :
    Nat → Nat → Records × List Page → Option (Records × List Page)
  | 0, _, _ => none
  | fuel + 1, page, state =>
    (ptdsDeletePage vaStart vaEnd page state).bind fun after =>
      if page + 1 = state.1.pages then some after
      else ptdsDeleteFrom vaStart vaEnd fuel (page + 1) after

/-- `PTDS_delete`. Every page that it visits is one of the list or one of the supply. -/
def ptdsDelete (records : Records) (vaStart vaEnd : Nat) (supply : List Page) :
    Option (Records × List Page) :=
  ptdsDeleteFrom vaStart vaEnd (records.pages + supply.length) 0 (records, supply)

/-- `PTED_delete`. -/
def ptedDelete (records : Records) (vaStart vaEnd : Nat) : Records :=
  { records with
    word := fun n =>
      let va := ptds2va (records.word n)
      if n < records.size ∧ vaStart ≤ va ∧ va < vaEnd then novalue else records.word n }

/-- `L0_ptes_delete`. -/
def l0PtesDelete (tables : Tables) (pagetable vaStart sz : Nat) (supply : List Page) :
    Option (Tables × List Page) :=
  let vaEnd := (vaStart + signExtend ((sz + 1) * pgsize)) % 2 ^ 64
  match firstSlot (fun i => tables.idxPtdup i = pagetable) ptdupSize with
  | none => some (tables, supply)
  | some idx =>
    if idx > 0 then
      let head := tables.head idx
      let l0Pted := head.l0Pted.map fun records => ptedDelete records vaStart vaEnd
      match head.l0Ptds with
      | none =>
        some ({ tables with
          head := Function.update tables.head idx { head with l0Pted := l0Pted } }, supply)
      | some records =>
        (ptdsDelete records vaStart vaEnd supply).map fun (records, supply) =>
          ({ tables with
            head := Function.update tables.head idx
              { head with l0Ptds := some records, l0Pted := l0Pted } }, supply)
    else some (tables, supply)

/-- The call of `L0_ptes_delete` in `uvmunmap(pagetable, va, size, do_free)`: the number of
steps from the first to the last page of the range. -/
def uvmunmapRecords (tables : Tables) (pagetable va size : Nat) (supply : List Page) :
    Option (Tables × List Page) :=
  l0PtesDelete tables pagetable va ((pgrounddown (va + size - 1) - pgrounddown va) / pgsize)
    supply

/-! ## What the records say -/

/-- A virtual page, the physical page behind it, and whether the user may access it. -/
structure Mapping where
  va : Nat
  pa : Nat
  user : Bool
deriving DecidableEq

/-- One page of a PTDS. -/
def runMapping (word j : Nat) : Mapping :=
  ⟨ptds2va word + j * pgsize, pte2pa (runPpn word j), ptds2ub word ≠ 0⟩

/-- The page of a PTED. -/
def entryMapping (word : Nat) : Mapping :=
  ⟨ptds2va word, pte2pa (ptds2ppn word), pted2flags word &&& pteU ≠ 0⟩

/-- A live word of a PTDS list describes a page. -/
def Records.Runs (records : Records) (mapping : Mapping) (n : Nat) : Prop :=
  n < records.size ∧ emptyRecord (records.word n) = false ∧
    ∃ j < ptds2size (records.word n), mapping = runMapping (records.word n) j

/-- A live word of a PTED list describes a page. -/
def Records.Enters (records : Records) (mapping : Mapping) (n : Nat) : Prop :=
  n < records.size ∧ emptyRecord (records.word n) = false ∧
    mapping = entryMapping (records.word n)

/-- The records of a process describe a page. -/
def PtdupHead.Describes (head : PtdupHead) (mapping : Mapping) : Prop :=
  (∃ records ∈ head.l0Ptds, ∃ n, records.Runs mapping n) ∨
    ∃ records ∈ head.l0Pted, ∃ n, records.Enters mapping n

/-! ## Words in the loop of `PTDS_delete` -/

/-- A word that describes no page. -/
def Blank (word : Nat) : Prop := emptyRecord word = true ∨ ptds2size word = 0

/-- The end of the run of a word. -/
def runEnd (word : Nat) : Nat := ptds2va word + ptds2size word * pgsize

/-- A range of whole pages below `MAXVA`. -/
structure PageRange (va stop : Nat) : Prop where
  start : va % pgsize = 0
  whole : stop % pgsize = 0
  nonempty : va < stop
  low : stop ≤ maxva

/-- The range lies strictly inside the run that the junk of `kalloc` would be. -/
def InJunk (va stop : Nat) : Prop := ptds2va novalue < va ∧ stop < runEnd novalue

section Cut

variable {word va stop : Nat}

theorem runLast_eq (bound : word < 2 ^ 64) :
    runLast word = if runEnd word = 0 then 2 ^ 64 - 1 else runEnd word - 1 := by
  have field := ptds2va_bounds bound
  have size := ptds2size_lt word
  unfold runLast runEnd subWord
  rw [pgsize_eq]
  split <;> omega

theorem subWord_self {value : Nat} (bound : value < 2 ^ 64) : subWord value value = 0 := by
  rw [subWord, Nat.mod_eq_of_lt bound, Nat.add_sub_cancel_left, Nat.mod_self]

theorem subWord_lt (first second : Nat) : subWord first second < 2 ^ 64 :=
  Nat.mod_lt _ (by decide)

theorem ppn2ptds_mod (ppn : Nat) : ppn2ptds ppn % 512 = 0 := by
  have fields : (ppn &&& (2 ^ 64 - 2 ^ 10)) % 2 ^ 10 = 0 := by
    rw [Nat.and_mod_two_pow]
    simp
  rw [ppn2ptds, Nat.shiftLeft_eq]
  omega

theorem ub2ptds_mod (perm : Nat) : ub2ptds perm % 512 = 0 := by
  rw [ub2ptds, Nat.shiftLeft_eq, show (0x10 : Nat) = 2 ^ 4 from rfl, Nat.and_two_pow]
  omega

/-- The word for the rest of a run describes nothing, because its size is zero. -/
theorem ptds2size_cutFront (word stop : Nat) : ptds2size (cutFront word stop) = 0 := by
  have size := ptds2size_lt word
  have address : va2ptds (stop + 1) % 2 ^ 9 = 0 := by
    rw [va2ptds, Nat.shiftLeft_eq]
    omega
  have number : ppn2ptds (subWord (ptds2ppn word) (ptds2size word * pgsize)) % 2 ^ 9 = 0 :=
    ppn2ptds_mod _
  have flag : ub2ptds (ptds2ub word) % 2 ^ 9 = 0 := ub2ptds_mod _
  have left : subWord (ptds2size word) (ptds2size word) = 0 := subWord_self (by omega)
  rw [ptds2size_eq, show (512 : Nat) = 2 ^ 9 from rfl]
  simp only [cutFront, Nat.or_mod_two_pow, address, number, flag, left]
  rfl

theorem blank_cutFront (word stop : Nat) : Blank (cutFront word stop) :=
  .inr (ptds2size_cutFront word stop)

theorem cutFront_lt (word stop : Nat) : cutFront word stop < 2 ^ 64 := by
  have address : va2ptds (stop + 1) < 2 ^ 64 := Nat.mod_lt _ (by decide)
  have number : ppn2ptds (subWord (ptds2ppn word) (ptds2size word * pgsize)) < 2 ^ 64 :=
    Nat.mod_lt _ (by decide)
  have flag : ub2ptds (ptds2ub word) < 2 ^ 64 := by
    have masked : ptds2ub word &&& 0x10 ≤ 0x10 := Nat.and_le_right
    rw [ub2ptds, Nat.shiftLeft_eq]
    omega
  exact Nat.or_lt_two_pow (Nat.or_lt_two_pow (Nat.or_lt_two_pow address number) flag)
    (subWord_lt _ _)

/-- The word for the rest of a run starts behind what has been cut off. -/
theorem le_ptds2va_cutFront (aligned : stop % pgsize = 0) (low : stop < maxva) :
    stop ≤ ptds2va (cutFront word stop) := by
  have numbers : maxva = 2 ^ 38 := rfl
  rw [pgsize_eq] at aligned
  have address : va2ptds (stop + 1) = (stop + 1) * 2 ^ 26 := by
    rw [va2ptds, Nat.shiftLeft_eq]
    omega
  have below : va2ptds (stop + 1) ≤ cutFront word stop :=
    Nat.le_trans Nat.left_le_or (Nat.le_trans Nat.left_le_or Nat.left_le_or)
  rw [ptds2va_eq (cutFront_lt word stop)]
  omega

end Cut

end Ev6.PageTable
