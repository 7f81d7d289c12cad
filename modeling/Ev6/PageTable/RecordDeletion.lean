import Ev6.PageTable.Records

/-!
# Deletion of a range from the records

`PTDS_delete` is right about runs that lie inside the range or apart from it, and wrong
about every other one. This module says exactly what it does to each word of the list.
-/

namespace Ev6.PageTable

open Support

/-- The run lies inside the range. -/
def Within (va stop word : Nat) : Prop := va ≤ ptds2va word ∧ runEnd word ≤ stop

/-- The run lies outside the range. -/
def Apart (va stop word : Nat) : Prop := runEnd word ≤ va ∨ stop ≤ ptds2va word

/-- The run reaches beyond both ends of the range. -/
def Hole (va stop word : Nat) : Prop := ptds2va word < va ∧ stop < runEnd word

/-- The words of a list fit into 64 bits. -/
def Records.Words (records : Records) : Prop := ∀ n, records.word n < 2 ^ 64

section Word

variable {va stop : Nat} {word : Nat}

theorem runEnd_mod (bound : word < 2 ^ 64) : runEnd word % 4096 = 0 := by
  have field := ptds2va_bounds bound
  rw [runEnd, pgsize_eq]
  omega

theorem runEnd_lt (bound : word < 2 ^ 64) : runEnd word < 2 ^ 39 := by
  have field := ptds2va_bounds bound
  have size := ptds2size_lt word
  rw [runEnd, pgsize_eq]
  omega

/-- The last address of a run compared with the end of a range. Only a run of no pages at
address zero has the end of memory as its last address. -/
theorem runLast_compare (range : PageRange va stop) (bound : word < 2 ^ 64) :
    (runLast word ≤ stop ↔ runEnd word ≠ 0 ∧ runEnd word ≤ stop) ∧ runLast word ≠ stop ∧
      (stop < runLast word ↔ runEnd word = 0 ∨ stop < runEnd word) := by
  have whole := range.whole
  have low := range.low
  have aligned := runEnd_mod bound
  have high := runEnd_lt bound
  have top : maxva = 0x4000000000 := rfl
  rw [pgsize_eq] at whole
  rw [runLast_eq bound]
  split <;> omega

/-- `PTDS_delete` on one word, with the ends of runs in place of their last addresses. -/
theorem ptdsDeleteWord_eq {n : Nat} {records : Records} (supply : List Page)
    (range : PageRange va stop) (bound : records.word n < 2 ^ 64) :
    ptdsDeleteWord va stop n (records, supply) =
      if va ≤ ptds2va (records.word n) ∧ runEnd (records.word n) ≠ 0 ∧
          runEnd (records.word n) ≤ stop then
        some (records.set n 0, supply)
      else if runEnd (records.word n) = 0 ∨ stop < runEnd (records.word n) then
        if va = ptds2va (records.word n) then
          some (records.set n (cutFront (records.word n) stop), supply)
        else if ptds2va (records.word n) < va then
          (ptdsPtedAdd records (cutFront (records.word n) stop) supply).map
            fun (after, supply) =>
              (after.set n ((after.word n + ptds2size (records.word n)) % 2 ^ 64), supply)
        else some (records, supply)
      else some (records, supply) := by
  obtain ⟨covered, apart, beyond⟩ := runLast_compare range bound
  simp only [ptdsDeleteWord, covered, apart, beyond, and_false, if_false]
  grind

end Word

/-! ## Words fade -/

/-- What may happen to the words of a list besides the run that is being cut: a word stays
as it is or describes nothing any more, and pages of such words come behind. -/
structure Fades (records after : Records) : Prop where
  longer : records.size ≤ after.size
  old : ∀ n < records.size, after.word n = records.word n ∨ Blank (after.word n)
  new : ∀ n, records.size ≤ n → n < after.size → Blank (after.word n)

theorem Fades.refl (records : Records) : Fades records records where
  longer := Nat.le_refl _
  old _ _ := .inl rfl
  new _ high low := absurd low (Nat.not_lt.mpr high)

theorem Fades.trans {first second third : Records} (early : Fades first second)
    (late : Fades second third) : Fades first third where
  longer := Nat.le_trans early.longer late.longer
  old n low := by
    rcases late.old n (Nat.lt_of_lt_of_le low early.longer) with same | blank
    · rw [same]
      exact early.old n low
    · exact .inr blank
  new n high low := by
    by_cases middle : n < second.size
    · rcases late.old n middle with same | blank
      · rw [same]
        exact early.new n high middle
      · exact blank
    · exact late.new n (Nat.not_lt.mp middle) low

@[simp] theorem size_set (records : Records) (n value : Nat) :
    (records.set n value).size = records.size := rfl

theorem size_congr {first second : Records} (same : first.behind = second.behind) :
    first.size = second.size := by
  simp only [Records.size, Records.pages, same]

theorem word_set (records : Records) (n value i : Nat) :
    (records.set n value).word i = if i = n then value else records.word i := by
  simp [Records.set, Function.update_apply]

theorem Fades.set {records : Records} {value : Nat} (n : Nat) (blank : Blank value) :
    Fades records (records.set n value) where
  longer := Nat.le_refl _
  old i _ := by
    rw [word_set]
    split
    · exact .inr blank
    · exact .inl rfl
  new i high low := absurd low (Nat.not_lt.mpr high)

theorem Records.Words.set {records : Records} (words : records.Words) (n : Nat) {value : Nat}
    (bound : value < 2 ^ 64) : (records.set n value).Words := by
  intro i
  rw [word_set]
  split
  · exact bound
  · exact words i

/-- The address of a page, taken as a record, describes nothing. -/
theorem blank_page (page : Page) : Blank page := by
  have aligned := page.2.bounds
  right
  rw [ptds2size_eq]
  omega

theorem blank_novalue : Blank novalue := .inl rfl

section Add

variable {records after : Records} {content : Nat} {supply rest : List Page}

/-- Adding a record that describes nothing takes records away, if anything. -/
theorem Fades.add (added : ptdsPtedAdd records content supply = some (after, rest))
    (blank : Blank content) : Fades records after := by
  unfold ptdsPtedAdd at added
  split at added
  · next n found =>
     split at added
     · cases added
       exact .set n blank
     · cases supply with
       | nil => cases added
       | cons next supply =>
         cases added
         exact (Fades.set n (blank_page next)).trans (.set _ blank)
  · cases supply with
    | nil => cases added
    | cons next supply =>
      cases added
      refine Fades.trans ⟨?_, fun n low => .inl (if_pos low), fun n high low => ?_⟩
        (.set _ blank)
      · exact Nat.mul_le_mul_left _ (Nat.le_succ _)
      · dsimp only
        rw [if_neg (Nat.not_lt.mpr high)]
        exact blank_novalue

theorem Records.Words.add (words : records.Words)
    (added : ptdsPtedAdd records content supply = some (after, rest))
    (bound : content < 2 ^ 64) : after.Words := by
  have small (page : Page) : page.val < 2 ^ 64 := by
    have physical := page.2.bounds
    omega
  unfold ptdsPtedAdd at added
  split at added
  · next n found =>
     split at added
     · cases added
       exact words.set n bound
     · cases supply with
       | nil => cases added
       | cons next supply =>
         cases added
         exact (words.set n (small next)).set _ bound
  · cases supply with
    | nil => cases added
    | cons next supply =>
      cases added
      refine Records.Words.set (fun n => ?_) _ bound
      dsimp only
      split
      · exact words n
      · decide

/-- A record that describes something is left alone, or overwritten with the new one. -/
theorem add_of_not_blank (added : ptdsPtedAdd records content supply = some (after, rest))
    {n : Nat} (low : n < records.size) (live : ¬Blank (records.word n)) :
    after.word n = records.word n ∨ after.word n = content := by
  unfold ptdsPtedAdd at added
  split at added
  · next i found =>
     obtain ⟨-, stops, -⟩ := firstSlot_eq_some.mp found
     have other : n ≠ i := by
       rintro rfl
       rw [Records.stops, Bool.or_eq_true, decide_eq_true_eq] at stops
       rcases stops with empty | header
       · exact live (.inl empty)
       · exact live (header ▸ blank_page records.header)
     split at added
     · cases added
       exact .inl (by simp [word_set, other])
     · cases supply with
       | nil => cases added
       | cons next supply =>
         cases added
         by_cases front : n = i / pageRecords * pageRecords
         · exact .inr (by simp [word_set, front])
         · exact .inl (by simp [word_set, front, other])
  · cases supply with
    | nil => cases added
    | cons next supply =>
      cases added
      by_cases front : n = pageRecords * records.behind
      · exact .inr (by simp [word_set, front])
      · exact .inl (by simp [word_set, front, low])

end Add

/-! ## The loop -/

section Scan

variable {va stop : Nat} {state after : Records × List Page} {Inv : Nat → Records × List Page → Prop}

theorem size_le_ptdsDeleteWord {n : Nat} (deleted : ptdsDeleteWord va stop n state = some after) :
    state.1.size ≤ after.1.size := by
  obtain ⟨records, supply⟩ := state
  unfold ptdsDeleteWord at deleted
  dsimp only at deleted
  split_ifs at deleted
  · cases deleted
    exact Nat.le_refl _
  · cases deleted
    exact Nat.le_refl _
  · cases deleted
    exact Nat.le_refl _
  · obtain ⟨⟨added, rest⟩, add, rfl⟩ := Option.map_eq_some_iff.mp deleted
    exact (Fades.add add (blank_cutFront _ _)).longer
  · cases deleted
    exact Nat.le_refl _

theorem ptdsDeletePage_invariant {page : Nat} (start : Inv (pageRecords * page) state)
    (inside : page < state.1.pages) (word : ∀ n here next, n < here.1.size → Inv n here →
      ptdsDeleteWord va stop n here = some next → Inv (n + 1) next)
    (deleted : ptdsDeletePage va stop page state = some after) :
    Inv (pageRecords * (page + 1)) after ∧ state.1.size ≤ after.1.size := by
  have pages : pageRecords * (page + 1) ≤ state.1.size := Nat.mul_le_mul_left _ inside
  rw [Nat.mul_succ] at pages ⊢
  unfold ptdsDeletePage at deleted
  generalize pageRecords = count at deleted pages start ⊢
  refine @foldlM_range_invariant _ _
    (fun i here => Inv (count * page + i) here ∧ state.1.size ≤ here.1.size)
    count _ _ ⟨start, Nat.le_refl _⟩ (fun i low here next held passed => ?_) deleted
  have room : count * page + i < state.1.size := by omega
  exact ⟨word _ here next (Nat.lt_of_lt_of_le room held.2) held.1 passed,
    Nat.le_trans held.2 (size_le_ptdsDeleteWord passed)⟩

theorem pages_le_of_size_le {records more : Records} (longer : records.size ≤ more.size) :
    records.pages ≤ more.pages := Nat.le_of_mul_le_mul_left longer (by decide)

/-- What every word keeps holds at the end, when at least the pages that were there have
been gone through. -/
theorem ptdsDeleteFrom_invariant {fuel page : Nat} (start : Inv (pageRecords * page) state)
    (inside : page < state.1.pages) (word : ∀ n here next, n < here.1.size → Inv n here →
      ptdsDeleteWord va stop n here = some next → Inv (n + 1) next)
    (deleted : ptdsDeleteFrom va stop fuel page state = some after) :
    ∃ n, state.1.size ≤ n ∧ Inv n after := by
  induction fuel generalizing page state with
  | zero => cases deleted
  | succ fuel ih =>
    obtain ⟨next, passed, rest⟩ := Option.bind_eq_some_iff.mp deleted
    obtain ⟨held, longer⟩ := ptdsDeletePage_invariant start inside word passed
    split at rest
    · next last =>
       cases rest
       exact ⟨_, by rw [last]; exact Nat.le_refl _, held⟩
    · next inner =>
       have more := pages_le_of_size_le longer
       obtain ⟨n, seen, holds⟩ := ih held (by omega) rest
       exact ⟨n, Nat.le_trans longer seen, holds⟩

/-- Words none of which fails, or makes the list longer, are gone through to the end. -/
theorem ptdsDeleteFrom_total {fuel page : Nat} (start : Inv (pageRecords * page) state)
    (inside : page < state.1.pages) (enough : state.1.pages ≤ fuel + page)
    (word : ∀ n here, n < here.1.size → Inv n here →
      ∃ next, ptdsDeleteWord va stop n here = some next ∧ Inv (n + 1) next ∧
        next.1.behind = here.1.behind) :
    ∃ after, ptdsDeleteFrom va stop fuel page state = some after ∧ Inv state.1.size after ∧
      after.1.behind = state.1.behind := by
  induction fuel generalizing page state with
  | zero => omega
  | succ fuel ih =>
    have pages : pageRecords * (page + 1) ≤ state.1.size := Nat.mul_le_mul_left _ inside
    have first : ∃ next, ptdsDeletePage va stop page state = some next ∧
        Inv (pageRecords * page + pageRecords) next ∧ next.1.behind = state.1.behind := by
      refine @foldlM_range_total _ _
        (fun i here => Inv (pageRecords * page + i) here ∧ here.1.behind = state.1.behind)
        pageRecords _ ⟨start, rfl⟩ (fun i low here held => ?_)
      have same : here.1.size = state.1.size := size_congr held.2
      rw [Nat.mul_succ] at pages
      obtain ⟨next, passed, holds, behind⟩ := word _ here (by omega) held.1
      exact ⟨next, passed, holds, behind.trans held.2⟩
    obtain ⟨next, first, held, same⟩ := first
    rw [← Nat.mul_succ] at held
    rw [ptdsDeleteFrom, first, Option.bind_some]
    by_cases last : page + 1 = state.1.pages
    · rw [if_pos last]
      exact ⟨next, rfl, by rw [Records.size, ← last]; exact held, same⟩
    · have pages : next.1.pages = state.1.pages := congrArg (· + 1) same
      rw [if_neg last]
      obtain ⟨after, rest, holds, behind⟩ := ih held (by omega) (by omega)
      refine ⟨after, rest, ?_, behind.trans same⟩
      rw [Records.size, ← pages]
      exact holds

end Scan

/-! ## Every deletion -/

/-- What can have become of a word: it describes nothing, it is the old one, or it is what
is made of a run that reaches beyond both ends of the range. -/
def Outcome (va stop word value : Nat) : Prop :=
  Blank value ∨ value = word ∨
    (Hole va stop word ∧ ¬Blank word ∧
      (value = (word + ptds2size word) % 2 ^ 64 ∨ value = cutFront word stop + ptds2size word))

/-- A list while `PTDS_delete` goes through it; `n` words have been seen. -/
structure Cutting (va stop : Nat) (records : Records) (n : Nat) (here : Records × List Page) :
    Prop where
  longer : records.size ≤ here.1.size
  words : here.1.Words
  old : ∀ i < records.size, Outcome va stop (records.word i) (here.1.word i)
  ahead : ∀ i, n ≤ i → i < records.size →
    here.1.word i = records.word i ∨ Blank (here.1.word i)
  new : ∀ i, records.size ≤ i → i < here.1.size → Blank (here.1.word i)

section Cutting

variable {va stop n : Nat} {records : Records} {here next : Records × List Page}

theorem Cutting.start (words : records.Words) (supply : List Page) :
    Cutting va stop records 0 (records, supply) where
  longer := Nat.le_refl _
  words := words
  old _ _ := .inr (.inl rfl)
  ahead _ _ _ := .inl rfl
  new _ high low := absurd low (Nat.not_lt.mpr high)

theorem Cutting.fade (cutting : Cutting va stop records n here) (fades : Fades here.1 next.1)
    (words : next.1.Words) : Cutting va stop records (n + 1) next where
  longer := Nat.le_trans cutting.longer fades.longer
  words := words
  old i low := by
    rcases fades.old i (Nat.lt_of_lt_of_le low cutting.longer) with same | blank
    · rw [same]
      exact cutting.old i low
    · exact .inl blank
  ahead i later low := by
    rcases fades.old i (Nat.lt_of_lt_of_le low cutting.longer) with same | blank
    · rw [same]
      exact cutting.ahead i (Nat.le_of_succ_le later) low
    · exact .inr blank
  new i high low := by
    by_cases middle : i < here.1.size
    · rcases fades.old i middle with same | blank
      · rw [same]
        exact cutting.new i high middle
      · exact blank
    · exact fades.new i (Nat.not_lt.mp middle) low

/-- Room for a size in the low bits of a word without one. -/
theorem add_size_lt {value : Nat} (word : Nat) (blank : ptds2size value = 0)
    (bound : value < 2 ^ 64) : value + ptds2size word < 2 ^ 64 := by
  have size := ptds2size_lt word
  rw [ptds2size_eq] at blank
  omega

/-- Only zero and the junk of `kalloc` are empty, and the junk has a size. -/
theorem blank_cases {word : Nat} (blank : Blank word) : word = novalue ∨ ptds2size word = 0 := by
  rcases blank with empty | none
  · rw [emptyRecord, Bool.or_eq_true, decide_eq_true_eq, decide_eq_true_eq] at empty
    rcases empty with rfl | junk
    · exact .inr rfl
    · exact .inl junk
  · exact .inr none

theorem Cutting.word (range : PageRange va stop) (outside : ¬InJunk va stop)
    (cutting : Cutting va stop records n here) (inside : n < here.1.size)
    (deleted : ptdsDeleteWord va stop n here = some next) :
    Cutting va stop records (n + 1) next := by
  obtain ⟨list, supply⟩ := here
  have words : list.Words := cutting.words
  rw [ptdsDeleteWord_eq supply range (words n)] at deleted
  split_ifs at deleted with covered beyond headed front
  · cases deleted
    exact cutting.fade (.set n (.inl rfl)) (words.set n (by decide))
  · cases deleted
    exact cutting.fade (.set n (blank_cutFront _ _)) (words.set n (cutFront_lt _ _))
  · obtain ⟨⟨added, rest⟩, add, rfl⟩ := Option.map_eq_some_iff.mp deleted
    have fades : Fades list added := .add add (blank_cutFront _ _)
    have bounds : added.Words := words.add add (cutFront_lt _ _)
    dsimp only
    by_cases blank : Blank (list.word n)
    · have none : ptds2size (list.word n) = 0 := by
        refine (blank_cases blank).resolve_left fun junk => outside ⟨?_, ?_⟩
        · rwa [junk] at front
        · rw [junk] at beyond
          exact beyond.resolve_left (by decide)
      have same : added.set n ((added.word n + ptds2size (list.word n)) % 2 ^ 64) = added := by
        rw [none, Nat.add_zero, Nat.mod_eq_of_lt (bounds n)]
        simp [Records.set]
      rw [same]
      exact cutting.fade fades bounds
    · have low : n < records.size := by
        by_contra high
        exact blank (cutting.new n (Nat.not_lt.mp high) inside)
      have same : list.word n = records.word n :=
        (cutting.ahead n (Nat.le_refl n) low).resolve_right blank
      have size : ptds2size (list.word n) ≠ 0 := fun none => blank (.inr none)
      have hole : Hole va stop (records.word n) := by
        rw [same] at front beyond size
        refine ⟨front, beyond.resolve_left ?_⟩
        rw [runEnd, pgsize_eq]
        omega
      have faded : Cutting va stop records (n + 1) (added, rest) := cutting.fade fades bounds
      refine ⟨faded.longer, bounds.set n (Nat.mod_lt _ (by decide)), fun i inner => ?_,
        fun i later inner => ?_, fun i high inner => ?_⟩
      · by_cases other : i = n
        · subst other
          refine .inr (.inr ⟨hole, same ▸ blank, ?_⟩)
          rw [word_set, if_pos rfl, ← same]
          rcases add_of_not_blank add inside blank with kept | replaced
          · rw [kept]
            exact .inl rfl
          · rw [replaced, Nat.mod_eq_of_lt
              (add_size_lt _ (ptds2size_cutFront _ _) (cutFront_lt _ _))]
            exact .inr rfl
        · rw [word_set, if_neg other]
          exact faded.old i inner
      · rw [word_set, if_neg (by omega)]
        exact faded.ahead i later inner
      · rw [word_set, if_neg (by omega)]
        exact faded.new i high inner
  · cases deleted
    exact cutting.fade (.refl _) words
  · cases deleted
    exact cutting.fade (.refl _) words

/-- What `PTDS_delete` makes of the words of a list. -/
theorem ptdsDelete_outcome (range : PageRange va stop) (outside : ¬InJunk va stop)
    (words : records.Words) {supply rest : List Page} {after : Records}
    (deleted : ptdsDelete records va stop supply = some (after, rest)) :
    (∀ i < records.size, Outcome va stop (records.word i) (after.word i)) ∧
      ∀ i, records.size ≤ i → i < after.size → Blank (after.word i) := by
  obtain ⟨n, -, cutting⟩ := ptdsDeleteFrom_invariant (Cutting.start words supply)
    (Nat.succ_pos _) (fun n here next inside cutting passed =>
      cutting.word range outside inside passed) deleted
  exact ⟨cutting.old, cutting.new⟩

end Cutting

/-! ## A deletion that is right -/

/-- Every run lies inside the range or apart from it. -/
def Records.Parted (records : Records) (va stop : Nat) : Prop :=
  ∀ n < records.size, ¬Blank (records.word n) →
    Within va stop (records.word n) ∨ Apart va stop (records.word n)

/-- No word but an empty one is a run of no pages at address zero. -/
def Records.Plain (records : Records) : Prop :=
  ∀ n < records.size, emptyRecord (records.word n) = false →
    ¬(ptds2va (records.word n) = 0 ∧ ptds2size (records.word n) = 0)

/-- What has become of a word that has been seen. -/
def Kept (va stop word value : Nat) : Prop :=
  ((Blank word ∨ Within va stop word) ∧ Blank value) ∨
    (¬Blank word ∧ ¬Within va stop word ∧ value = word)

/-- A list while `PTDS_delete` goes through it and does no harm. -/
structure Keeping (va stop : Nat) (records : Records) (n : Nat) (here : Records × List Page) :
    Prop where
  header : here.1.header = records.header
  behind : here.1.behind = records.behind
  words : here.1.Words
  seen : ∀ i < n, i < records.size → Kept va stop (records.word i) (here.1.word i)
  ahead : ∀ i, n ≤ i → here.1.word i = records.word i
  plain : 0 < va → ∀ i < records.size, here.1.word i ≠ records.header

section Keeping

variable {va stop n : Nat} {records : Records} {here : Records × List Page}

/-- The word that replaces an empty one is not the address of the list. -/
theorem cutFront_zero_ne_page (range : PageRange va stop) (page : Page) :
    cutFront 0 stop ≠ page := by
  have physical := page.2.bounds
  have whole := range.whole
  have low := range.low
  have top : maxva = 2 ^ 38 := rfl
  have none : subWord 0 0 = 0 := rfl
  have word : cutFront 0 stop = ((stop + 1) * 2 ^ 26) % 2 ^ 64 := by
    simp [cutFront, ptds2size, ptds2ppn, ptds2ub, none, ppn2ptds, ub2ptds, va2ptds,
      Nat.shiftLeft_eq]
  rw [word]
  rw [pgsize_eq] at whole
  omega

theorem Keeping.start (words : records.Words) (supply : List Page)
    (plain : 0 < va → records.Plain) : Keeping va stop records 0 (records, supply) where
  header := rfl
  behind := rfl
  words := words
  seen _ low := absurd low (Nat.not_lt_zero _)
  ahead _ _ := rfl
  plain positive i low same := by
    have page := records.header.2.bounds
    have live : emptyRecord (records.word i) = false := by
      rw [same, emptyRecord, novalue]
      simp
      omega
    refine plain positive i low live ⟨?_, ?_⟩
    · rw [same, ptds2va_eq (by omega)]
      omega
    · rw [same, ptds2size_eq]
      omega

/-- One word becomes one that describes nothing, the words from the next one on stay. -/
theorem Keeping.set (keeping : Keeping va stop records n here) {value : Nat} (supply : List Page)
    (blank : Blank value) (bound : value < 2 ^ 64) (other : 0 < va → value ≠ records.header)
    (gone : Blank (records.word n) ∨ Within va stop (records.word n)) :
    Keeping va stop records (n + 1) (here.1.set n value, supply) where
  header := keeping.header
  behind := keeping.behind
  words := keeping.words.set n bound
  seen i low inside := by
    rw [word_set]
    split
    · next same => exact .inl ⟨same ▸ gone, blank⟩
    · exact keeping.seen i (by omega) inside
  ahead i high := by
    rw [word_set, if_neg (by omega)]
    exact keeping.ahead i (by omega)
  plain positive i inside := by
    rw [word_set]
    split
    · exact other positive
    · exact keeping.plain positive i inside

theorem Keeping.skip (keeping : Keeping va stop records n here)
    (stays : ¬Within va stop (records.word n)) : Keeping va stop records (n + 1) here where
  header := keeping.header
  behind := keeping.behind
  words := keeping.words
  seen i low inside := by
    by_cases same : i = n
    · subst same
      rw [keeping.ahead i (Nat.le_refl i)]
      by_cases blank : Blank (records.word i)
      · exact .inl ⟨.inl blank, blank⟩
      · exact .inr ⟨blank, stays, rfl⟩
    · exact keeping.seen i (by omega) inside
  ahead i high := keeping.ahead i (by omega)
  plain := keeping.plain

/-- A record is added at the first empty word, when none before it is the address of the
list. -/
theorem add_of_empty {content : Nat} {supply : List Page} (inside : n < records.size)
    (empty : emptyRecord (records.word n) = true)
    (other : ∀ i < records.size, records.word i ≠ records.header) :
    ∃ i ≤ n, emptyRecord (records.word i) = true ∧
      ptdsPtedAdd records content supply = some (records.set i content, supply) := by
  have stops : records.stops n = true := by simp [Records.stops, empty]
  obtain ⟨i, found⟩ : ∃ i, firstSlot records.stops records.size = some i := by
    refine Option.ne_none_iff_exists'.mp fun none => ?_
    have missed := firstSlot_eq_none.mp none n inside
    exact absurd stops (by simp [missed])
  obtain ⟨low, here, before⟩ := firstSlot_eq_some.mp found
  have first : i ≤ n := by
    by_contra later
    have missed := before n (Nat.not_le.mp later)
    exact absurd stops (by simp [missed])
  have free : emptyRecord (records.word i) = true := by
    simpa [Records.stops, other i low] using here
  refine ⟨i, first, free, ?_⟩
  unfold ptdsPtedAdd
  split
  · next other same =>
     obtain rfl := Option.some.inj (same.symm.trans found)
     rw [if_pos free]
  · next none => exact absurd (none.symm.trans found) (Option.some_ne_none i).symm

/-- An empty word in front of the range is filled up. -/
theorem Keeping.add (range : PageRange va stop) (positive : 0 < va)
    (keeping : Keeping va stop records n here) (inside : n < records.size)
    (zero : records.word n = 0) :
    ∃ added rest, ptdsPtedAdd here.1 (cutFront 0 stop) here.2 = some (added, rest) ∧
      Keeping va stop records (n + 1) (added, rest) := by
  have size : here.1.size = records.size := size_congr keeping.behind
  have empty : emptyRecord (here.1.word n) = true := by
    rw [keeping.ahead n (Nat.le_refl n), zero]
    rfl
  have other : ∀ i < here.1.size, here.1.word i ≠ here.1.header := by
    rw [size, keeping.header]
    exact keeping.plain positive
  obtain ⟨i, first, free, added⟩ :=
    @add_of_empty n here.1 (cutFront 0 stop) here.2 (size ▸ inside) empty other
  have blank := blank_cutFront 0 stop
  refine ⟨_, _, added, keeping.header, keeping.behind, keeping.words.set i (cutFront_lt _ _),
    fun k low inner => ?_, fun k high => ?_, fun _ k inner => ?_⟩
  · rw [word_set]
    split
    · next same =>
       subst same
       refine .inl ⟨?_, blank⟩
       by_cases here' : k = n
       · exact .inl (.inl (by rw [here', zero]; rfl))
       · rcases keeping.seen k (by omega) inner with ⟨gone, -⟩ | ⟨live, -, same⟩
         · exact gone
         · exact .inl (same ▸ .inl free)
    · by_cases here' : k = n
      · rw [here', keeping.ahead n (Nat.le_refl n), zero]
        exact .inl ⟨.inl (.inl rfl), .inl rfl⟩
      · exact keeping.seen k (by omega) inner
  · rw [word_set, if_neg (by omega)]
    exact keeping.ahead k (by omega)
  · rw [word_set]
    split
    · exact cutFront_zero_ne_page range records.header
    · exact keeping.plain positive k inner

theorem Keeping.word_blank (range : PageRange va stop) (outside : ¬InJunk va stop)
    (plain : 0 < va → records.Plain) (keeping : Keeping va stop records n here)
    (inside : n < records.size) (blank : Blank (records.word n))
    (uncovered : ¬(va ≤ ptds2va (records.word n) ∧ runEnd (records.word n) ≠ 0 ∧
      runEnd (records.word n) ≤ stop)) :
    ∃ next, ptdsDeleteWord va stop n here = some next ∧ Keeping va stop records (n + 1) next ∧
      next.1.behind = here.1.behind := by
  obtain ⟨list, supply⟩ := here
  have words : list.Words := keeping.words
  have same : list.word n = records.word n := keeping.ahead n (Nat.le_refl n)
  have nonempty := range.nonempty
  have low := range.low
  have junk : ptds2va novalue = 0x141414000 := rfl
  have junkEnd : runEnd novalue = 0x141519000 := rfl
  have short (none : ptds2size (records.word n) = 0) :
      runEnd (records.word n) = ptds2va (records.word n) := by
    rw [runEnd, none, Nat.zero_mul, Nat.add_zero]
  rw [ptdsDeleteWord_eq supply range (words n), same, if_neg uncovered]
  split_ifs with beyond headed front
  · have high : 0 < va → cutFront (records.word n) stop ≠ records.header := by
      intro positive page
      have physical := records.header.2.bounds
      have aligned := range.whole
      have top : maxva = 2 ^ 38 := rfl
      have short' := blank_cases blank
      have low' : stop < maxva := by
        rcases short' with word | none
        · rw [word, junkEnd] at beyond
          omega
        · have equal := short none
          omega
      have address := @le_ptds2va_cutFront (records.word n) stop aligned low'
      rw [page, ptds2va_eq (by omega)] at address
      omega
    exact ⟨_, rfl, keeping.set supply (blank_cutFront _ _) (cutFront_lt _ _) high (.inl blank), rfl⟩
  · have positive : 0 < va := by omega
    have none : ptds2size (records.word n) = 0 := by
      refine (blank_cases blank).resolve_left fun word => outside ⟨?_, ?_⟩
      · rwa [word] at front
      · rw [word, junkEnd] at beyond
        rw [junkEnd]
        omega
    have equal := short none
    have zero : records.word n = 0 := by
      have empty : emptyRecord (records.word n) = true := by
        by_contra live
        exact plain positive n inside (by simpa using live) ⟨by omega, none⟩
      rw [emptyRecord, Bool.or_eq_true, decide_eq_true_eq, decide_eq_true_eq] at empty
      refine empty.resolve_right fun word => ?_
      rw [word] at none
      revert none
      decide
    obtain ⟨added, rest, add, kept⟩ := keeping.add range positive inside zero
    have unchanged : added.set n ((added.word n + ptds2size (records.word n)) % 2 ^ 64) = added := by
      rw [none, Nat.add_zero, Nat.mod_eq_of_lt (kept.words n)]
      simp [Records.set]
    refine ⟨(added, rest), ?_, kept, kept.behind.trans keeping.behind.symm⟩
    rw [zero] at unchanged ⊢
    rw [add, Option.map_some]
    dsimp only
    rw [unchanged]
  · refine ⟨_, rfl, keeping.skip fun within => ?_, rfl⟩
    have start : ptds2va (records.word n) ≤ runEnd (records.word n) := Nat.le_add_right _ _
    have first := within.1
    have back := within.2
    omega
  · refine ⟨_, rfl, keeping.skip fun within => uncovered ⟨within.1, ?_, within.2⟩, rfl⟩
    omega

theorem Keeping.word_live (range : PageRange va stop) (parted : records.Parted va stop)
    (keeping : Keeping va stop records n here) (inside : n < records.size)
    (live : ¬Blank (records.word n))
    (uncovered : ¬(va ≤ ptds2va (records.word n) ∧ runEnd (records.word n) ≠ 0 ∧
      runEnd (records.word n) ≤ stop)) :
    ∃ next, ptdsDeleteWord va stop n here = some next ∧ Keeping va stop records (n + 1) next ∧
      next.1.behind = here.1.behind := by
  obtain ⟨list, supply⟩ := here
  have words : list.Words := keeping.words
  have same : list.word n = records.word n := keeping.ahead n (Nat.le_refl n)
  have nonempty := range.nonempty
  have size : ptds2size (records.word n) ≠ 0 := fun none => live (.inr none)
  have long : ptds2va (records.word n) < runEnd (records.word n) := by
    rw [runEnd, pgsize_eq]
    omega
  have stays : ¬Within va stop (records.word n) := by
    rintro ⟨front, back⟩
    exact uncovered ⟨front, by omega, back⟩
  have beside : ¬((runEnd (records.word n) = 0 ∨ stop < runEnd (records.word n)) ∧
      ptds2va (records.word n) ≤ va) := by
    rcases (parted n inside live).resolve_left stays with before | behind <;> omega
  refine ⟨(list, supply), ?_, keeping.skip stays, rfl⟩
  rw [ptdsDeleteWord_eq supply range (words n), same, if_neg uncovered]
  split_ifs with beyond headed front
  · exact absurd ⟨beyond, headed.ge⟩ beside
  · exact absurd ⟨beyond, front.le⟩ beside
  · rfl
  · rfl

/-- One word of the loop, when every run lies inside the range or apart from it. -/
theorem Keeping.word (range : PageRange va stop) (outside : ¬InJunk va stop)
    (parted : records.Parted va stop) (plain : 0 < va → records.Plain)
    (keeping : Keeping va stop records n here) (inside : n < records.size) :
    ∃ next, ptdsDeleteWord va stop n here = some next ∧ Keeping va stop records (n + 1) next ∧
      next.1.behind = here.1.behind := by
  by_cases covered : va ≤ ptds2va (records.word n) ∧ runEnd (records.word n) ≠ 0 ∧
      runEnd (records.word n) ≤ stop
  · obtain ⟨list, supply⟩ := here
    have words : list.Words := keeping.words
    have same : list.word n = records.word n := keeping.ahead n (Nat.le_refl n)
    have page := records.header.2.bounds
    rw [ptdsDeleteWord_eq supply range (words n), same, if_pos covered]
    exact ⟨_, rfl, keeping.set supply (.inl rfl) (by decide) (fun _ => by omega)
      (.inr ⟨covered.1, covered.2.2⟩), rfl⟩
  · by_cases blank : Blank (records.word n)
    · exact keeping.word_blank range outside plain inside blank covered
    · exact keeping.word_live range parted inside blank covered

/-- `PTDS_delete` deletes the runs inside the range and no others. -/
theorem ptdsDelete_kept (range : PageRange va stop) (outside : ¬InJunk va stop)
    (words : records.Words) (parted : records.Parted va stop) (plain : 0 < va → records.Plain)
    (supply : List Page) :
    ∃ after rest, ptdsDelete records va stop supply = some (after, rest) ∧
      after.size = records.size ∧
      ∀ i < records.size, Kept va stop (records.word i) (after.word i) := by
  obtain ⟨⟨after, rest⟩, deleted, keeping, behind⟩ := ptdsDeleteFrom_total
    (Keeping.start words supply plain) (Nat.succ_pos _) (Nat.le_add_right _ supply.length)
    (fun n here low keeping => by
      rw [size_congr keeping.behind] at low
      exact keeping.word range outside parted plain low)
  exact ⟨after, rest, deleted, size_congr behind, fun i low => keeping.seen i low low⟩

end Keeping

end Ev6.PageTable
