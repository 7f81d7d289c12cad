import Ev6.PageTable.Encoding
import Ev6.PageTable.Unmapping
import Ev6.Support.Tally

/-!
# The mappings of a process

What the records of a process describe, each page as often as it is described, and what
`PTDS_PTED_add` and `PTDS_delete` make of it.
-/

namespace Ev6.PageTable

open Support

/-! ## Mappings -/

/-- The pages of a word of a PTDS list. -/
def runPages (word : Nat) : Multiset Mapping :=
  if emptyRecord word then 0 else (Multiset.range (ptds2size word)).map (runMapping word)

/-- The page of a word of a PTED list. -/
def entryPages (word : Nat) : Multiset Mapping :=
  if emptyRecord word then 0 else {entryMapping word}

/-- The pages of a list. -/
def Records.describe (view : Nat → Multiset Mapping) (records : Records) : Multiset Mapping :=
  ∑ n ∈ Finset.range records.size, view (records.word n)

/-- The pages of both lists of a process. -/
def PtdupHead.mappings (head : PtdupHead) : Multiset Mapping :=
  head.l0Ptds.elim 0 (Records.describe runPages) + head.l0Pted.elim 0 (Records.describe entryPages)

/-- Each page is described once. -/
def Once (mappings : Multiset Mapping) : Prop :=
  ∀ va, mappings.countP (fun mapping => mapping.va = va) ≤ 1

/-- The number of free slots of a list. -/
def Records.room (records : Records) : Nat :=
  countSlots (fun n => emptyRecord (records.word n)) records.size

/-- No slot holds the address of the list, which would be taken for the link of the last
page. -/
def Records.Unlinked (records : Records) : Prop :=
  ∀ n < records.size, records.word n ≠ records.header

section Lists

variable {records after : Records} {view : Nat → Multiset Mapping} {n content : Nat}
  {supply rest : List Page}

theorem runPages_of_blank {word : Nat} (blank : Blank word) : runPages word = 0 := by
  rcases blank with empty | none
  · exact if_pos empty
  · simp [runPages, none]

theorem entryPages_of_empty {word : Nat} (empty : emptyRecord word = true) : entryPages word = 0 :=
  if_pos empty

theorem entryPages_of_live {word : Nat} (live : emptyRecord word = false) :
    entryPages word = {entryMapping word} := by
  simp [entryPages, live]

theorem mem_describe {mapping : Mapping} :
    mapping ∈ records.describe view ↔ ∃ n < records.size, mapping ∈ view (records.word n) := by
  simp [Records.describe, Multiset.mem_sum]

theorem describe_set (low : n < records.size) (value : Nat) :
    (records.set n value).describe view + view (records.word n) =
      records.describe view + view value := by
  have sums : ∑ i ∈ Finset.range records.size, view ((records.set n value).word i) +
      view (records.word n) =
        ∑ i ∈ Finset.range records.size, view (records.word i) +
          view ((records.set n value).word n) :=
    @sum_range_of_eq_off _ _ (fun i => view ((records.set n value).word i))
      (fun i => view (records.word i)) records.size n low fun i _ other => by
        rw [word_set, if_neg other]
  have stored : (records.set n value).word n = value := by rw [word_set, if_pos rfl]
  rw [stored] at sums
  exact sums

theorem card_entryPages (word : Nat) :
    Multiset.card (entryPages word) + (if emptyRecord word then 1 else 0) = 1 := by
  cases empty : emptyRecord word <;> simp [entryPages, empty]

/-- Every slot of a PTED list is free or describes one page. -/
theorem card_describe_entries (records : Records) :
    Multiset.card (records.describe entryPages) + records.room = records.size := by
  have along : ∀ size, Multiset.card (∑ n ∈ Finset.range size, entryPages (records.word n)) +
      countSlots (fun n => emptyRecord (records.word n)) size = size := by
    intro size
    induction size with
    | zero => rfl
    | succ size ih =>
      have last := card_entryPages (records.word size)
      rw [Finset.sum_range_succ, Multiset.card_add, countSlots_succ]
      omega
  exact along records.size

/-! ## Adding -/

theorem room_set (low : n < records.size) (free : emptyRecord (records.word n) = true)
    (live : emptyRecord content = false) : (records.set n content).room + 1 = records.room := by
  have tests : (fun i => emptyRecord ((records.set n content).word i)) =
      Function.update (fun i => emptyRecord (records.word i)) n false := by
    funext i
    rw [word_set, Function.update_apply]
    split
    · exact live
    · rfl
  rw [Records.room, tests]
  exact countSlots_update low free

theorem add_of_room (unlinked : records.Unlinked) (room : 0 < records.room)
    (live : emptyRecord content = false) (other : content ≠ records.header) :
    ∃ after, ptdsPtedAdd records content supply = some (after, supply) ∧
      after.header = records.header ∧ after.Unlinked ∧ after.room + 1 = records.room ∧
      after.describe entryPages = records.describe entryPages + entryPages content := by
  obtain ⟨n, inside, empty⟩ : ∃ n < records.size, emptyRecord (records.word n) = true := by
    by_contra none
    refine Nat.ne_of_gt room (countSlots_eq_zero.mpr fun i low => ?_)
    by_contra used
    exact none ⟨i, low, by simpa using used⟩
  obtain ⟨i, low, free, added⟩ := add_of_empty inside empty unlinked
  have place : i < records.size := Nat.lt_of_le_of_lt low inside
  refine ⟨_, added, rfl, fun k inner => ?_, room_set place free live, ?_⟩
  · rw [word_set]
    split
    · exact other
    · exact unlinked k inner
  · have sums := @describe_set records entryPages i place content
    rwa [entryPages_of_empty free, add_zero] at sums

/-- Without one a page is linked, and the record takes the place of another one. -/
theorem add_of_full (unlinked : records.Unlinked) (room : records.room = 0)
    (live : emptyRecord content = false) (other : content ≠ records.header)
    (added : ptdsPtedAdd records content supply = some (after, rest)) :
    after.header = records.header ∧ after.Unlinked ∧ 0 < after.room ∧
      Multiset.card (after.describe entryPages) = Multiset.card (records.describe entryPages) := by
  rw [Records.room] at room
  have full := countSlots_eq_zero.mp room
  have none : firstSlot records.stops records.size = none := by
    refine firstSlot_eq_none.mpr fun i low => ?_
    simp [Records.stops, full i low, unlinked i low]
  unfold ptdsPtedAdd at added
  split at added
  next i found => cases none.symm.trans found
  next =>
    cases supply with
    | nil => cases added
    | cons next supply =>
      cases added
      have old : pageRecords * records.behind < records.size :=
        Nat.mul_lt_mul_of_pos_left (Nat.lt_succ_self _) (by decide)
      let longer : Records :=
        { records with
          behind := records.behind + 1
          word := fun n => if n < records.size then records.word n else novalue }
      have size : longer.size = records.size + pageRecords := Nat.mul_succ _ _
      have tests : ∀ n, emptyRecord ((longer.set (pageRecords * records.behind) content).word n) =
          decide (records.size ≤ n) := by
        intro n
        rw [word_set]
        split
        next here => simp [here, live, Nat.not_le.mpr old]
        next =>
          by_cases low : n < records.size
          · simp [longer, low, full n low]
          · have junk : emptyRecord novalue = true := rfl
            simp [longer, low, junk, Nat.not_lt.mp low]
      have empty : (longer.set (pageRecords * records.behind) content).room = pageRecords := by
        have before : countSlots (fun n => decide (records.size ≤ n)) records.size = 0 :=
          countSlots_eq_zero.mpr fun n low => by simpa using low
        have behind : countSlots (fun n => decide (records.size ≤ records.size + n)) pageRecords =
            pageRecords := countSlots_all fun n _ => by simp
        rw [Records.room, size_set, size, funext tests, countSlots_add, before, behind,
          Nat.zero_add]
      change _ ∧ (longer.set (pageRecords * records.behind) content).Unlinked ∧
        0 < (longer.set (pageRecords * records.behind) content).room ∧
        Multiset.card ((longer.set (pageRecords * records.behind) content).describe entryPages) = _
      refine ⟨rfl, fun n low => ?_, empty.symm ▸ by decide, ?_⟩
      · change (longer.set (pageRecords * records.behind) content).word n ≠ records.header
        rw [word_set]
        split
        next => exact other
        next =>
          by_cases inside : n < records.size
          · simpa [longer, inside] using unlinked n inside
          · have page := records.header.2.bounds
            have junk : novalue ≠ records.header := by
              rw [novalue]
              omega
            simpa [longer, inside] using junk
      · have before := card_describe_entries records
        have behind := card_describe_entries (longer.set (pageRecords * records.behind) content)
        rw [empty, size_set, size] at behind
        rw [Records.room, room] at before
        omega

theorem card_add (unlinked : records.Unlinked) (live : emptyRecord content = false)
    (other : content ≠ records.header)
    (added : ptdsPtedAdd records content supply = some (after, rest)) :
    after.header = records.header ∧ after.Unlinked ∧
      (0 < records.room → after.room + 1 = records.room ∧
        Multiset.card (after.describe entryPages) =
          Multiset.card (records.describe entryPages) + 1) ∧
      (records.room = 0 → 0 < after.room ∧
        Multiset.card (after.describe entryPages) =
          Multiset.card (records.describe entryPages)) := by
  rcases Nat.eq_zero_or_pos records.room with none | some
  · obtain ⟨header, kept, room, card⟩ := add_of_full unlinked none live other added
    exact ⟨header, kept, fun some => absurd none (Nat.ne_of_gt some), fun _ => ⟨room, card⟩⟩
  · obtain ⟨found, again, header, kept, room, pages⟩ :=
      @add_of_room records content supply unlinked some live other
    obtain ⟨rfl, rfl⟩ := Prod.mk.inj (Option.some.inj (again.symm.trans added))
    refine ⟨header, kept, fun _ => ⟨room, ?_⟩, fun none => absurd none (Nat.ne_of_gt some)⟩
    rw [pages, Multiset.card_add, entryPages_of_live live, Multiset.card_singleton]

section Twice

variable {first second : Nat} (unlinked : records.Unlinked) (liveFirst : emptyRecord first = false)
  (liveSecond : emptyRecord second = false) (otherFirst : first ≠ records.header)
  (otherSecond : second ≠ records.header)

include unlinked liveFirst liveSecond otherFirst otherSecond

theorem add_twice (room : 2 ≤ records.room) :
    ∃ one two, ptdsPtedAdd records first supply = some (one, supply) ∧
      ptdsPtedAdd one second supply = some (two, supply) ∧
      two.describe entryPages =
        records.describe entryPages + entryPages first + entryPages second := by
  obtain ⟨one, added, header, kept, less, pages⟩ :=
    @add_of_room records first supply unlinked (by omega) liveFirst otherFirst
  obtain ⟨two, again, -, -, -, more⟩ :=
    @add_of_room one second supply kept (by omega) liveSecond (by rwa [header])
  exact ⟨one, two, added, again, by rw [more, pages]⟩

/-- Without room for two only one more is described. -/
theorem card_add_twice {one two : Records} {left : List Page}
    (added : ptdsPtedAdd records first supply = some (one, rest))
    (again : ptdsPtedAdd one second rest = some (two, left)) :
    Multiset.card (two.describe entryPages) =
      Multiset.card (records.describe entryPages) + if 2 ≤ records.room then 2 else 1 := by
  obtain ⟨header, kept, more, full⟩ := card_add unlinked liveFirst otherFirst added
  rw [← header] at otherSecond
  obtain ⟨-, -, moreAgain, fullAgain⟩ := card_add kept liveSecond otherSecond again
  rcases Nat.eq_zero_or_pos records.room with none | some
  · obtain ⟨room, card⟩ := full none
    have last := (moreAgain room).2
    rw [if_neg (by omega)]
    omega
  · obtain ⟨room, card⟩ := more some
    rcases Nat.eq_zero_or_pos one.room with noneLeft | left
    · have last := (fullAgain noneLeft).2
      rw [if_neg (by omega)]
      omega
    · have last := (moreAgain left).2
      rw [if_pos (by omega)]
      omega

end Twice

/-! ## Deleting -/

theorem lt_runEnd {word : Nat} (live : ¬Blank word) : ptds2va word < runEnd word := by
  have size : ptds2size word ≠ 0 := fun none => live (.inr none)
  rw [runEnd, pgsize_eq]
  omega

theorem not_within_of_apart {va stop word : Nat} (live : ¬Blank word)
    (apart : Apart va stop word) : ¬Within va stop word := by
  have long := lt_runEnd live
  rintro ⟨front, back⟩
  rcases apart with before | behind <;> omega

/-- `PTDS_delete` of the range of one run, when no other run meets it. -/
theorem describe_ptdsDelete {va stop t : Nat} (range : PageRange va stop) (outside : ¬InJunk va stop)
    (words : records.Words) (plain : 0 < va → records.Plain) (low : t < records.size)
    (within : Within va stop (records.word t))
    (others : ∀ n < records.size, n ≠ t → ¬Blank (records.word n) →
      Apart va stop (records.word n)) (supply : List Page) :
    ∃ after rest, ptdsDelete records va stop supply = some (after, rest) ∧
      after.describe runPages + runPages (records.word t) = records.describe runPages := by
  have parted : records.Parted va stop := by
    intro n inside live
    by_cases same : n = t
    · exact .inl (same ▸ within)
    · exact .inr (others n inside same live)
  obtain ⟨after, rest, deleted, size, kept⟩ :=
    ptdsDelete_kept range outside words parted plain supply
  refine ⟨after, rest, deleted, ?_⟩
  have gone : runPages (after.word t) = 0 := by
    rcases kept t low with ⟨-, blank⟩ | ⟨-, beyond, -⟩
    · exact runPages_of_blank blank
    · exact absurd within beyond
  have same : ∀ n < records.size, n ≠ t →
      runPages (after.word n) = runPages (records.word n) := by
    intro n inside different
    rcases kept n inside with ⟨cut, blank⟩ | ⟨-, -, word⟩
    · rw [runPages_of_blank blank]
      rcases cut with was | covered
      · rw [runPages_of_blank was]
      · by_cases live : Blank (records.word n)
        · rw [runPages_of_blank live]
        · -- A run that meets the range is the one that is deleted.
          exact absurd covered (not_within_of_apart live (others n inside different live))
    · rw [word]
  have sums := @sum_range_of_eq_off _ _ (fun n => runPages (after.word n))
    (fun n => runPages (records.word n)) records.size t low same
  rw [Records.describe, Records.describe, size, sums, gone, add_zero]

/-! ## Pages described once -/

/-- Different slots describe different pages, when each page is described once. -/
theorem va_ne_of_once (once : Once (records.describe view)) {t : Nat}
    (low : n < records.size) (other : t < records.size) (different : n ≠ t) {one two : Mapping}
    (inOne : one ∈ view (records.word n)) (inTwo : two ∈ view (records.word t)) :
    one.va ≠ two.va := by
  intro same
  have member : t ∈ (Finset.range records.size).erase n :=
    Finset.mem_erase.mpr ⟨different.symm, Finset.mem_range.mpr other⟩
  have few := once one.va
  rw [Records.describe, ← Finset.add_sum_erase _ _ (Finset.mem_range.mpr low),
    ← Finset.add_sum_erase _ _ member, Multiset.countP_add, Multiset.countP_add] at few
  have first : 0 < (view (records.word n)).countP fun mapping => mapping.va = one.va :=
    Multiset.countP_pos.mpr ⟨one, inOne, rfl⟩
  have second : 0 < (view (records.word t)).countP fun mapping => mapping.va = one.va :=
    Multiset.countP_pos.mpr ⟨two, inTwo, same.symm⟩
  omega

/-- A page inside a run is one of those it describes. -/
theorem exists_mem_runPages (words : records.Words) (low : n < records.size)
    (live : ¬Blank (records.word n)) {page : Nat} (aligned : page % pgsize = 0)
    (front : ptds2va (records.word n) ≤ page) (back : page < runEnd (records.word n)) :
    ∃ mapping ∈ runPages (records.word n), mapping.va = page := by
  obtain ⟨mapping, same, -, used, j, inside, rfl⟩ :=
    Records.runs_at low live words page aligned front back
  refine ⟨_, ?_, same⟩
  rw [runPages, if_neg (by simp [used])]
  exact Multiset.mem_map_of_mem _ (Multiset.mem_range.mpr inside)

/-- Runs lie apart when each page is described once. -/
theorem apart_of_once (once : Once (records.describe runPages))
    (words : records.Words) {t : Nat} (low : n < records.size) (other : t < records.size)
    (different : n ≠ t) (live : ¬Blank (records.word n)) (liveOther : ¬Blank (records.word t)) :
    Apart (ptds2va (records.word t)) (runEnd (records.word t)) (records.word n) := by
  by_contra meets
  have field := ptds2va_bounds (words n)
  have fieldOther := ptds2va_bounds (words t)
  rw [Apart, not_or] at meets
  have ends := lt_runEnd live
  have endsOther := lt_runEnd liveOther
  -- The later one of the two first pages lies in both runs.
  rcases Nat.le_total (ptds2va (records.word n)) (ptds2va (records.word t)) with before | behind
  · obtain ⟨one, inOne, vaOne⟩ := exists_mem_runPages words low live fieldOther.1 before
      (Nat.not_le.mp meets.1)
    obtain ⟨two, inTwo, vaTwo⟩ := exists_mem_runPages words other liveOther fieldOther.1
      (Nat.le_refl _) endsOther
    exact va_ne_of_once once low other different inOne inTwo (vaOne.trans vaTwo.symm)
  · obtain ⟨one, inOne, vaOne⟩ := exists_mem_runPages words low live field.1 (Nat.le_refl _) ends
    obtain ⟨two, inTwo, vaTwo⟩ := exists_mem_runPages words other liveOther field.1 behind
      (Nat.not_le.mp meets.2)
    exact va_ne_of_once once low other different inOne inTwo (vaOne.trans vaTwo.symm)

theorem describe_eq : records.describe view =
    ∑ n ∈ Finset.range records.size, view (records.word n) := rfl

end Lists

-- The sum over the words of a page is not to be unrolled.
attribute [irreducible] Records.describe

end Ev6.PageTable
