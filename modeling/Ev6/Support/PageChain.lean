import Ev6.Support.Loop
import Mathlib.Data.List.Range
import Mathlib.Data.List.Nodup
import Mathlib.Logic.Function.Basic

/-!
# Chains of pages

A page is an array of words. A chain is a list of pages, each of which names the
next one in its last word; the last page names the first again. The words before
the link are the slots of the chain.
-/

namespace Ev6.Support

universe u

/-- Memory read page by page: the words of the page at each address. -/
abbrev PageMemory (Word : Type u) := Word → Nat → Word

variable {Word : Type u}

/-- The slots of one page. -/
def row (last : Nat) (page : Word) : List (Word × Nat) :=
  (List.range last).map (page, ·)

/-- The slots of the pages in order. -/
def slots (last : Nat) (pages : List Word) : List (Word × Nat) :=
  pages.flatMap (row last)

variable {last : Nat} {page : Word} {slot : Word × Nat}

@[simp] theorem mem_row : slot ∈ row last page ↔ slot.1 = page ∧ slot.2 < last := by
  obtain ⟨owner, index⟩ := slot
  simp [row, and_comm, eq_comm]

variable {pages : List Word}

@[simp] theorem mem_slots : slot ∈ slots last pages ↔ slot.1 ∈ pages ∧ slot.2 < last := by
  simp [slots]

@[simp] theorem slots_nil (last : Nat) : slots last ([] : List Word) = [] := rfl

@[simp] theorem slots_cons (last : Nat) (page : Word) (pages : List Word) :
    slots last (page :: pages) = row last page ++ slots last pages := by
  simp [slots]

@[simp] theorem slots_append (last : Nat) (front back : List Word) :
    slots last (front ++ back) = slots last front ++ slots last back := by
  simp [slots]

/-- Where a scan of one page stops. -/
theorem find?_row_eq_some {test : Word × Nat → Bool} :
    (row last page).find? test = some slot ↔ slot.1 = page ∧ slot.2 < last ∧
      test slot = true ∧ ∀ earlier < slot.2, test (page, earlier) = false := by
  obtain ⟨owner, index⟩ := slot
  rw [row, List.find?_map, Option.map_eq_some_iff]
  constructor
  · rintro ⟨position, found, same⟩
    cases same
    obtain ⟨holds, inside, before⟩ := List.find?_range_eq_some.mp found
    exact ⟨rfl, List.mem_range.mp inside, holds, fun earlier low => by simpa using before earlier low⟩
  · rintro ⟨rfl, inside, holds, before⟩
    exact ⟨index, List.find?_range_eq_some.mpr
      ⟨holds, List.mem_range.mpr inside, fun earlier low => by simpa using before earlier low⟩, rfl⟩

/-- A scan of one page that finds nothing. -/
theorem find?_row_eq_none {test : Word × Nat → Bool} :
    (row last page).find? test = none ↔ ∀ index < last, test (page, index) = false := by
  simp [row]

/-- A scan of some pages has passed the earlier words of the page where it stops. -/
theorem find?_slots_before {test : Word × Nat → Bool}
    (found : (slots last pages).find? test = some slot) :
    ∀ earlier < slot.2, test (slot.1, earlier) = false := by
  induction pages with
  | nil => cases found
  | cons page pages ih =>
    rw [slots_cons, List.find?_append, Option.or_eq_some_iff] at found
    rcases found with here | ⟨-, later⟩
    · obtain ⟨same, -, -, before⟩ := find?_row_eq_some.mp here
      rw [same]
      exact before
    · exact ih later

theorem nodup_row (last : Nat) (page : Word) : (row last page).Nodup := by
  refine List.Nodup.map ?_ List.nodup_range
  intro first second same
  exact (Prod.ext_iff.mp same).2

/-- Distinct pages have distinct slots. -/
theorem nodup_slots (distinct : pages.Nodup) : (slots last pages).Nodup := by
  induction pages with
  | nil => simp
  | cons page pages ih =>
    obtain ⟨fresh, rest⟩ := List.nodup_cons.mp distinct
    rw [slots_cons]
    refine (nodup_row last page).append (ih rest) ?_
    intro slot inPage inRest
    rw [mem_row] at inPage
    rw [mem_slots] at inRest
    exact fresh (inPage.1 ▸ inRest.1)

/-- The words in a list of slots. -/
def contents (memory : PageMemory Word) (places : List (Word × Nat)) : List Word :=
  places.map fun slot => memory slot.1 slot.2

/-- The link of each page names the next page, that of the last page names `home`. -/
def Linked (memory : PageMemory Word) (last : Nat) (home : Word) : List Word → Prop
  | [] => True
  | [page] => memory page last = home
  | page :: next :: rest => memory page last = next ∧ Linked memory last home (next :: rest)

/-- The pages reached from `home` by following the links, each once, with the
last one pointing back. -/
structure Chain (memory : PageMemory Word) (last : Nat) (home : Word) (pages : List Word) :
    Prop where
  first : pages.head? = some home
  once : pages.Nodup
  linked : Linked memory last home pages

variable {after memory : PageMemory Word} {home : Word}

/-- Links that agree give the same chain. -/
theorem Linked.congr (linked : Linked memory last home pages)
    (same : ∀ page ∈ pages, after page last = memory page last) : Linked after last home pages := by
  induction pages with
  | nil => trivial
  | cons page pages ih =>
    have here := same page List.mem_cons_self
    have behind := fun other member => same other (List.mem_cons_of_mem page member)
    cases pages with
    | nil => exact here.trans linked
    | cons next rest => exact ⟨here.trans linked.1, ih linked.2 behind⟩

variable {front : List Word}

/-- A new last page. -/
theorem Linked.extend {fresh : Word}
    {final : Word} (linked : Linked memory last home (front ++ [final]))
    (same : ∀ page ∈ front, after page last = memory page last)
    (link : after final last = fresh) (back : after fresh last = home) :
    Linked after last home (front ++ [final, fresh]) := by
  induction front with
  | nil => exact ⟨link, back⟩
  | cons page front ih =>
    have here := same page List.mem_cons_self
    have behind := fun other member => same other (List.mem_cons_of_mem page member)
    cases front with
    | nil => exact ⟨here.trans linked.1, link, back⟩
    | cons next rest => exact ⟨here.trans linked.1, ih linked.2 behind⟩

/-- Every link names a page of the chain. -/
theorem Linked.mem (linked : Linked memory last home pages) (member : page ∈ pages) :
    memory page last = home ∨ memory page last ∈ pages := by
  induction pages with
  | nil => cases member
  | cons first pages ih =>
    cases pages with
    | nil =>
      obtain rfl : page = first := List.mem_singleton.mp member
      exact .inl linked
    | cons next rest =>
      rcases List.mem_cons.mp member with rfl | behind
      · exact .inr (by simp [linked.1])
      · exact (ih linked.2 behind).imp_right (List.mem_cons_of_mem first)

/-- The link of the last page names `home`. -/
theorem Linked.final {final : Word} (linked : Linked memory last home (front ++ [final])) :
    memory final last = home := by
  induction front with
  | nil => exact linked
  | cons page front ih =>
    cases front with
    | nil => exact linked.2
    | cons next rest => exact ih linked.2

/-- The link of a page that is not the last one names the next page. -/
theorem Linked.next {next : Word}
    {back : List Word} (linked : Linked memory last home (front ++ page :: next :: back)) :
    memory page last = next := by
  induction front with
  | nil => exact linked.1
  | cons first front ih =>
    cases front with
    | nil => exact linked.2.1
    | cons second rest => exact ih linked.2

/-- A chain has a last page. -/
theorem Chain.final
    (chain : Chain memory last home pages) : ∃ front final, pages = front ++ [final] := by
  rcases List.eq_nil_or_concat pages with rfl | ⟨front, final, rfl⟩
  · cases chain.first
  · exact ⟨front, final, List.concat_eq_append⟩

/-- Links that agree give the same chain. -/
theorem Chain.congr (chain : Chain memory last home pages)
    (same : ∀ page ∈ pages, after page last = memory page last) : Chain after last home pages :=
  ⟨chain.first, chain.once, chain.linked.congr same⟩

section Write

variable [DecidableEq Word]

/-- Store one word of one page. -/
def PageMemory.write (memory : PageMemory Word) (page : Word) (index : Nat) (value : Word) :
    PageMemory Word :=
  Function.update memory page (Function.update (memory page) index value)

/-- Reading the word that was stored, or another one. -/
theorem PageMemory.write_apply (memory : PageMemory Word) (page : Word) (index : Nat)
    (value : Word) (other : Word) (position : Nat) :
    memory.write page index value other position =
      if other = page ∧ position = index then value else memory other position := by
  by_cases here : other = page
  · subst here
    by_cases same : position = index
    · subst same
      simp [PageMemory.write]
    · simp [PageMemory.write, same]
  · simp [PageMemory.write, here]

@[simp] theorem PageMemory.write_self (memory : PageMemory Word) (page : Word) (index : Nat)
    (value : Word) : memory.write page index value page index = value := by
  simp [PageMemory.write_apply]

theorem PageMemory.write_of_page_ne (memory : PageMemory Word) {page other : Word} (index : Nat)
    (value : Word) (different : other ≠ page) :
    memory.write page index value other = memory other := by
  simp [PageMemory.write, different]

variable {index : Nat}

theorem PageMemory.write_of_index_ne (memory : PageMemory Word) (page other : Word)
    {position : Nat} (value : Word) (different : position ≠ index) :
    memory.write page index value other position = memory other position := by
  simp [PageMemory.write_apply, different]

/-- A store elsewhere leaves the words alone. -/
theorem contents_write_of_not_mem (memory : PageMemory Word) {places : List (Word × Nat)}
    {page : Word} (value : Word) (outside : (page, index) ∉ places) :
    contents (memory.write page index value) places = contents memory places := by
  refine List.map_congr_left fun slot member => ?_
  have other : ¬(slot.1 = page ∧ slot.2 = index) := by
    rintro ⟨rfl, rfl⟩
    exact outside member
  simp [PageMemory.write_apply, other]

/-- A store to one of a list of distinct slots changes the word there. -/
theorem contents_write_split {memory : PageMemory Word} {before after : List (Word × Nat)}
    {slot : Word × Nat} (distinct : (before ++ slot :: after).Nodup) (value : Word) :
    contents (memory.write slot.1 slot.2 value) (before ++ slot :: after) =
      contents memory before ++ value :: contents memory after := by
  obtain ⟨page, index⟩ := slot
  obtain ⟨fresh, -⟩ := List.nodup_middle.mp distinct |> List.nodup_cons.mp
  obtain ⟨notBefore, notAfter⟩ : (page, index) ∉ before ∧ (page, index) ∉ after := by
    simpa using fresh
  have front := contents_write_of_not_mem memory value notBefore
  have back := contents_write_of_not_mem memory value notAfter
  simp only [contents, List.map_append, List.map_cons, PageMemory.write_self] at front back ⊢
  rw [front, back]

/-- Storing a slot keeps the chain. -/
theorem Chain.write {memory : PageMemory Word} {last : Nat} {home : Word} {pages : List Word}
    (chain : Chain memory last home pages) (page : Word) (value : Word)
    (slot : index < last) : Chain (memory.write page index value) last home pages :=
  chain.congr fun other _ => memory.write_of_index_ne page other value (Nat.ne_of_gt slot)

end Write

end Ev6.Support
