import Ev6.MList.PageTableScans
import Ev6.Support.Bits
import Ev6.Support.LabelledSystem
import Mathlib.Data.Multiset.Filter

/-!
# The page-table list as a registry

What the list is for: a multiset of registered tables, in which a broken address
is looked up. `registry_of_sound_run` proves it along every run whose steps all
meet `Sound`, and for every target that meets `Searchable`.
-/

namespace Ev6.MList.PageTables

open List (filter_append length_cons mem_cons mem_map mem_singleton)
open Multiset (filter_coe filter_congr filter_map map_cons mem_coe)
open Support
open PageMemory (write_apply)

/-! ## The fields of a node -/

variable {word : Nat}

theorem mlnode2pa_eq (bound : word < 2 ^ 64) : mlnode2pa word = word / pgsize * pgsize :=
  and_highMask bound (by decide)

theorem mlnode2pid_eq (word : Nat) : mlnode2pid word = word / 2 ^ 2 % 2 ^ 10 := by
  have mask : (0xFFD : Nat) >>> 2 = 2 ^ 10 - 1 := by decide
  rw [mlnode2pid, Nat.shiftRight_and_distrib, mask, Nat.and_two_pow_sub_one_eq_mod,
    Nat.shiftRight_eq_div_pow]

theorem TableNode.word_eq (node : TableNode) :
    node.word = node.table.val + (node.pid.val * 2 ^ 2 + node.level.val) := by
  have pid := node.pid.isLt
  have level := node.level.isLt
  have aligned : 2 ^ 12 ∣ node.table.val := Nat.dvd_of_mod_eq_zero node.table.property.1
  have shifted : pid2mlnode node.pid = node.pid.val * 2 ^ 2 := Nat.shiftLeft_eq _ _
  have low : 2 ^ 2 ∣ node.pid.val * 2 ^ 2 := Nat.dvd_mul_left _ _
  rw [TableNode.word, shifted, Nat.lor_assoc, or_eq_add low level,
    or_eq_add aligned (by omega)]

theorem TableNode.word_lt (node : TableNode) : node.word < 2 ^ 64 := by
  have pid := node.pid.isLt
  have level := node.level.isLt
  have bounds := node.table.property.bounds
  rw [node.word_eq]
  omega

@[simp] theorem mlnode2pa_word (node : TableNode) : mlnode2pa node.word = node.table := by
  have pid := node.pid.isLt
  have level := node.level.isLt
  have bounds := node.table.property.bounds
  rw [mlnode2pa_eq node.word_lt, node.word_eq, pgsize_eq]
  omega

@[simp] theorem mlnode2pid_word (node : TableNode) : mlnode2pid node.word = node.pid := by
  have pid := node.pid.isLt
  have level := node.level.isLt
  have bounds := node.table.property.bounds
  rw [mlnode2pid_eq, node.word_eq]
  omega

@[simp] theorem emptySlot_word (node : TableNode) : emptySlot node.word = false := by
  have pid := node.pid.isLt
  have level := node.level.isLt
  have bounds := node.table.property.bounds
  have word := node.word_eq
  have occupied : node.word ≠ 0 ∧ node.word ≠ novalue := by
    rw [novalue]
    omega
  simpa [emptySlot] using occupied

variable {page : Nat}

/-- A link word has no bits in the field of the process. -/
theorem mlnode2pid_page (physical : IsPage page) : mlnode2pid page = 0 := by
  have bounds := physical.bounds
  rw [mlnode2pid_eq]
  omega

theorem mlnode2pa_page (physical : IsPage page) : mlnode2pa page = page := by
  have bounds := physical.bounds
  rw [mlnode2pa_eq (by omega), pgsize_eq]
  omega

/-- The page at an address contains a target. -/
def pageContains (page target : Nat) : Prop := page ≤ target ∧ target < page + pgsize

instance (page target : Nat) : Decidable (pageContains page target) := by
  unfold pageContains
  infer_instance

theorem covers_iff (small : mlnode2pa word + pgsize < 2 ^ 64) (target : Nat) :
    covers word target = true ↔ pageContains (mlnode2pa word) target := by
  rw [covers, Nat.mod_eq_of_lt small, Bool.and_eq_true, decide_eq_true_iff, decide_eq_true_iff,
    pageContains]

theorem covers_page (physical : IsPage page) (target : Nat) :
    covers page target = true ↔ pageContains page target := by
  have bounds := physical.bounds
  have address := mlnode2pa_page physical
  rw [covers_iff (by rw [address, pgsize_eq]; omega), address]

theorem covers_word (node : TableNode) (target : Nat) :
    covers node.word target = true ↔ pageContains node.table target := by
  have bounds := node.table.property.bounds
  rw [covers_iff (by rw [mlnode2pa_word, pgsize_eq]; omega), mlnode2pa_word]

/-! ## Calls and the registry they describe -/

/-- The calls that change the list. A registration carries the answer that
`kalloc` gives if it is called. -/
inductive PtbCall where
  | register (node : TableNode) (answer : Option Page)
  | delete (table : Page)
  | deleteAll (pid : Fin (2 ^ 10))

/-- One call. -/
def ptbStep (list : PtbMList) : PtbCall → Option PtbMList
  | .register node answer => registerPtbMlist list node answer
  | .delete table => deletePtbMlist list table
  | .deleteAll pid => deletePtbMlistAll list pid

/-- `kalloc` gives out no page that the list holds. -/
def Granted (list : PtbMList) : PtbCall → Prop
  | .register _ (some page) => page.val ∉ list.pages
  | _ => True

/-- The list as `mlistinit` leaves it: one page of junk that links to itself. -/
structure Booted (list : PtbMList) : Prop where
  physical : IsPage list.ptbList
  single : list.pages = [list.ptbList]
  junk : ∀ index < linkIndex, list.memory list.ptbList index = novalue
  link : list.memory list.ptbList linkIndex = list.ptbList

/-- Sequences of calls on the list. -/
def ptbSystem : LabelledSystem PtbMList PtbCall where
  Initial := Booted
  Step list call next := Granted list call ∧ ptbStep list call = some next

/-- The effect of a call on the registered tables. -/
def registeredAfter (nodes : Multiset TableNode) : PtbCall → Multiset TableNode
  | .register node _ => node ::ₘ nodes
  | .delete table => nodes.filter (·.table ≠ table)
  | .deleteAll pid => nodes.filter (·.pid ≠ pid)

/-- The tables registered and not deleted since. -/
def registered (calls : List PtbCall) : Multiset TableNode :=
  calls.foldl registeredAfter 0

@[simp] theorem registered_snoc (calls : List PtbCall) (call : PtbCall) :
    registered (calls ++ [call]) = registeredAfter (registered calls) call := by
  simp [registered]

namespace PtbMList

/-- The words in the slots of the list, in order. -/
def words (list : PtbMList) : List Nat := contents list.memory (slots linkIndex list.pages)

/-- The words that are not empty. -/
def nodes (list : PtbMList) : List Nat := list.words.filter fun word => !emptySlot word

end PtbMList

/-- The condition on the state before a call: a registration finds an empty slot
or a page; the table to delete has at most one node; the process whose tables
are deleted is not 0 and has no node in slot 0 of a page after the first. -/
def Sound (list : PtbMList) : PtbCall → Prop
  | .register _ answer => answer ≠ none ∨ ∃ word ∈ list.words, emptySlot word = true
  | .delete table => (list.words.filter fun word => mlnode2pa word = table).length ≤ 1
  | .deleteAll pid => pid ≠ 0 ∧ ∀ page ∈ list.pages.tail, mlnode2pid (list.memory page 0) ≠ pid

/-- The list holds exactly the given nodes, in pages that form a chain. -/
structure Registry (nodes : Multiset TableNode) (list : PtbMList) : Prop where
  chain : Chain list.memory linkIndex list.ptbList list.pages
  physical : ∀ page ∈ list.pages, IsPage page
  nodes : (list.nodes : Multiset Nat) = nodes.map TableNode.word

/-- The condition on a searched address: it is not in a page of the list, nor in
the page that the junk of `kalloc` would name; and a node whose table contains
it is not only in slot 0 of a page after the first. -/
structure Searchable (list : PtbMList) (target : Nat) : Prop where
  outside : ∀ page ∈ list.pages, ¬pageContains page target
  real : ¬pageContains (mlnode2pa novalue) target
  seen : (∀ page ∈ list.pages.tail, covers (list.memory page 0) target = false) ∨
    ∃ page ∈ list.pages, ∃ index < linkIndex, (page = list.ptbList ∨ 1 ≤ index) ∧
      covers (list.memory page index) target = true

/-- What `search_ptb_mlist` is to return. -/
def FoundIn (nodes : Multiset TableNode) (target word : Nat) : Prop :=
  (∃ node ∈ nodes, word = node.word ∧ pageContains node.table target) ∨
  word = 0 ∧ ∀ node ∈ nodes, ¬pageContains node.table target

/-! ## One call -/

variable {list : PtbMList}

theorem registry_booted (booted : Booted list) : Registry 0 list where
  chain := by
    rw [booted.single]
    exact ⟨rfl, List.nodup_singleton _, booted.link⟩
  physical := by
    rw [booted.single]
    simpa using booted.physical
  nodes := by
    have empty : ∀ word ∈ list.words, emptySlot word = true := by
      intro word member
      obtain ⟨slot, inside, rfl⟩ := mem_map.mp member
      obtain ⟨owner, low⟩ := mem_slots.mp inside
      rw [booted.single, mem_singleton] at owner
      rw [owner, booted.junk _ low]
      decide
    have none : list.nodes = [] := by
      rw [PtbMList.nodes, List.filter_eq_nil_iff]
      intro word member
      simp [empty word member]
    simp [none]

variable {nodes : Multiset TableNode}

/-- The pages of a registry, as the loops walk them. -/
theorem Registry.walk (registry : Registry nodes list) : ∃ rest, list.pages = list.ptbList :: rest ∧
      Linked list.memory linkIndex list.ptbList (list.ptbList :: rest) ∧ list.ptbList ∉ rest := by
  obtain ⟨first, once, linked⟩ := registry.chain
  cases pages : list.pages with
  | nil =>
    rw [pages] at first
    cases first
  | cons page rest =>
    rw [pages] at first once linked
    obtain rfl : page = list.ptbList := Option.some.inj first
    exact ⟨rest, rfl, linked, (List.nodup_cons.mp once).1⟩

/-- The link words of a registry are page addresses. -/
theorem Registry.link (registry : Registry nodes list) (member : page ∈ list.pages) :
    list.memory page linkIndex ∈ list.pages := by
  rcases registry.chain.linked.mem member with home | inside
  · rw [home]
    exact List.mem_of_mem_head? registry.chain.first
  · exact inside

variable {slot : Nat × Nat}

theorem PtbMList.words_split {before after : List (Nat × Nat)}
    (split : slots linkIndex list.pages = before ++ slot :: after) :
    list.words = contents list.memory before ++
      list.memory slot.1 slot.2 :: contents list.memory after := by
  simp [PtbMList.words, split, contents]

/-- The words of a list after a store to one of its slots. -/
theorem PtbMList.words_store (once : list.pages.Nodup) {before after : List (Nat × Nat)}
    (split : slots linkIndex list.pages = before ++ slot :: after) (value : Nat) :
    (list.store slot.1 slot.2 value).words = contents list.memory before ++
      value :: contents list.memory after := by
  have distinct : (before ++ slot :: after).Nodup := split ▸ nodup_slots once
  rw [PtbMList.words, PtbMList.store, split, contents_write_split distinct]

theorem Registry.fill (registry : Registry nodes list) (node : TableNode)
    (found : (slots linkIndex list.pages).find? (list.hitAt emptySlot) = some slot) :
    Registry (node ::ₘ nodes) (list.store slot.1 slot.2 node.word) where
  chain := registry.chain.write slot.1 node.word
    (mem_slots.mp (List.mem_of_find?_eq_some found)).2
  physical := registry.physical
  nodes := by
    obtain ⟨empty, before, after, split, -⟩ := List.find?_eq_some_iff_append.mp found
    have old := registry.nodes
    have vacant : emptySlot (list.memory slot.1 slot.2) = true := empty
    rw [PtbMList.nodes, PtbMList.words_split split] at old
    rw [PtbMList.nodes, PtbMList.words_store registry.chain.once split, map_cons, ← old]
    simp [filter_append, vacant]

/-- The list after a registration that takes a new page. -/
def PtbMList.grown (list : PtbMList) (final newpage word : Nat) : PtbMList :=
  (((PtbMList.mk (allocated list.memory newpage) list.ptbList (list.pages ++ [newpage])).store
    newpage linkIndex list.ptbList).store final linkIndex newpage).store newpage 0 word

variable {final : Nat}

theorem slotPass_extend (newpage : Page) (word : Nat)
    (last : list.memory final linkIndex = list.ptbList) :
    slotPass (extend (some newpage)) emptySlot word ⟨list, final, linkIndex⟩ =
      .leave (list.grown final newpage word) := by
  have front : (0 : Nat) ≠ linkIndex := by decide
  have junk : emptySlot novalue = true := by decide
  rw [slotPass_last last]
  simp [extend, Cursor.word, PtbMList.store, write_apply, front, junk, PtbMList.grown]

variable {newpage : Nat}

/-- Other pages keep their slots when the list grows. -/
theorem PtbMList.grown_slot {index : Nat} (other : page ≠ newpage) (slot : index < linkIndex) :
    (list.grown final newpage word).memory page index = list.memory page index := by
  simp [PtbMList.grown, PtbMList.store, write_apply, other, Nat.ne_of_lt slot,
    allocated_of_ne]

/-- The new page holds the word in slot 0 and junk in the others. -/
theorem PtbMList.grown_newpage {index : Nat} (slot : index < linkIndex) :
    (list.grown final newpage word).memory newpage index = if index = 0 then word else novalue := by
  simp [PtbMList.grown, PtbMList.store, write_apply, Nat.ne_of_lt slot]

/-- The last page and the new page are linked when the list grows. -/
theorem PtbMList.grown_link (different : newpage ≠ final) :
    (list.grown final newpage word).memory page linkIndex =
      if page = final then newpage else if page = newpage then list.ptbList
      else list.memory page linkIndex := by
  have back : linkIndex ≠ 0 := by decide
  by_cases last : page = final <;> by_cases new : page = newpage <;>
    simp [PtbMList.grown, PtbMList.store, write_apply, back, last, new,
      allocated_of_ne, different, Ne.symm different]

theorem PtbMList.words_grown (fresh : newpage ∉ list.pages) :
    (list.grown final newpage word).words =
      list.words ++ word :: List.replicate (linkIndex - 1) novalue := by
  have old : contents (list.grown final newpage word).memory (slots linkIndex list.pages) =
      list.words := by
    refine List.map_congr_left fun slot member => ?_
    obtain ⟨owner, inside⟩ := mem_slots.mp member
    exact PtbMList.grown_slot (fun same => fresh (same ▸ owner)) inside
  have new : contents (list.grown final newpage word).memory (row linkIndex newpage) =
      word :: List.replicate (linkIndex - 1) novalue := by
    have words : ∀ index ∈ List.range linkIndex,
        ((fun slot => (list.grown final newpage word).memory slot.1 slot.2) ∘
          fun index => (newpage, index)) index = if index = 0 then word else novalue :=
      fun index member => PtbMList.grown_newpage (List.mem_range.mp member)
    have size : linkIndex = (linkIndex - 1) + 1 := rfl
    rw [contents, row, List.map_map, List.map_congr_left words, size, List.range_succ_eq_map]
    simp [List.map_const', Function.comp_def]
  have pages : (list.grown final newpage word).pages = list.pages ++ [newpage] := rfl
  rw [PtbMList.words, pages, slots_append, contents, List.map_append]
  rw [contents] at old
  rw [contents, row] at new
  simp only [slots_cons, slots_nil, List.append_nil, row]
  rw [old, new]

theorem Registry.grow {front : List Nat}
    (registry : Registry nodes list) (split : list.pages = front ++ [final])
    (node : TableNode) {newpage : Page} (fresh : newpage.val ∉ list.pages) :
    Registry (node ::ₘ nodes) (list.grown final newpage node.word) where
  chain := by
    obtain ⟨first, once, linked⟩ := registry.chain
    have pages : (list.grown final newpage node.word).pages = list.pages ++ [newpage.val] := rfl
    have different : newpage.val ≠ final := by
      rintro same
      exact fresh (by simp [same, split])
    refine ⟨?_, ?_, ?_⟩
    · rw [pages, List.head?_append, first]
      rfl
    · rw [pages, ← List.concat_eq_append]
      exact once.concat fresh
    · rw [split] at linked once fresh
      have notLast : final ∉ front := by
        have apart := (List.nodup_append.mp once).2.2
        exact fun member => apart final member final (List.mem_singleton_self final) rfl
      have same : ∀ page ∈ front, (list.grown final newpage node.word).memory page linkIndex =
          list.memory page linkIndex := by
        intro page member
        have inner : page ≠ final := by
          rintro rfl
          exact notLast member
        have old : page ≠ newpage.val := by
          rintro same
          exact fresh (by simp [← same, member])
        rw [PtbMList.grown_link different, if_neg inner, if_neg old]
      have link : (list.grown final newpage node.word).memory final linkIndex = newpage.val := by
        simp [PtbMList.grown_link different]
      have back : (list.grown final newpage node.word).memory newpage linkIndex =
          list.ptbList := by
        simp [PtbMList.grown_link different, different]
      have extended := linked.extend same link back
      rw [pages, split, List.append_assoc]
      exact extended
  physical := by
    intro page member
    have cases : page ∈ list.pages ∨ page = newpage.val := by
      simpa [PtbMList.grown, PtbMList.store] using member
    rcases cases with old | rfl
    · exact registry.physical page old
    · exact newpage.property
  nodes := by
    have old := registry.nodes
    have junk : emptySlot novalue = true := by decide
    rw [PtbMList.nodes, PtbMList.words_grown fresh, map_cons, ← old]
    simp [PtbMList.nodes, filter_append, junk]

theorem passes_eq {rest : List Nat} (pages : list.pages = list.ptbList :: rest) :
    list.passes = entrySize + linkIndex * (rest.length + 1) + (rest.length + 1) := by
  rw [PtbMList.passes, pages, entrySize_eq, linkIndex_eq, length_cons]
  ring

/-- `register_ptb_mlist` fills the first empty slot. -/
theorem register_found {node : TableNode} {answer : Option Page} (registry : Registry nodes list)
    (found : (slots linkIndex list.pages).find? (list.hitAt emptySlot) = some slot) :
    registerPtbMlist list node answer = some (list.store slot.1 slot.2 node.word) := by
  obtain ⟨rest, pages, linked, inner⟩ := registry.walk
  have size := passes_eq pages
  rw [pages] at found
  exact loop_slotPass_hit linked inner found (by omega)

/-- Without one, `register_ptb_mlist` takes a page and links it behind the last. -/
theorem register_full (node : TableNode) (newpage : Page) (registry : Registry nodes list)
    (full : ∀ slot ∈ slots linkIndex list.pages, list.hitAt emptySlot slot = false) :
    ∃ front final, list.pages = front ++ [final] ∧
      registerPtbMlist list node (some newpage) = some (list.grown final newpage node.word) := by
  obtain ⟨rest, pages, linked, inner⟩ := registry.walk
  have size := passes_eq pages
  have split : list.pages = list.pages.dropLast ++
      [(list.ptbList :: rest).getLast (List.cons_ne_nil _ _)] := by
    simp only [pages]
    exact (List.dropLast_append_getLast _).symm
  have last := Linked.final (split ▸ registry.chain.linked)
  refine ⟨_, _, split, ?_⟩
  rw [registerPtbMlist, PtbMList.front]
  rw [pages] at full
  have walk : loop (slotPass (extend (some newpage)) emptySlot node.word)
      (1 + linkIndex * (rest.length + 1)) ⟨list, list.ptbList, 0⟩ = _ :=
    loop_slotPass_none linked inner full 1
  rw [loop_leave (slotPass_extend newpage node.word last) 0] at walk
  exact loop_mono (by omega) walk

/-- `register_ptb_mlist` returns, and adds its node when it finds a place. -/
theorem registry_register {node : TableNode} {answer : Option Page} (registry : Registry nodes list)
    (granted : Granted list (.register node answer)) (sound : Sound list (.register node answer)) :
    ∃ next, registerPtbMlist list node answer = some next ∧ Registry (node ::ₘ nodes) next := by
  cases found : (slots linkIndex list.pages).find? (list.hitAt emptySlot) with
  | some slot => exact ⟨_, register_found registry found, registry.fill node found⟩
  | none =>
    have full : ∀ slot ∈ slots linkIndex list.pages, list.hitAt emptySlot slot = false := by
      simpa using found
    obtain ⟨newpage, rfl⟩ : ∃ newpage, answer = some newpage := by
      rcases sound with given | ⟨word, member, empty⟩
      · exact Option.ne_none_iff_exists'.mp given
      · obtain ⟨slot, within, rfl⟩ := mem_map.mp member
        have filled := full slot within
        simp [PtbMList.hitAt, empty] at filled
    obtain ⟨front, final, split, result⟩ := register_full node newpage registry full
    exact ⟨_, result, registry.grow split node granted⟩

theorem map_word_filter_table (nodes : Multiset TableNode) (table : Page) :
    (nodes.filter (·.table ≠ table)).map TableNode.word =
      (nodes.map TableNode.word).filter (mlnode2pa · ≠ table) := by
  rw [filter_map]
  refine congrArg _ (filter_congr fun node _ => ?_)
  simp [Subtype.ext_iff]

theorem map_word_filter_pid (nodes : Multiset TableNode) (pid : Fin (2 ^ 10)) :
    (nodes.filter (·.pid ≠ pid)).map TableNode.word =
      (nodes.map TableNode.word).filter (mlnode2pid · ≠ pid) := by
  rw [filter_map]
  refine congrArg _ (filter_congr fun node _ => ?_)
  simp [Fin.ext_iff]

theorem filter_not_of_single {before after : List Nat} {test : Nat → Bool} (own : test word = true)
    (single : ((before ++ word :: after).filter test).length ≤ 1) :
    (before ++ word :: after).filter (fun other => !test other) = before ++ after := by
  rw [filter_append, List.filter_cons_of_pos own, List.length_append,
    length_cons] at single
  have front : before.filter test = [] := List.length_eq_zero_iff.mp (by omega)
  have back : after.filter test = [] := List.length_eq_zero_iff.mp (by omega)
  have keepFront : before.filter (fun other => !test other) = before :=
    List.filter_eq_self.mpr fun other member => by
      simpa using List.filter_eq_nil_iff.mp front other member
  have keepBack : after.filter (fun other => !test other) = after :=
    List.filter_eq_self.mpr fun other member => by
      simpa using List.filter_eq_nil_iff.mp back other member
  simp [filter_append, own, keepFront, keepBack]

theorem emptySlot_iff : emptySlot word = true ↔ word = 0 ∨ word = novalue := by
  simp [emptySlot]

theorem occupied_of_table {table : Page} (names : mlnode2pa word = table) :
    emptySlot word = false := by
  have bounds := table.property.bounds
  by_contra empty
  have vacant : emptySlot word = true := by simpa using empty
  rcases emptySlot_iff.mp vacant with rfl | rfl
  · have zero : mlnode2pa 0 = 0 := by decide
    omega
  · have junk : mlnode2pa novalue = 0x0505050505050000 := by decide
    omega

/-- `delete_ptb_mlist` returns, and removes the node of its table. -/
theorem registry_delete {table : Page}
    (registry : Registry nodes list) (sound : Sound list (.delete table)) :
    ∃ next, deletePtbMlist list table = some next ∧
      Registry (nodes.filter (·.table ≠ table)) next := by
  obtain ⟨rest, pages, linked, inner⟩ := registry.walk
  have size := passes_eq pages
  let hit : Nat → Bool := fun word => mlnode2pa word = table
  cases found : (slots linkIndex list.pages).find? (list.hitAt hit) with
  | some slot =>
    refine ⟨list.store slot.1 slot.2 0, ?_, ?_⟩
    · rw [pages] at found
      exact loop_slotPass_hit linked inner found (by omega)
    · have inside := (mem_slots.mp (List.mem_of_find?_eq_some found)).2
      obtain ⟨names, before, after, split, -⟩ := List.find?_eq_some_iff_append.mp found
      have own : mlnode2pa (list.memory slot.1 slot.2) = table := by
        simpa [PtbMList.hitAt, hit] using names
      refine ⟨registry.chain.write slot.1 0 inside, registry.physical, ?_⟩
      have single : (list.words.filter hit).length ≤ 1 := sound
      have words := PtbMList.words_split split
      rw [words] at single
      have others := filter_not_of_single names single
      have stored := PtbMList.words_store registry.chain.once split 0
      have zero : emptySlot 0 = true := by decide
      have comm : list.nodes.filter (fun word => !hit word) =
          (list.words.filter fun word => !hit word).filter fun word => !emptySlot word := by
        rw [PtbMList.nodes, List.filter_comm]
      rw [words, others] at comm
      rw [map_word_filter_table, ← registry.nodes, filter_coe]
      simp only [hit, ← decide_not] at comm
      rw [comm, PtbMList.nodes, stored]
      simp [filter_append, zero]
  | none =>
    have absent : ∀ slot ∈ slots linkIndex list.pages, list.hitAt hit slot = false := by
      simpa using found
    refine ⟨list, ?_, ?_⟩
    · have split := List.dropLast_append_getLast (List.cons_ne_nil list.ptbList rest)
      have last := Linked.final (split ▸ linked)
      rw [pages] at absent
      have walk : loop (slotPass (fun _ _ => none) hit 0)
          (1 + linkIndex * (rest.length + 1)) ⟨list, list.ptbList, 0⟩ = _ :=
        loop_slotPass_none linked inner absent 1
      rw [loop_leave (slotPass_last last) 0] at walk
      exact loop_mono (by omega) walk
    · refine ⟨registry.chain, registry.physical, ?_⟩
      rw [map_word_filter_table, ← registry.nodes, eq_comm, Multiset.filter_eq_self]
      intro word member own
      obtain ⟨slot, within, rfl⟩ := mem_map.mp (List.mem_of_mem_filter member)
      have missed := absent slot within
      simp [PtbMList.hitAt, hit, own] at missed

/-- Emptying the words of a process drops them from the nodes. -/
theorem filter_map_zero (words : List Nat) (test : Nat → Bool) :
    (words.map fun word => if test word then 0 else word).filter (fun word => !emptySlot word) =
      (words.filter fun word => !emptySlot word).filter fun word => !test word := by
  have zero : emptySlot 0 = true := by decide
  induction words with
  | nil => rfl
  | cons word words ih =>
    by_cases own : test word = true <;> by_cases empty : emptySlot word = true <;>
      simp [own, empty, zero, ih]

/-- `delete_ptb_mlist_all` empties the words of its process in the slots that it sees. -/
theorem deleteAll_wiped {pid : Nat}
    {rest : List Nat} (registry : Registry nodes list) (nonzero : pid ≠ 0)
    (pages : list.pages = list.ptbList :: rest) :
    deletePtbMlistAll list pid = some (list.wiped pid (Seen 0 list.ptbList rest)) := by
  obtain ⟨others, same, linked, inner⟩ := registry.walk
  obtain rfl : others = rest := (List.cons.inj (same.symm.trans pages)).2
  have size : list.passes = entrySize * (others.length + 1) + entrySize := by
    rw [PtbMList.passes, pages, length_cons]
    ring
  have links : ∀ page ∈ list.ptbList :: others,
      mlnode2pid (list.memory page linkIndex) ≠ pid := by
    intro page member
    rw [mlnode2pid_page (registry.physical _ (registry.link (pages ▸ member)))]
    exact Ne.symm nonzero
  exact loop_deleteAllPass nonzero 0 linked inner (Nat.zero_le _) links (by omega)

/-- `delete_ptb_mlist_all` returns, and removes the nodes of its process. -/
theorem registry_deleteAll {pid : Fin (2 ^ 10)}
    (registry : Registry nodes list) (sound : Sound list (.deleteAll pid)) :
    ∃ next, deletePtbMlistAll list pid = some next ∧
      Registry (nodes.filter (·.pid ≠ pid)) next := by
  obtain ⟨rest, pages, -⟩ := registry.walk
  obtain ⟨nonzero, hidden⟩ := sound
  have positive : pid.val ≠ 0 := fun zero => nonzero (Fin.ext zero)
  refine ⟨_, deleteAll_wiped registry positive pages, ?_, ?_, ?_⟩
  · exact registry.chain.congr fun page _ => list.wiped_link (fun slot seen => seen.2) page
  · exact registry.physical
  · have wiped : (list.wiped pid (Seen 0 list.ptbList rest)).words =
        list.words.map fun word => if decide (mlnode2pid word = pid) then 0 else word := by
      rw [PtbMList.words, PtbMList.words, contents, contents, List.map_map]
      refine List.map_congr_left fun slot member => ?_
      obtain ⟨owner, inside⟩ := mem_slots.mp member
      by_cases own : mlnode2pid (list.memory slot.1 slot.2) = pid
      · have seen : Seen 0 list.ptbList rest slot := by
          refine ⟨?_, inside⟩
          change slot.1 ∈ list.pages at owner
          rw [pages] at owner hidden
          rcases mem_cons.mp owner with first | later
          · exact .inl ⟨first, Nat.zero_le _⟩
          · refine .inr ⟨later, Nat.one_le_iff_ne_zero.mpr fun zero => ?_⟩
            exact hidden slot.1 later (zero ▸ own)
        simp [PtbMList.wiped, wipe, own, seen]
      · simp [PtbMList.wiped, wipe, own]
    rw [map_word_filter_pid, ← registry.nodes, filter_coe, PtbMList.nodes, wiped,
      filter_map_zero, PtbMList.nodes]
    simp only [decide_not]

/-- A word in a slot that is not empty is the word of a node, and every node has
its word in a slot. -/
theorem Registry.mem_iff (registry : Registry nodes list) (word : Nat) :
    (∃ slot ∈ slots linkIndex list.pages, list.memory slot.1 slot.2 = word ∧
      emptySlot word = false) ↔ ∃ node ∈ nodes, node.word = word := by
  have same : word ∈ (list.nodes : Multiset Nat) ↔ word ∈ nodes.map TableNode.word := by
    rw [registry.nodes]
  rw [mem_coe, Multiset.mem_map] at same
  rw [← same, PtbMList.nodes, List.mem_filter, PtbMList.words, contents, mem_map]
  simp only [Bool.not_eq_true', ← exists_and_right, and_assoc]

/-- No table contains an address that an empty word covers. -/
theorem not_contains_of_zero {target : Nat} (covered : covers 0 target = true) (table : Page) :
    ¬pageContains table target := by
  have bounds := table.property.bounds
  have zero : mlnode2pa 0 = 0 := by decide
  rw [covers_iff (by rw [zero, pgsize_eq]; omega), zero, pageContains, pgsize_eq] at covered
  rintro ⟨low, -⟩
  omega

/-- `search_ptb_mlist` returns, and finds the table that contains its target. -/
theorem registry_search {target : Nat}
    (registry : Registry nodes list) (searchable : Searchable list target) :
    ∃ word, searchPtbMlist list target = some word ∧ FoundIn nodes target word := by
  obtain ⟨rest, pages, linked, inner⟩ := registry.walk
  have size : list.passes = entrySize * (rest.length + 1) + entrySize := by
    rw [PtbMList.passes, pages, length_cons]
    ring
  have links : ∀ page ∈ list.ptbList :: rest,
      covers (list.memory page linkIndex) target = false := by
    intro page member
    have link := registry.link (pages ▸ member)
    by_contra found
    rw [Bool.not_eq_false, covers_page (registry.physical _ link)] at found
    exact searchable.outside _ link found
  have enough : entrySize * (rest.length + 1) ≤ list.passes := by omega
  obtain ⟨word, result, meaning⟩ :=
    loop_searchPass 0 linked inner (Nat.zero_le _) links enough
  refine ⟨word, result, ?_⟩
  rcases meaning with ⟨slot, seen, rfl, found⟩ | ⟨rfl, unseen⟩
  · cases empty : emptySlot (list.memory slot.1 slot.2) with
    | true =>
      rcases emptySlot_iff.mp empty with zero | junk
      · rw [zero] at found ⊢
        exact .inr ⟨rfl, fun node _ => not_contains_of_zero found node.table⟩
      · rw [junk, covers_iff (by decide)] at found
        exact absurd found searchable.real
    | false =>
      have owner : slot.1 ∈ list.pages := by
        rw [pages]
        rcases seen.1 with ⟨first, -⟩ | ⟨later, -⟩
        · exact first ▸ List.mem_cons_self
        · exact List.mem_cons_of_mem _ later
      obtain ⟨node, member, same⟩ := (registry.mem_iff _).mp
        ⟨slot, mem_slots.mpr ⟨owner, seen.2⟩, rfl, empty⟩
      rw [← same, covers_word] at found
      exact .inl ⟨node, member, same.symm, found⟩
  · refine .inr ⟨rfl, fun node member contains => ?_⟩
    obtain ⟨slot, place, same, -⟩ := (registry.mem_iff node.word).mpr ⟨node, member, rfl⟩
    obtain ⟨owner, inside⟩ := mem_slots.mp place
    have covered := (covers_word node target).mpr contains
    -- The slot that holds the node is hidden, so another one must be seen.
    have hidden : slot.1 ∈ rest ∧ slot.2 = 0 := by
      rw [pages] at owner
      by_contra visible
      have seen : Seen 0 list.ptbList rest slot := by
        refine ⟨?_, inside⟩
        rcases mem_cons.mp owner with first | later
        · exact .inl ⟨first, Nat.zero_le _⟩
        · exact .inr ⟨later, by by_contra low; exact visible ⟨later, by omega⟩⟩
      have missed := unseen slot seen
      rw [same, covered] at missed
      cases missed
    rcases searchable.seen with clear | ⟨page, within, index, slotBound, place, covering⟩
    · have missed := clear slot.1 (by rw [pages]; exact hidden.1)
      rw [← hidden.2, same, covered] at missed
      cases missed
    · have seen : Seen 0 list.ptbList rest (page, index) := by
        refine ⟨?_, slotBound⟩
        rw [pages] at within
        rcases place with first | high
        · exact .inl ⟨first, Nat.zero_le _⟩
        · rcases mem_cons.mp within with first | later
          · exact .inl ⟨first, Nat.zero_le _⟩
          · exact .inr ⟨later, high⟩
      have missed := unseen (page, index) seen
      rw [covering] at missed
      cases missed

/-- Every call that meets `Sound` returns, and does to the registry what it is
for. -/
theorem registry_step {call : PtbCall}
    (registry : Registry nodes list) (granted : Granted list call) (sound : Sound list call) :
    ∃ next, ptbStep list call = some next ∧ Registry (registeredAfter nodes call) next := by
  cases call with
  | register node answer => exact registry_register registry granted sound
  | delete table => exact registry_delete registry sound
  | deleteAll pid => exact registry_deleteAll registry sound

/-- In every run whose calls all meet `Sound`, the pages form a chain that holds
exactly the registered tables; every such call returns; and the search for
every target that meets `Searchable` finds the registered table that contains it. -/
theorem registry_of_sound_run {calls : List PtbCall} {list : PtbMList}
    (run : (ptbSystem.guarded Sound).Runs calls list) :
    Registry (registered calls) list ∧
    (∀ call, Granted list call → Sound list call → (ptbStep list call).isSome) ∧
    ∀ target, Searchable list target →
      ∃ word, searchPtbMlist list target = some word ∧ FoundIn (registered calls) target word := by
  have registry : Registry (registered calls) list := by
    refine run.history_invariant (fun calls list => Registry (registered calls) list) ?_ ?_
    · intro list booted
      exact registry_booted booted
    · intro calls list call next registry ⟨sound, granted, taken⟩
      obtain ⟨after, result, kept⟩ := registry_step registry granted sound
      obtain rfl : after = next := Option.some.inj (result.symm.trans taken)
      rwa [registered_snoc]
  refine ⟨registry, fun call granted sound => ?_, fun target => registry_search registry⟩
  obtain ⟨next, result, -⟩ := registry_step registry granted sound
  simp [result]

/-! ## A list whose first page fills up -/

/-- The list at boot, with its page at the start of physical memory. -/
def sampleList : PtbMList where
  memory _ index := if index = linkIndex then kernbase else novalue
  ptbList := kernbase
  pages := [kernbase]

theorem booted_sampleList : Booted sampleList where
  physical := by decide
  single := rfl
  junk index slot := if_neg (Nat.ne_of_lt slot)
  link := rfl

/-- Distinct tables of one process, behind the pages of the list. -/
def sampleNode (number : Nat) : TableNode where
  table := ⟨kernbase + (number % 512 + 2) * pgsize, by
    have low := Nat.mod_lt number (show 0 < 512 by decide)
    simp only [IsPage, pgsize_eq, kernbase_eq, phystop_eq]
    omega⟩
  pid := 1
  level := 0

theorem sampleNode_table (number : Nat) :
    (sampleNode number).table.val = kernbase + (number % 512 + 2) * pgsize := rfl

/-- The page that `kalloc` has ready. -/
def samplePage : Page := ⟨kernbase + pgsize, by decide⟩

/-- Register one of the tables. -/
def sampleCall (number : Nat) : PtbCall := .register (sampleNode number) (some samplePage)

/-- Two tables are registered, and the first is deleted. -/
def sampleCalls : List PtbCall := [sampleCall 0, sampleCall 1, .delete (sampleNode 0).table]

theorem registry_of_sound_run_sample :
    ∃ list, (ptbSystem.guarded Sound).Runs sampleCalls list ∧
      Registry (registered sampleCalls) list ∧
      (∀ call, Granted list call → Sound list call → (ptbStep list call).isSome) ∧
      ∀ target, Searchable list target → ∃ word, searchPtbMlist list target = some word ∧
        FoundIn (registered sampleCalls) target word := by
  have found : ((ptbStep sampleList (sampleCall 0)).any fun first =>
      decide (samplePage.val ∉ first.pages) && (ptbStep first (sampleCall 1)).any fun second =>
        decide ((second.words.filter fun word =>
          mlnode2pa word = (sampleNode 0).table.val).length ≤ 1) &&
            (ptbStep second (.delete (sampleNode 0).table)).isSome) = true := by decide +kernel
  obtain ⟨first, registered, facts⟩ := (Option.any_eq_true _ _).mp found
  obtain ⟨free, facts⟩ := (Bool.and_eq_true _ _).mp facts
  obtain ⟨second, both, facts⟩ := (Option.any_eq_true _ _).mp facts
  obtain ⟨once, facts⟩ := (Bool.and_eq_true _ _).mp facts
  obtain ⟨list, deleted⟩ := Option.isSome_iff_exists.mp facts
  have granted : samplePage.val ∉ sampleList.pages := by decide
  have sound (list : PtbMList) (number : Nat) : Sound list (sampleCall number) :=
    .inl (Option.some_ne_none _)
  have spare := of_decide_eq_true free
  have few := of_decide_eq_true once
  have start : (ptbSystem.guarded Sound).Runs [] sampleList := .initial booted_sampleList
  have registrations := (start.step ⟨sound _ 0, granted, registered⟩).step
    ⟨sound _ 1, spare, both⟩
  have step : (ptbSystem.guarded Sound).Step second (.delete (sampleNode 0).table) list :=
    ⟨few, trivial, deleted⟩
  have run : (ptbSystem.guarded Sound).Runs sampleCalls list := registrations.step step
  exact ⟨list, run, registry_of_sound_run run⟩

/-- The first `count` slots of the first page are taken. -/
structure Filled (count : Nat) (list : PtbMList) : Prop where
  home : list.ptbList = kernbase
  pages : list.pages = [kernbase]
  link : list.memory kernbase linkIndex = kernbase
  taken : ∀ index < count, list.memory kernbase index = (sampleNode index).word
  free : ∀ index, count ≤ index → index < linkIndex → list.memory kernbase index = novalue

theorem filled_register {count : Nat} (filled : Filled count list) (room : count < linkIndex) :
    ∃ next, ptbStep list (sampleCall count) = some next ∧ Filled (count + 1) next := by
  have linked : Linked list.memory linkIndex list.ptbList [list.ptbList] := by
    rw [filled.home]
    exact filled.link
  have found : (slots linkIndex [list.ptbList]).find? (list.hitAt emptySlot) =
      some (list.ptbList, count) := by
    rw [slots_cons, slots_nil, List.append_nil, find?_row_eq_some]
    refine ⟨rfl, room, ?_, ?_⟩
    · rw [PtbMList.hitAt, filled.home, filled.free count (Nat.le_refl _) room]
      decide
    · intro earlier low
      rw [PtbMList.hitAt, filled.home, filled.taken earlier low]
      exact emptySlot_word _
  have enough : linkIndex * (([] : List Nat).length + 1) ≤ list.passes := by
    rw [PtbMList.passes, filled.pages]
    decide
  refine ⟨_, loop_slotPass_hit linked List.not_mem_nil found enough, ?_⟩
  have stored : ∀ index, (list.store list.ptbList count (sampleNode count).word).memory kernbase
      index = if index = count then (sampleNode count).word else list.memory kernbase index := by
    intro index
    simp [PtbMList.store, write_apply, filled.home]
  refine ⟨filled.home, filled.pages, ?_, ?_, ?_⟩
  · rw [stored, if_neg (Nat.ne_of_gt room)]
    exact filled.link
  · intro index low
    by_cases last : index = count
    · rw [stored, if_pos last, last]
    · rw [stored, if_neg last]
      exact filled.taken index (by omega)
  · intro index high slot
    rw [stored, if_neg (by omega)]
    exact filled.free index (by omega) slot

theorem filled_run {count : Nat} (room : count ≤ linkIndex) :
    ∃ list, ptbSystem.Runs ((List.range count).map sampleCall) list ∧ Filled count list := by
  induction count with
  | zero =>
    refine ⟨sampleList, .initial booted_sampleList, rfl, rfl, rfl, ?_, ?_⟩
    · intro index low
      cases low
    · intro index _ slot
      exact booted_sampleList.junk index slot
  | succ count ih =>
    obtain ⟨list, run, filled⟩ := ih (by omega)
    obtain ⟨next, taken, after⟩ := filled_register filled (by omega)
    have granted : Granted list (sampleCall count) := by
      change samplePage.val ∉ list.pages
      rw [filled.pages]
      decide
    refine ⟨next, ?_, after⟩
    rw [List.range_succ, List.map_append]
    exact run.step ⟨granted, taken⟩

theorem filled_overflow (filled : Filled linkIndex list) :
    ∃ next, ptbStep list (sampleCall linkIndex) = some next ∧
      next = list.grown kernbase samplePage (sampleNode linkIndex).word := by
  have linked : Linked list.memory linkIndex list.ptbList [kernbase] := by
    rw [filled.home]
    exact filled.link
  have full : ∀ slot ∈ slots linkIndex [kernbase], list.hitAt emptySlot slot = false := by
    intro slot member
    obtain ⟨owner, inside⟩ := mem_slots.mp member
    rw [PtbMList.hitAt, mem_singleton.mp owner, filled.taken _ inside]
    exact emptySlot_word _
  have walk : loop (slotPass (extend (some samplePage)) emptySlot (sampleNode linkIndex).word)
      (1 + linkIndex * (([] : List Nat).length + 1)) ⟨list, kernbase, 0⟩ = _ :=
    loop_slotPass_none linked List.not_mem_nil full 1
  have last : list.memory kernbase linkIndex = list.ptbList := filled.link.trans filled.home.symm
  rw [List.getLast_singleton, loop_leave (slotPass_extend samplePage _ last) 0] at walk
  refine ⟨_, ?_, rfl⟩
  have front : list.front = ⟨list, kernbase, 0⟩ := by rw [PtbMList.front, filled.home]
  change registerPtbMlist list (sampleNode linkIndex) (some samplePage) = _
  rw [registerPtbMlist, front]
  refine loop_mono ?_ walk
  rw [PtbMList.passes, filled.pages]
  decide

/-- The search for the last table passes over its node. -/
theorem search_overflow (filled : Filled linkIndex list) :
    searchPtbMlist (list.grown kernbase samplePage (sampleNode linkIndex).word)
      (sampleNode linkIndex).table = some 0 := by
  have different : samplePage.val ≠ kernbase := by decide
  let grown := list.grown kernbase samplePage (sampleNode linkIndex).word
  have links : grown.memory kernbase linkIndex = samplePage ∧
      grown.memory samplePage linkIndex = kernbase := by
    constructor
    · simp [grown, PtbMList.grown_link different]
    · simp [grown, PtbMList.grown_link different, different, filled.home]
  have home : grown.ptbList = kernbase := filled.home
  have linked : Linked grown.memory linkIndex grown.ptbList [kernbase, samplePage.val] := by
    rw [home]
    exact links
  have clear : ∀ page ∈ [kernbase, samplePage.val],
      covers (grown.memory page linkIndex) (sampleNode linkIndex).table = false := by
    intro page member
    rcases List.mem_pair.mp member with rfl | rfl
    · rw [links.1]
      decide
    · rw [links.2]
      decide
  have enough : entrySize * ([samplePage.val].length + 1) ≤ grown.passes := by
    have pages : grown.pages = [kernbase, samplePage.val] := by
      simp [grown, PtbMList.grown, PtbMList.store, filled.pages]
    rw [PtbMList.passes, pages]
    decide
  obtain ⟨word, result, meaning⟩ := loop_searchPass 0 linked (by rw [home]; decide)
    (Nat.zero_le _) clear enough
  have front : grown.front = ⟨grown, kernbase, 0⟩ := by rw [PtbMList.front, home]
  rw [searchPtbMlist, front, result]
  rcases meaning with ⟨⟨page, index⟩, seen, rfl, found⟩ | ⟨rfl, -⟩
  · exfalso
    obtain ⟨⟨rfl, -⟩ | ⟨later, high⟩, slot⟩ := seen
    · have word : grown.memory kernbase index = (sampleNode index).word := by
        rw [PtbMList.grown_slot (Ne.symm different) slot]
        exact filled.taken index slot
      rw [word, covers_word, pageContains, sampleNode_table, sampleNode_table, pgsize_eq] at found
      rw [linkIndex_eq] at found slot
      omega
    · obtain rfl : page = samplePage.val := mem_singleton.mp later
      have junk : grown.memory samplePage index = novalue := by
        rw [PtbMList.grown_newpage slot, if_neg (by omega)]
      rw [junk] at found
      exact absurd found (by decide)
  · rfl

/-- The 512th table gets slot 0 of the second page, where the search does not
look. -/
theorem search_misses_slot_zero :
    ¬ ∀ calls list, ptbSystem.Runs calls list → ∀ target, ∃ word,
      searchPtbMlist list target = some word ∧ FoundIn (registered calls) target word := by
  intro claimed
  obtain ⟨list, run, filled⟩ := filled_run (Nat.le_refl linkIndex)
  obtain ⟨next, taken, grown⟩ := filled_overflow filled
  have granted : Granted list (sampleCall linkIndex) := by
    change samplePage.val ∉ list.pages
    rw [filled.pages]
    decide
  have longer := run.step ⟨granted, taken⟩
  have missed := search_overflow filled
  generalize linkIndex = last at *
  obtain ⟨word, result, found⟩ := claimed _ next longer (sampleNode last).table
  rw [← grown, result] at missed
  obtain rfl : word = 0 := Option.some.inj missed
  have member : sampleNode last ∈
      registered ((List.range last).map sampleCall ++ [sampleCall last]) := by
    rw [registered_snoc]
    exact Multiset.mem_cons_self _ _
  rcases found with ⟨node, -, zero, -⟩ | ⟨-, absent⟩
  · have occupied := emptySlot_word node
    rw [← zero] at occupied
    exact absurd occupied (by decide)
  · exact absent _ member ⟨Nat.le_refl _, Nat.lt_add_of_pos_right (by decide)⟩

end Ev6.MList.PageTables
