import Ev6.MList.PageTableRegistry

/-!
# Whose page table it is

The process identifiers of `allocpid`, the words that `register_ptb_mlist` makes of
them, and the owner that `mlist_tracker` reads from a word. The identifier is shifted
into twelve bits of a page's address that only ten bits of it fit in: `owner_kept_iff`.
-/

namespace Ev6.MList.PageTables

open Support

/-- `MLNODE2LEVEL`. -/
def mlnode2level (node : Nat) : Nat := node &&& 3

/-- An `int` as an unsigned word. -/
def intWord (value : Int) : Nat := (value % 2 ^ 64).toNat

/-- `addr | PID2MLNODE(pid) | (uint64)level`, the shift made in an `int`. -/
def nodeWord (addr : Nat) (pid : Int) (level : Nat) : Nat :=
  addr ||| intWord ((pid * 4).bmod 4294967296) ||| level

/-- `allocpid`: the identifier, and `nextpid` after the call. -/
def allocpid (nextpid : Int) : Int × Int := (nextpid, (nextpid + 1).bmod 4294967296)

/-- `nextpid` after a number of calls. -/
def nextpid : Nat → Int
  | 0 => 1
  | calls + 1 => (allocpid (nextpid calls)).2

/-- The identifier that is handed out after a number of calls. -/
def handedOut (calls : Nat) : Int := (allocpid (nextpid calls)).1

/-- `register_ptb_mlist` with the word that it makes. -/
def registerWord (list : PtbMList) (word : Nat) (answer : Option Page) : Option PtbMList :=
  loop (slotPass (extend answer) emptySlot word) list.passes list.front

/-- The fields of `struct proc` that `mlist_tracker` reads. -/
structure TrackedProc where
  pid : Int
  pagetable : Nat
deriving DecidableEq

/-- The process to which `mlist_tracker` assigns a broken page table. Otherwise it takes
the page table for the kernel's and stops the system. -/
def trackerOwner (procs : List TrackedProc) (b_ptb : Nat) : Option TrackedProc :=
  (procs.find? fun p => p.pid = (mlnode2pid b_ptb : Int)).filter fun p =>
    ¬(p.pid = 0 ∨ p.pagetable = 0)

/-- The first empty slot of a list exists and is one that all the loops look at. -/
def FreeVisible (list : PtbMList) : Prop :=
  ∃ slot, (slots linkIndex list.pages).find? (list.hitAt emptySlot) = some slot ∧
    (slot.1 = list.ptbList ∨ slot.2 ≠ 0)

/-- The word that is stored for a page table is read back, names its owner, and is removed
and found by the functions of the list. -/
structure OwnerKept (list : PtbMList) (answer : Option Page) (addr : Nat) (pid : Int)
    (level : Nat) : Prop where
  addressRead : mlnode2pa (nodeWord addr pid level) = addr
  pidRead : mlnode2pid (nodeWord addr pid level) = pid
  levelRead : mlnode2level (nodeWord addr pid level) = level
  owner : ∀ procs p, p ∈ procs → p.pid = pid → p.pagetable ≠ 0 →
    (∀ q ∈ procs, q.pid = pid → q = p) →
    trackerOwner procs (nodeWord addr pid level) = some p
  kept : ∃ after, registerWord list (nodeWord addr pid level) answer = some after ∧
    nodeWord addr pid level ∈ after.words ∧
    (∃ next, deletePtbMlist after addr = some next ∧ nodeWord addr pid level ∉ next.words) ∧
    (∃ next, deletePtbMlistAll after (intWord pid) = some next ∧
      nodeWord addr pid level ∉ next.words) ∧
    ∀ target, pageContains addr target →
      searchPtbMlist after target = some (nodeWord addr pid level)

/-! ## The identifiers -/

theorem nextpid_eq (calls : Nat) : nextpid calls = (1 + calls : Int).bmod 4294967296 := by
  induction calls with
  | zero => exact (Int.bmod_eq_of_le (by decide) (by decide)).symm
  | succ calls ih =>
    have more : (1 + calls + 1 : Int) = 1 + (calls + 1 : Nat) := by omega
    rw [nextpid, allocpid, ih, Int.bmod_add_bmod, more]

/-- As long as it does not overflow, `nextpid` counts the calls. -/
theorem handedOut_eq {calls : Nat} (low : calls < 2147483647) : handedOut calls = calls + 1 := by
  rw [handedOut, allocpid, nextpid_eq, Int.bmod_eq_of_le (by omega) (by omega), Int.add_comm]

theorem mlnode2pid_lt (word : Nat) : mlnode2pid word < 1024 := by
  rw [mlnode2pid_eq]
  omega

section Fits

variable {addr : Page} {pid : Int} {level : Nat}

/-- The node of an identifier that fits. -/
def nodeOf (addr : Page) (pid : Int) (level : Nat) (fits : 0 ≤ pid ∧ pid < 1024)
    (low : level ≤ 2) : TableNode where
  table := addr
  pid := ⟨pid.toNat, by omega⟩
  level := ⟨level, by omega⟩

theorem nodeWord_eq (fits : 0 ≤ pid ∧ pid < 1024) (low : level ≤ 2) :
    nodeWord addr pid level = (nodeOf addr pid level fits low).word := by
  have shifted : intWord ((pid * 4).bmod 4294967296) = pid2mlnode pid.toNat := by
    rw [pid2mlnode, Nat.shiftLeft_eq, intWord, Int.bmod_eq_of_le (by omega) (by omega)]
    omega
  rw [nodeWord, shifted]
  rfl

theorem mlnode2level_word (node : TableNode) : mlnode2level node.word = node.level := by
  have level := node.level.isLt
  rw [mlnode2level, show 3 = 2 ^ 2 - 1 from rfl, Nat.and_two_pow_sub_one_eq_mod, node.word_eq]
  have aligned : node.table.val % 4096 = 0 := node.table.property.1
  omega

theorem fields_nodeWord (fits : 0 ≤ pid ∧ pid < 1024) (low : level ≤ 2) :
    mlnode2pa (nodeWord addr pid level) = addr ∧
      mlnode2pid (nodeWord addr pid level) = pid ∧
      mlnode2level (nodeWord addr pid level) = level := by
  rw [nodeWord_eq fits low, mlnode2pa_word, mlnode2pid_word, mlnode2level_word]
  exact ⟨rfl, Int.toNat_of_nonneg fits.1, rfl⟩

end Fits

/-- The tracker finds the process, unless it takes the identifier for that of no process. -/
theorem trackerOwner_eq {procs : List TrackedProc} {p : TrackedProc} {word : Nat}
    (member : p ∈ procs) (names : mlnode2pid word = p.pid) (nonzero : p.pid ≠ 0)
    (pagetable : p.pagetable ≠ 0) (only : ∀ q ∈ procs, q.pid = p.pid → q = p) :
    trackerOwner procs word = some p := by
  cases found : procs.find? fun p => p.pid = (mlnode2pid word : Int) with
  | none =>
    have missed := List.find?_eq_none.mp found p member
    simp [names] at missed
  | some q =>
    have own : q.pid = mlnode2pid word := by simpa using List.find?_some found
    obtain rfl := only q (List.mem_of_find?_eq_some found) (own.trans names)
    simp [trackerOwner, found, nonzero, pagetable]

/-- An identifier is read back and names its process only if it is not 0 and fits. -/
theorem OwnerKept.fits {list : PtbMList} {answer : Option Page} {addr level : Nat} {pid : Int}
    (kept : OwnerKept list answer addr pid level) : 1 ≤ pid ∧ pid < 1024 := by
  have small := mlnode2pid_lt (nodeWord addr pid level)
  have read := kept.pidRead
  have nonzero : pid ≠ 0 := by
    rintro rfl
    have found := kept.owner [⟨0, 1⟩] ⟨0, 1⟩ (by simp) rfl (by decide) (by simp)
    simp [trackerOwner] at found
  omega

/-! ## The list -/

section Kept

variable {nodes : Multiset TableNode} {list : PtbMList} {node : TableNode}

/-- A new node is registered: the list before, and what `kalloc` answers. -/
structure Registering (nodes : Multiset TableNode) (list : PtbMList) (answer : Option Page)
    (table : Nat) : Prop where
  registry : Registry nodes list
  granted : ∀ page, answer = some page → page.val ∉ list.pages
  place : answer ≠ none ∨ ∃ word ∈ list.words, emptySlot word = true
  fresh : ∀ node ∈ nodes, node.table.val ≠ table
  outside : table ∉ list.pages

theorem single_table (registry : Registry (node ::ₘ nodes) list)
    (fresh : ∀ other ∈ nodes, other.table ≠ node.table) :
    (list.words.filter fun word => mlnode2pa word = node.table).length ≤ 1 := by
  have occupied : list.words.filter (fun word => mlnode2pa word = node.table) =
      list.nodes.filter fun word => mlnode2pa word = node.table := by
    rw [PtbMList.nodes, List.filter_filter]
    refine List.filter_congr fun word _ => ?_
    by_cases names : mlnode2pa word = node.table
    · simp [names, occupied_of_table names]
    · simp [names]
  have words : ((list.nodes.filter fun word => mlnode2pa word = node.table : List Nat) :
      Multiset Nat) = {node.word} := by
    have others : (nodes.map TableNode.word).filter (mlnode2pa · = node.table) = 0 := by
      rw [Multiset.filter_eq_nil]
      intro word member
      obtain ⟨other, inside, rfl⟩ := Multiset.mem_map.mp member
      rw [mlnode2pa_word]
      exact fun same => fresh other inside (Subtype.ext same)
    have own : mlnode2pa node.word = node.table := mlnode2pa_word node
    rw [← Multiset.filter_coe, registry.nodes, Multiset.map_cons, Multiset.filter_cons, if_pos own,
      others]
    rfl
  have count := congrArg Multiset.card words
  rw [occupied]
  simpa using count.le

theorem delete_removes (registry : Registry (node ::ₘ nodes) list)
    (fresh : ∀ other ∈ nodes, other.table ≠ node.table) :
    ∃ next, deletePtbMlist list node.table = some next ∧ node.word ∉ next.words := by
  obtain ⟨next, result, kept⟩ := registry_delete registry (single_table registry fresh)
  refine ⟨next, result, fun member => ?_⟩
  obtain ⟨slot, place, same⟩ := List.mem_map.mp member
  obtain ⟨other, inside, word⟩ := (kept.mem_iff node.word).mp
    ⟨slot, place, same, emptySlot_word node⟩
  have table := congrArg mlnode2pa word
  rw [mlnode2pa_word, mlnode2pa_word] at table
  exact (Multiset.mem_filter.mp inside).2 (Subtype.ext table)

/-- The nodes of the process are removed where the loop looks. -/
theorem deleteAll_removes {rest : List Nat} (registry : Registry nodes list)
    (pages : list.pages = list.ptbList :: rest) (nonzero : node.pid ≠ 0) :
    ∃ next, deletePtbMlistAll list node.pid = some next ∧
      (node.word ∈ next.words ↔ ∃ slot ∈ slots linkIndex list.pages,
        list.memory slot.1 slot.2 = node.word ∧ ¬Seen 0 list.ptbList rest slot) := by
  have positive : node.pid.val ≠ 0 := fun zero => nonzero (Fin.ext zero)
  refine ⟨_, deleteAll_wiped registry positive pages, ?_⟩
  have occupied : (0 : Nat) ≠ node.word := by
    intro zero
    have vacant := emptySlot_word node
    rw [← zero] at vacant
    cases vacant
  have words : node.word ∈ (list.wiped node.pid (Seen 0 list.ptbList rest)).words ↔
      ∃ slot ∈ slots linkIndex list.pages,
        (list.wiped node.pid (Seen 0 list.ptbList rest)).memory slot.1 slot.2 = node.word := by
    rw [PtbMList.words, contents, List.mem_map]
    rfl
  rw [words]
  refine exists_congr fun slot => and_congr_right fun _ => ?_
  by_cases own : list.memory slot.1 slot.2 = node.word
  · by_cases seen : Seen 0 list.ptbList rest slot
    · simp [PtbMList.wiped, wipe, own, seen, occupied]
    · simp [PtbMList.wiped, wipe, own, seen]
  · by_cases hit : Seen 0 list.ptbList rest slot ∧ mlnode2pid (list.memory slot.1 slot.2) = node.pid
    · simp [PtbMList.wiped, wipe, own, hit, occupied]
    · simp [PtbMList.wiped, wipe, own, hit]

/-- The node is found by the addresses of its table. -/
theorem search_finds {target : Nat} (registry : Registry (node ::ₘ nodes) list)
    (fresh : ∀ other ∈ nodes, other.table ≠ node.table) (outside : node.table.val ∉ list.pages)
    (contains : pageContains node.table target) {slot : Nat × Nat}
    (place : slot ∈ slots linkIndex list.pages) (stored : list.memory slot.1 slot.2 = node.word)
    (visible : slot.1 = list.ptbList ∨ slot.2 ≠ 0) :
    searchPtbMlist list target = some node.word := by
  have apart : ∀ page : Page, pageContains page target → page = node.table := by
    intro page inside
    obtain ⟨low, high⟩ := inside
    obtain ⟨start, stop⟩ := contains
    have aligned := page.property.1
    have other := node.table.property.1
    rw [pgsize_eq] at high stop aligned other
    exact Subtype.ext (by omega)
  obtain ⟨owner, inside⟩ := mem_slots.mp place
  have searchable : Searchable list target := by
    refine ⟨fun page member covers => ?_, ?_, .inr ⟨slot.1, owner, slot.2, inside, ?_, ?_⟩⟩
    · have same := apart ⟨page, registry.physical page member⟩ covers
      exact outside (congrArg Subtype.val same ▸ member)
    · have bounds := node.table.property.bounds
      have junk : mlnode2pa novalue = 0x0505050505050000 := by decide
      rw [junk]
      rintro ⟨low, -⟩
      have stop := contains.2
      rw [pgsize_eq] at stop
      omega
    · exact visible.imp_right Nat.one_le_iff_ne_zero.mpr
    · rw [stored]
      exact (covers_word node target).mpr contains
  obtain ⟨word, result, ⟨found, member, rfl, covers⟩ | ⟨-, none⟩⟩ :=
    registry_search registry searchable
  · rcases Multiset.mem_cons.mp member with rfl | other
    · exact result
    · exact absurd (apart found.table covers) (fresh found other)
  · exact absurd contains (none node (Multiset.mem_cons_self node nodes))

/-- A word that nothing else stores is in one slot only. -/
theorem stored_only {answer : Option Page} {slot other : Nat × Nat}
    (start : Registering nodes list answer node.table) (member : other ∈ slots linkIndex list.pages)
    (holds : (list.store slot.1 slot.2 node.word).memory other.1 other.2 = node.word) :
    other = slot := by
  by_contra different
  have apart : ¬(other.1 = slot.1 ∧ other.2 = slot.2) := fun same =>
    different (Prod.ext same.1 same.2)
  have old : list.memory other.1 other.2 = node.word := by
    rw [← holds]
    simp only [PtbMList.store, PageMemory.write_apply, if_neg apart]
  obtain ⟨another, inside, word⟩ := (start.registry.mem_iff node.word).mp
    ⟨other, member, old, emptySlot_word node⟩
  have table := congrArg mlnode2pa word
  rw [mlnode2pa_word, mlnode2pa_word] at table
  exact start.fresh another inside table

/-- A node in a slot that all loops look at is removed and found. -/
theorem kept_of_visible {answer : Option Page} {slot : Nat × Nat}
    (start : Registering nodes list answer node.table) (nonzero : node.pid ≠ 0)
    (found : (slots linkIndex list.pages).find? (list.hitAt emptySlot) = some slot)
    (visible : slot.1 = list.ptbList ∨ slot.2 ≠ 0) :
    ∃ after, registerPtbMlist list node answer = some after ∧ node.word ∈ after.words ∧
      (∃ next, deletePtbMlist after node.table = some next ∧ node.word ∉ next.words) ∧
      (∃ next, deletePtbMlistAll after node.pid = some next ∧ node.word ∉ next.words) ∧
      ∀ target, pageContains node.table target → searchPtbMlist after target = some node.word := by
  have registry := start.registry.fill node found
  have place := List.mem_of_find?_eq_some found
  have stored : (list.store slot.1 slot.2 node.word).memory slot.1 slot.2 = node.word := by
    simp [PtbMList.store]
  have fresh : ∀ other ∈ nodes, other.table ≠ node.table := fun other inside same =>
    start.fresh other inside (congrArg Subtype.val same)
  obtain ⟨rest, pages, -⟩ := registry.walk
  obtain ⟨next, result, remains⟩ := deleteAll_removes registry pages nonzero
  refine ⟨_, register_found start.registry found, List.mem_map.mpr ⟨slot, place, stored⟩,
    delete_removes registry fresh, ⟨next, result, fun member => ?_⟩,
    fun target contains => search_finds registry fresh start.outside contains place stored visible⟩
  obtain ⟨other, inside, holds, hidden⟩ := remains.mp member
  obtain rfl := stored_only start inside holds
  obtain ⟨owner, low⟩ := mem_slots.mp inside
  refine hidden ⟨?_, low⟩
  change other.1 ∈ (list.store other.1 other.2 node.word).pages at owner
  rw [pages] at owner
  rcases List.mem_cons.mp owner with first | later
  · exact .inl ⟨first, Nat.zero_le _⟩
  · by_cases first : other.1 = list.ptbList
    · exact .inl ⟨first, Nat.zero_le _⟩
    · exact .inr ⟨later, Nat.one_le_iff_ne_zero.mpr (visible.resolve_left first)⟩

/-- A node in slot 0 of a later page stays when those of its process are deleted. -/
theorem stays_of_hidden (registry : Registry nodes list)
    (nonzero : node.pid ≠ 0) {page : Nat} (inside : page ∈ list.pages)
    (stored : list.memory page 0 = node.word) (later : page ≠ list.ptbList) {next : PtbMList}
    (result : deletePtbMlistAll list node.pid = some next) : node.word ∈ next.words := by
  have slot : 0 < linkIndex := by decide
  obtain ⟨rest, pages, -⟩ := registry.walk
  obtain ⟨other, again, remains⟩ := deleteAll_removes registry pages nonzero
  obtain rfl : other = next := Option.some.inj (again.symm.trans result)
  refine remains.mpr ⟨(page, 0), mem_slots.mpr ⟨inside, slot⟩, stored, ?_⟩
  rintro ⟨⟨first, -⟩ | ⟨-, low⟩, -⟩
  · exact later first
  · exact absurd low (Nat.not_succ_le_zero 0)

end Kept

/-- A page table is tracked when the identifier of its process is not 0 and fits into ten
bits, and the first empty slot of the list is not slot 0 of a later page. -/
theorem owner_kept_iff {nodes : Multiset TableNode} {list : PtbMList} {answer : Option Page}
    {addr : Page} {level : Nat} (calls : Nat) (start : Registering nodes list answer addr)
    (low : level ≤ 2) :
    OwnerKept list answer addr (handedOut calls) level ↔
      (1 ≤ handedOut calls ∧ handedOut calls < 1024) ∧ FreeVisible list := by
  generalize handedOut calls = pid
  constructor
  · intro kept
    refine ⟨kept.fits, ?_⟩
    obtain ⟨first, last⟩ := kept.fits
    have fits : 0 ≤ pid ∧ pid < 1024 := ⟨by omega, last⟩
    obtain ⟨after, registered, -, -, ⟨next, deleted, removed⟩, -⟩ := kept.kept
    have nonzero : (nodeOf addr pid level fits low).pid ≠ 0 := by
      intro zero
      have value : pid.toNat = 0 := congrArg Fin.val zero
      omega
    have number : intWord pid = (nodeOf addr pid level fits low).pid := by
      change intWord pid = pid.toNat
      rw [intWord]
      omega
    rw [nodeWord_eq fits low] at registered removed
    rw [number] at deleted
    generalize nodeOf addr pid level fits low = node at registered deleted removed nonzero
    change registerPtbMlist list node answer = some after at registered
    cases found : (slots linkIndex list.pages).find? (list.hitAt emptySlot) with
    | some slot =>
      refine ⟨slot, found, ?_⟩
      by_contra hidden
      rw [not_or, not_not] at hidden
      rw [register_found start.registry found] at registered
      cases registered
      refine removed (stays_of_hidden (start.registry.fill node found) nonzero
        (mem_slots.mp (List.mem_of_find?_eq_some found)).1 ?_ hidden.1 deleted)
      simp [PtbMList.store, hidden.2]
    | none =>
      have full : ∀ slot ∈ slots linkIndex list.pages, list.hitAt emptySlot slot = false := by
        simpa using found
      obtain ⟨newpage, rfl⟩ : ∃ newpage, answer = some newpage := by
        rcases start.place with given | ⟨word, member, empty⟩
        · exact Option.ne_none_iff_exists'.mp given
        · obtain ⟨slot, within, rfl⟩ := List.mem_map.mp member
          have filled := full slot within
          simp [PtbMList.hitAt, empty] at filled
      have fresh := start.granted newpage rfl
      obtain ⟨front, final, split, result⟩ := register_full node newpage start.registry full
      obtain rfl := Option.some.inj (result.symm.trans registered)
      have home : list.ptbList ∈ list.pages :=
        List.mem_of_mem_head? start.registry.chain.first
      have inside : newpage.val ∈ (list.grown final newpage node.word).pages := by
        simp [PtbMList.grown, PtbMList.store]
      have different : newpage.val ≠ list.ptbList := fun same => fresh (same ▸ home)
      exact absurd (stays_of_hidden (start.registry.grow split node fresh) nonzero inside
        (PtbMList.grown_newpage (by decide)) different deleted) removed
  · rintro ⟨⟨first, last⟩, slot, found, visible⟩
    have fits : 0 ≤ pid ∧ pid < 1024 := ⟨by omega, last⟩
    obtain ⟨address, read, depth⟩ := fields_nodeWord fits low
    have nonzero : (nodeOf addr pid level fits low).pid ≠ 0 := by
      intro zero
      have value : pid.toNat = 0 := congrArg Fin.val zero
      omega
    have number : intWord pid = (nodeOf addr pid level fits low).pid := by
      change intWord pid = pid.toNat
      rw [intWord]
      omega
    refine ⟨address, read, depth, ?_, ?_⟩
    · intro procs p member same pagetable only
      subst same
      exact trackerOwner_eq member read (by omega) pagetable only
    · rw [nodeWord_eq fits low, number]
      exact kept_of_visible start nonzero found visible

/-- A page table for the sample list, which `mlistinit` has just set up. -/
def sampleTable : Page := ⟨0x87f50000, by decide⟩

theorem registering_sample : Registering 0 sampleList (some samplePage) sampleTable where
  registry := registry_booted booted_sampleList
  granted := by
    rintro page ⟨rfl⟩
    decide
  place := .inl (Option.some_ne_none samplePage)
  fresh := by simp
  outside := by decide

/-- The page table of the first process. -/
theorem owner_kept_iff_sample : OwnerKept sampleList (some samplePage) sampleTable (handedOut 0) 2 := by
  refine (owner_kept_iff 0 registering_sample (by decide)).mpr ⟨?_, (kernbase, 0), ?_, .inl rfl⟩
  · rw [handedOut_eq (by decide)]
    decide
  · decide +kernel

/-- The identifier 1024 sets a bit of the address. -/
theorem address_of_pid_1024 : ¬∀ nodes list answer (addr : Page) level calls,
    Registering nodes list answer addr → level ≤ 2 →
    OwnerKept list answer addr (handedOut calls) level := by
  intro always
  have kept := always 0 sampleList (some samplePage) sampleTable 0 1023 registering_sample
    (Nat.zero_le 2)
  have read := kept.addressRead
  rw [handedOut_eq (by decide)] at read
  exact absurd read (by decide)

end Ev6.MList.PageTables
