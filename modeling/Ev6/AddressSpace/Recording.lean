import Ev6.AddressSpace.Freeing

/-!
# Records of page tables

While a process lives, the M-List should have one node for each of its page tables, with its
identifier, and `idx_ptdup` its root once. The page tables of the first process are made while
`nextpid` is 2, and then `walk` does not register those that it adds. They are not recorded
when `userinit` returns, whatever pages `kalloc` gives and the rest of the kernel takes.
-/

namespace Ev6.AddressSpace

open Function (update update_of_ne update_self)
open MList.PageTables (mlnode2pa mlnode2pid)
open Support PageTable

/-- The page tables of a process are recorded. -/
structure Proc.Recorded (p : Proc) (memory : Memory) : Prop where
  node : ∀ page ∈ p.table.tablePages, ∃ word,
    memory.ptbList.filter (fun word => mlnode2pa word = page.val) = [word] ∧
      mlnode2pid word = p.pid
  index : memory.idxPtdup.filter (fun root => root.val = p.table.root.val) = [p.table.root]

/-- A slot is in `userinit`. -/
def Slot.isBoot : Slot → Bool
  | boot _ => true
  | _ => false

/-- The page tables of all processes that are between two calls are recorded. -/
def Machine.Recorded (machine : Machine) : Prop :=
  ∀ i p, machine.slots i = .user p → p.Recorded machine.memory

/-! ## Calls of `userinit` -/

/-- A thread holds the right to so many calls of `register_ptb_mlist` and of `allocpid`, and
reads `nextpid` as 2 or less. -/
def permits : Contract Op Answer (Nat × Nat) where
  takes
    | .registerPtbMlist _ _ _ => (1, 0)
    | .allocpid => (0, 1)
    | _ => 0
  gives _ _ := 0
  learns
    | .nextpid, nextpid => nextpid ≤ 2
    | _, _ => True
  Valid _ := True
  Update held kept := held = kept
  valid_left _ := trivial
  valid_update _ _ := trivial
  update_refl _ := rfl
  update_trans first second := first.trans second

/-- The M-List has one node at most, and `nextpid` is at most 2, with the calls still to come. -/
def Memory.Within (memory : Memory) (held : Nat × Nat) : Prop :=
  memory.ptbList.length + held.1 ≤ 1 ∧ memory.nextpid + held.2 ≤ 2

theorem Memory.Within.backed : permits.Backed Memory.Within where
  valid _ := trivial
  update same within := same ▸ within

theorem Memory.Within.performs (op : Op) : permits.Performs Memory.Within Memory.perform op := by
  rintro memory ⟨nodes, pids⟩ ⟨few, early⟩
  have same (idle : permits.takes op = 0) : memory.Within (0 + (nodes, pids)) := by
    rw [idle] at few early
    exact ⟨few, early⟩
  cases op with
  | registerPtbMlist pid table level =>
    have shorter : memory.ptbList.length + (1 + nodes) ≤ 1 := few
    have kept : memory.nextpid + (0 + pids) ≤ 2 := early
    refine ⟨trivial, ?_⟩
    simp only [perform, registerPtbMlist]
    split
    · split
      · exact ⟨by show memory.ptbList.length + (0 + nodes) ≤ 1; omega, kept⟩
      · exact ⟨by show memory.ptbList.length + 1 + (0 + nodes) ≤ 1; omega, kept⟩
    · exact ⟨by show memory.ptbList.length + 1 + (0 + nodes) ≤ 1; omega, kept⟩
  | deletePtbMlist table =>
    have shorter := List.length_eraseP_le (l := memory.ptbList)
      (p := fun word => mlnode2pa word = table.val)
    exact ⟨trivial, (Nat.add_le_add_right shorter _).trans few, early⟩
  | deletePtbMlistAll pid =>
    have shorter := List.length_filter_le (fun word => mlnode2pid word ≠ pid) memory.ptbList
    exact ⟨trivial, (Nat.add_le_add_right shorter _).trans few, early⟩
  | allocpid =>
    have kept : memory.nextpid + (1 + pids) ≤ 2 := early
    exact ⟨trivial, few, by show memory.nextpid + 1 + (0 + pids) ≤ 2; omega⟩
  | nextpid => exact ⟨(Nat.le_add_right _ _).trans early, same rfl⟩
  | kalloc | kfree page | claimPtdup root | initRcsInfos pid | registerTransInfo pid =>
    refine ⟨trivial, ?_⟩
    simp only [perform, kalloc, kfree, claimPtdup, initRcsInfos, registerTransInfo]
    split <;> exact same rfl
  | _ => exact ⟨trivial, same rfl⟩

/-- A program that needs none of these calls. -/
def Quiet {α : Type} (program : Prog α) : Prop :=
  ∀ held, permits.Holds held program fun _ kept => kept = held

namespace Quiet

variable {α β : Type} {program : Prog α} {table : Table} {self n : Nat} {page : Page}

theorem pure (result : α) : Quiet (Pure.pure result : Prog α) := fun _ => .pure rfl

theorem fault (panic : Panic) : Quiet (.fault panic : Prog α) := fun _ => .fault

theorem before {second : α → Prog β} {held : Nat × Nat} {post : β → Nat × Nat → Prop}
    (quiet : Quiet program) (after : ∀ result, permits.Holds held (second result) post) :
    permits.Holds held (program >>= second) post := by
  refine (quiet held).bind fun result kept same => ?_
  subst same
  exact after result

theorem bind {second : α → Prog β} (quiet : Quiet program)
    (after : ∀ result, Quiet (second result)) :
    Quiet (program >>= second) :=
  fun held => quiet.before fun result => after result held

theorem call (op : Op) (idle : permits.takes op = 0) : Quiet (AddressSpace.call op) := by
  intro held
  have holds := @Contract.Holds.perform _ Panic _ _ _ permits held op
  rw [idle, zero_add] at holds
  exact holds.mono fun answer kept met => met.2.trans (zero_add held)

theorem kallocOr (panic : Panic) : Quiet (AddressSpace.kallocOr panic) := by
  refine (call .kalloc rfl).bind fun found => ?_
  cases found with
  | none => exact fault panic
  | some page => exact pure page

theorem l0PtesAdd : Quiet table.l0PtesAdd := by
  have pages (count : Nat) : Quiet (takePages count) := by
    induction count with
    | zero => exact pure []
    | succ count ih => exact (kallocOr _).bind fun page => ih.bind fun pages => pure _
  have found : Quiet (findPtdupOr table.root .l0PtesAddNoIndex) := by
    refine (call (.findPtdup table.root) rfl).bind fun found => ?_
    cases found with
    | false => exact fault _
    | true => exact pure ()
  exact found.bind fun _ => ((call .recordPages rfl).bind pages).bind fun pages => pure _

theorem nextpid {rest : Nat → Prog α} (after : ∀ nextpid ≤ 2, Quiet (rest nextpid)) :
    Quiet (AddressSpace.call .nextpid >>= rest) := by
  refine fun held _ => ⟨held, (zero_add held).symm, fun nextpid early => ?_⟩
  rw [show permits.gives .nextpid nextpid + held = held from zero_add held]
  exact after nextpid early held

/-- As long as `nextpid` is at most 2, nothing is registered behind a table that `walk` adds. -/
theorem added {level : Level} {duplicated alone : Prog α} (quiet : Quiet alone) :
    Quiet (do
      Table.registerAdded self page level
      let nextpid ← AddressSpace.call .nextpid
      if 2 < nextpid then duplicated else alone) := by
  have registered : Quiet (Table.registerAdded self page level) := by
    refine nextpid fun nextpid early => ?_
    rw [if_neg (Nat.not_lt.mpr early)]
    exact pure ()
  refine registered.bind fun _ => nextpid fun nextpid early => ?_
  rw [if_neg (Nat.not_lt.mpr early)]
  exact quiet

theorem walk : Quiet (table.walk self n) := by
  have first (i : Nat) : Quiet (table.enterL1 self i) := by
    unfold Table.enterL1
    split
    · exact pure _
    · refine (call .kalloc rfl).bind fun found => ?_
      cases found with
      | none => exact pure _
      | some page => exact added (pure _)
  have second (entered : Table) (i j : Nat) : Quiet (entered.enterL0 self i j) := by
    unfold Table.enterL0
    split
    · exact pure _
    · refine (call .kalloc rfl).bind fun found => ?_
      cases found with
      | none => exact pure _
      | some page => exact added (pure _)
  unfold Table.walk
  split
  · exact fault _
  · refine (first _).bind fun answer => ?_
    obtain ⟨there, entered⟩ := answer
    cases there with
    | false => exact pure _
    | true => exact second entered _ _

theorem mappages (perm : Nat) : Quiet (table.mappages self n page perm) := by
  refine walk.bind fun answer => ?_
  obtain ⟨there, walked⟩ := answer
  cases there with
  | false => exact pure _
  | true =>
    dsimp only
    rw [if_pos rfl]
    split
    · exact fault _
    · exact pure _

theorem mapRecorded (perm : Nat) : Quiet (table.mapRecorded self n page perm) :=
  (mappages perm).bind fun _ => l0PtesAdd

theorem ptdupInit (root : Page) : Quiet (Table.ptdupInit root) := by
  refine (call (.claimPtdup root) rfl).bind fun claimed => ?_
  cases claimed with
  | false => exact fault _
  | true =>
    exact (kallocOr _).bind fun _ => (kallocOr _).bind fun _ => (kallocOr _).bind fun _ =>
      (kallocOr _).bind fun _ => pure _

end Quiet

/-- `proc_pagetable` registers the root only. -/
theorem procPagetable_permits (trampoline tf : Page) (pid : Nat) :
    permits.Holds (1, 0) (Table.procPagetable trampoline 0 pid tf) fun _ _ => True := by
  refine (Quiet.kallocOr _).before fun root => (Quiet.ptdupInit root).before fun duplicate => ?_
  refine fun _ => ⟨0, rfl, fun _ _ => ?_⟩
  refine (Quiet.mapRecorded _).before fun table => ?_
  exact ((Quiet.mapRecorded _) _).mono fun _ _ _ => trivial

theorem userinit_permits (trampoline : Page) :
    permits.Holds (1, 1) (userinit trampoline) fun _ _ => True := by
  have made : permits.Holds (1, 1) (allocproc trampoline 0) fun _ _ => True := by
    refine fun _ => ⟨(1, 0), rfl, fun pid _ => ?_⟩
    refine (Quiet.call .kalloc rfl).before fun found => ?_
    cases found with
    | none => exact .pure trivial
    | some tf =>
      refine (procPagetable_permits trampoline _ _).bind fun table kept _ => ?_
      exact (Quiet.call (.initRcsInfos _) rfl).before fun _ => .pure trivial
  refine made.bind fun found kept _ => ?_
  cases found with
  | none => exact .fault
  | some p =>
    refine (Quiet.call (.registerTransInfo 1) rfl).before fun _ => ?_
    have mapped : Quiet (p.table.uvminit 0) :=
      (Quiet.kallocOr _).bind fun mem => Quiet.mapRecorded userPerm
    exact mapped.before fun table => .pure trivial

/-! ## Runs -/

namespace Machine

variable {all : List Page} {machine next : Machine} {events : List Event} {trampoline : Page}

/-- The machine is in `userinit`, with the calls that are left to it. -/
def Booting (machine : Machine) : Prop :=
  ∃ i rest held, machine.slots = update (fun _ => .unused) i (.boot rest) ∧
    permits.Holds held rest (fun _ _ => True) ∧ machine.memory.Within (held + 0)

theorem Booting.step {event : Event} (booting : machine.Booting)
    (taken : machine.step trampoline event = some next) :
    next.Booting ∨ ∃ i p, next.slots i = .user p ∧ (p.table.leaf 0).isSome = true ∧
      next.memory.ptbList.length ≤ 1 := by
  obtain ⟨i, rest, held, slots, holds, within⟩ := booting
  have here (j : Fin nproc) : machine.slots j = if j = i then .boot rest else .unused := by
    rw [slots]
    by_cases same : j = i
    · rw [if_pos same, same, update_self]
    · rw [if_neg same, update_of_ne same]
  unfold Machine.step at taken
  cases event with
  | step j =>
    obtain ⟨⟨slot, memory⟩, done, rfl⟩ := Option.map_eq_some_iff.mp taken
    rw [here] at done
    split at done
    · next same =>
       obtain ⟨⟨left, after⟩, went, result⟩ := Option.map_eq_some_iff.mp done
       cases result
       obtain ⟨kept, further, within, -⟩ := holds.advance Memory.Within.backed
         (fun op _ => Memory.Within.performs op) within went
       refine .inl ⟨i, left, kept, ?_, further, within⟩
       simp [setSlot, slots, same]
    · cases done
  | ret j =>
    dsimp only [Machine.ret] at taken
    rw [here] at taken
    split at taken
    · next p found =>
       obtain ⟨there, done⟩ := Option.ite_none_right_eq_some.mp taken
       cases done
       exact .inr ⟨j, p, update_self .., there, (Nat.le_add_right _ _).trans within.1⟩
    all_goals grind
  | take =>
    dsimp only at taken
    split at taken
    · next page memory given =>
       cases taken
       have after := (Memory.Within.performs .kalloc machine.memory held
         (by rwa [add_comm] at within)).2
       rw [show machine.memory.perform .kalloc = (some page, memory) from given, add_comm] at after
       exact .inl ⟨i, rest, held, slots, holds, after⟩
    · cases taken
  | give page =>
    obtain ⟨⟨-, fine⟩, done⟩ := Option.ite_none_right_eq_some.mp taken
    cases done
    have after := (Memory.Within.performs (.kfree page) machine.memory held
      (by rwa [add_comm] at within)).2
    rw [add_comm] at after
    exact .inl ⟨i, rest, held, slots, holds, after⟩
  | fork j child | exec j image | sbrk j n | exit j | wait j child =>
    dsimp only at taken
    rw [here] at taken
    grind

/-- A process that is recorded has more than one node in the M-List. -/
theorem Sound.unrecorded {strict : Prop} {i : Fin nproc} {p : Proc}
    (sound : machine.Sound strict all)
    (here : machine.slots i = .user p) (there : (p.table.leaf 0).isSome = true)
    (few : machine.memory.ptbList.length ≤ 1) : ¬ machine.Recorded := by
  intro recorded
  obtain ⟨own, lost, shares⟩ := sound
  have meets := shares.meets i
  rw [here] at meets
  obtain ⟨value, sized⟩ := meets
  obtain ⟨rest, accounts⟩ := shares.oneSlot i
  obtain ⟨page, found⟩ : ∃ page, AssocList.find p.table.l0 (index2 0, index1 0) = some page := by
    have reached := sized.filled.reached 0 there
    rw [Table.reaches, Bool.and_eq_true] at reached
    exact Option.isSome_iff_exists.mp reached.2
  have lower : page ∈ p.table.l0.map Prod.snd := AssocList.find_mem found
  have named (page : Page) (table : page ∈ p.table.tablePages) :
      ∃ word ∈ machine.memory.ptbList, mlnode2pa word = page.val := by
    obtain ⟨word, node, -⟩ := (recorded i p here).node page table
    have member : word ∈ machine.memory.ptbList.filter fun word => mlnode2pa word = page.val := by
      rw [node]
      exact List.mem_singleton_self word
    obtain ⟨listed, names⟩ := List.mem_filter.mp member
    exact ⟨word, listed, of_decide_eq_true names⟩
  obtain ⟨first, listed, names⟩ := named page (List.mem_append_left _ lower)
  obtain ⟨second, listedToo, namesRoot⟩ := named p.table.root (by simp [Table.tablePages])
  have same : page = p.table.root := by
    obtain ⟨m, low, rfl⟩ := List.mem_iff_getElem.mp listed
    obtain ⟨n, lowToo, rfl⟩ := List.mem_iff_getElem.mp listedToo
    obtain rfl : m = n := by omega
    exact Subtype.ext (names.symm.trans namesRoot)
  -- The process would hold its root twice.
  have once := accounts.single page
  obtain ⟨others, split⟩ := p.holding_eq
  have count := Multiset.one_le_count_iff_mem.mpr (Multiset.mem_coe.mpr lower)
  rw [value, split, Proc.kernelPages, Table.tablePages] at once
  simp only [Multiset.count_add, count_items_page, Multiset.coe_count, List.count_cons,
    List.count_append, ← same, beq_self_eq_true, if_true] at once count
  omega

/-- In every run that gets past `userinit`, there is a state in which the page tables are not
recorded. -/
theorem unrecorded_of_runs (runs : (system trampoline all).Runs events machine)
    (past : ∀ i, (machine.slots i).isBoot = false) :
    ∃ earlier before, earlier <+: events ∧ (system trampoline all).Runs earlier before ∧
      ¬ before.Recorded := by
  have known : machine.Booting ∨ ∃ earlier before, earlier <+: events ∧
      (system trampoline all).Runs earlier before ∧ ¬ before.Recorded := by
    clear past
    induction runs with
    | initial boots =>
      obtain ⟨i, slots⟩ := boots.slots
      refine .inl ⟨i, _, (1, 1), slots, userinit_permits trampoline, ?_, ?_⟩
      · rw [boots.fresh.ptbList]
        exact Nat.le_refl 1
      · rw [boots.fresh.nextpid]
        exact Nat.le_refl 2
    | step prior taken ih =>
      obtain booting | ⟨earlier, before, first, runs, bad⟩ := ih
      · obtain booting | ⟨i, p, here, there, few⟩ := booting.step taken
        · exact .inl booting
        · have runs := prior.step taken
          exact .inr ⟨_, _, List.prefix_rfl, runs,
            (sound_of_runs runs).unrecorded here there few⟩
      · exact .inr ⟨earlier, before, first.trans (List.prefix_append _ _), runs, bad⟩
  obtain ⟨i, rest, -, slots, -⟩ | found := known
  · have never := past i
    rw [slots, update_self] at never
    cases never
  · exact found

/-- The first process forks. -/
def forkEvents : List Event := bootEvents ++ callEvents (.fork 0 1) 0 40

theorem unrecorded_of_runs_forked : ∃ machine,
    (system (pageNo 7) (bootPages 40)).Runs forkEvents machine ∧
      (∀ i, (machine.slots i).isBoot = false) ∧ ∃ earlier before, earlier <+: forkEvents ∧
        (system (pageNo 7) (bootPages 40)).Runs earlier before ∧ ¬ before.Recorded := by
  have found : (LabelledSystem.exec (step (pageNo 7)) (bootMachine 40) forkEvents).any
      (fun machine => (List.finRange nproc).all fun i => !(machine.slots i).isBoot) = true := by
    decide +kernel
  obtain ⟨machine, result, facts⟩ := (Option.any_eq_true _ _).mp found
  have past (i : Fin nproc) : (machine.slots i).isBoot = false := by
    simpa using List.all_eq_true.mp facts i (List.mem_finRange i)
  have runs : (system (pageNo 7) (bootPages 40)).Runs forkEvents machine :=
    .of_exec (bootMachine_boots (by decide)) result
  exact ⟨machine, runs, past, unrecorded_of_runs runs past⟩

/-- When `userinit` returns, the M-List has no node for the L0 table of the page at address 0. -/
theorem first_process_unrecorded : ¬ ∀ events machine,
    (system (pageNo 7) (bootPages 40)).Runs events machine → machine.Recorded := by
  intro always
  have found : (LabelledSystem.exec (step (pageNo 7)) (bootMachine 40) bootEvents).any
      (fun machine => decide (machine.memory.ptbList.length ≤ 1) &&
        (userProcess (machine.slots 0)).any fun p => (p.table.leaf 0).isSome) = true := by
    decide +kernel
  obtain ⟨machine, result, facts⟩ := (Option.any_eq_true _ _).mp found
  obtain ⟨few, facts⟩ := (Bool.and_eq_true _ _).mp facts
  obtain ⟨p, user, there⟩ := (Option.any_eq_true _ _).mp facts
  have runs : (system (pageNo 7) (bootPages 40)).Runs bootEvents machine :=
    .of_exec (bootMachine_boots (by decide)) result
  exact (sound_of_runs runs).unrecorded (slot_of_userProcess user) there
    (of_decide_eq_true few) (always _ _ runs)

end Machine

end Ev6.AddressSpace
