import Ev6.AddressSpace.Reclamation

/-!
# Freeing pages

No call frees a page twice, or a page that is in use, and `kfree` and the search of
`idx_ptdup` do not panic, whatever the calls that go on are in the middle of. This is about
the runs in which an index of `idx_ptdup` is claimed only for a root that it does not hold:
then the search finds the index of the page table that it is for.
-/

namespace Ev6.AddressSpace

open Multiset (count_add mem_add mem_coe nodup_iff_count_le_one one_le_count_iff_mem)
open Support

/-- A process has the page. -/
def Machine.Has (machine : Machine) (page : Page) : Prop :=
  ∃ i p, (machine.slots i).process = some p ∧ page ∈ p.pages

/-- A page is freed by one call only, once it is in no other place. A page that is free is in no
other place, so that `kalloc` does not give a page that is in use. -/
structure Machine.FreesOnce (machine : Machine) : Prop where
  fine : ∀ i page, (machine.slots i).nextOp = some (.kfree page) →
    (machine.memory.kfree page).1 = true
  apart : ∀ i page, (machine.slots i).nextOp = some (.kfree page) →
    page ∉ machine.memory.free ∧ page ∉ machine.memory.nodes ∧ page ∉ machine.kernel ∧
      ¬ machine.Has page ∧ ∀ j, j ≠ i → (machine.slots j).nextOp ≠ some (.kfree page)
  free : machine.memory.free.Nodup ∧ ∀ page ∈ machine.memory.free,
    page ∉ machine.memory.nodes ∧ page ∉ machine.kernel ∧ ¬ machine.Has page
  found : ∀ i root, (machine.slots i).nextOp = some (.findPtdup root) →
    root ∈ machine.memory.idxPtdup
  single : machine.memory.idxPtdup.Nodup

/-! ## What a call has -/

variable {strict : Prop} {own held : Holding} {slot : Slot} {op : Op} {page : Page} {p : Proc}

theorem Proc.count_holding (p : Proc) (page : Page) :
    p.holding.count (.page page) = (p.pages : Multiset Page).count page := by
  rw [← count_filterMap asPage_eq_some]
  have share := congrArg Share.pages (share_holding p)
  exact congrArg (Multiset.count page) share

theorem takes_of_holds {α : Type} {program : Prog α} {post : α → Holding → Prop}
    (holds : (custody strict).Holds held program post) (due : program.nextOp = some op)
    (single : Single held) : ∃ frame tables, takes op + frame = held + items .entry tables := by
  cases program with
  | call first rest =>
    cases due
    obtain ⟨frame, ⟨tables, same⟩, -⟩ := holds single
    exact ⟨frame, tables, same⟩
  | done result => cases due
  | fault reason => cases due

/-- A call has what its next operation takes, beside what its process has. -/
theorem Slot.Meets.takes (meets : slot.Meets strict own) (due : slot.nextOp = some op)
    (single : Single own) : ∃ front more frame tables, own = front + more ∧
      (∀ p, slot.process = some p → front = p.holding) ∧
        AddressSpace.takes op + frame = more + items .entry tables := by
  cases slot with
  | boot rest =>
    obtain ⟨frame, tables, same⟩ := takes_of_holds meets due single
    exact ⟨0, own, frame, tables, (zero_add own).symm, fun p known => (by cases known), same⟩
  | exec q rest =>
    obtain ⟨frame, tables, same⟩ := takes_of_holds meets due single
    exact ⟨0, own, frame, tables, (zero_add own).symm, fun p known => (by cases known), same⟩
  | sbrk q n rest =>
    obtain ⟨frame, tables, same⟩ := takes_of_holds meets.1 due single
    exact ⟨0, own, frame, tables, (zero_add own).symm, fun p known => (by cases known), same⟩
  | fork q child rest =>
    obtain ⟨-, more, rfl, holds⟩ := meets
    rw [add_comm] at single
    obtain ⟨frame, tables, same⟩ :=
      takes_of_holds holds due ((custody strict).valid_left single)
    exact ⟨q.holding, more, frame, tables, rfl,
      fun p known => by rw [Option.some.inj known], same⟩
  | wait q child rest =>
    obtain ⟨-, more, rfl, holds⟩ := meets
    rw [add_comm] at single
    obtain ⟨frame, tables, same⟩ :=
      takes_of_holds holds due ((custody strict).valid_left single)
    exact ⟨q.holding, more, frame, tables, rfl,
      fun p known => by rw [Option.some.inj known], same⟩
  | unused | reserved | user q | zombie q => cases due

/-! ## All calls -/

namespace Machine

variable {all : List Page} {machine : Machine} {owns : Fin nproc → Holding} {lost : Holding}
variable {i j : Fin nproc}

/-- A call that is to free a page has it once more than its process. -/
theorem Shares.count_freed (shares : machine.Shares strict all owns lost)
    (due : (machine.slots i).nextOp = some (.kfree page)) (single : Single (owns i)) :
    1 ≤ (owns i).count (.page page) ∧ ∀ p, (machine.slots i).process = some p → page ∉ p.pages := by
  obtain ⟨front, more, frame, tables, split, process, takes⟩ :=
    (shares.meets i).takes due single
  have some : 1 ≤ more.count (.page page) := by
    have count := congrArg (Multiset.count (Item.page page)) takes
    have freed : (AddressSpace.takes (.kfree page)).count (.page page) = 1 :=
      Multiset.count_singleton_self _
    rw [count_add, count_add, count_items_entry, freed] at count
    omega
  have once := single page
  rw [split, count_add] at once ⊢
  refine ⟨by omega, fun p known member => ?_⟩
  have has := one_le_count_iff_mem.mpr (mem_coe.mpr member)
  rw [process p known, p.count_holding] at once
  omega

theorem Shares.oneSlot (shares : machine.Shares strict all owns lost) (i : Fin nproc) :
    ∃ rest, Accounts all machine.memory (owns i + (items .page machine.kernel + rest)) := by
  obtain ⟨rest, sum⟩ := sum_rest owns i
  have whole := sum (owns i)
  rw [Function.update_eq_self] at whole
  refine ⟨rest + lost, ?_⟩
  have split : owns i + (items .page machine.kernel + (rest + lost)) =
      ∑ k, owns k + (items .page machine.kernel + lost) := by
    rw [whole]
    abel
  rw [split]
  exact shares.kept.accounts

theorem Shares.twoSlots (shares : machine.Shares strict all owns lost) (apart : i ≠ j) :
    ∃ rest, Accounts all machine.memory (owns i + (owns j + rest)) := by
  obtain ⟨rest, sum⟩ := sum_rest_two owns apart
  have whole := sum (owns i) (owns j)
  rw [Function.update_eq_self, Function.update_eq_self] at whole
  refine ⟨rest + (items .page machine.kernel + lost), ?_⟩
  have split : owns i + (owns j + (rest + (items .page machine.kernel + lost))) =
      ∑ k, owns k + (items .page machine.kernel + lost) := by
    rw [whole]
    abel
  rw [split]
  exact shares.kept.accounts

theorem Shares.single (shares : machine.Shares strict all owns lost) (i : Fin nproc) :
    Single (owns i) := by
  obtain ⟨rest, accounts⟩ := shares.oneSlot i
  exact (custody strict).valid_left accounts.single

theorem Shares.count_process (shares : machine.Shares strict all owns lost)
    (here : (machine.slots i).process = some p) (member : page ∈ p.pages) :
    1 ≤ (owns i).count (.page page) := by
  obtain ⟨-, rest, split⟩ := shares.process here
  have has := one_le_count_iff_mem.mpr (mem_coe.mpr member)
  rw [split, count_add, p.count_holding]
  omega

theorem Shares.only (shares : machine.Shares strict all owns lost)
    (has : 1 ≤ (owns i).count (.page page)) :
    page ∉ machine.memory.free ∧ page ∉ machine.memory.nodes ∧ page ∉ machine.kernel ∧
      ∀ j, j ≠ i → (owns j).count (.page page) = 0 := by
  obtain ⟨rest, accounts⟩ := shares.oneSlot i
  have known := accounts.pages page
  have once := nodup_iff_count_le_one.mp accounts.once page
  rw [count_add, count_add, count_items_page, Memory.stock] at known
  refine ⟨fun member => ?_, fun member => ?_, fun member => ?_, fun j other => ?_⟩
  · have one := one_le_count_iff_mem.mpr (mem_coe.mpr member)
    omega
  · have one := one_le_count_iff_mem.mpr (mem_coe.mpr member)
    omega
  · have one := one_le_count_iff_mem.mpr (mem_coe.mpr member)
    omega
  · obtain ⟨rest, accounts⟩ := shares.twoSlots other.symm
    have single := accounts.single page
    rw [count_add, count_add] at single
    omega

theorem Shares.freesOnce (shares : machine.Shares strict all owns lost)
    (roots : machine.memory.idxPtdup.Nodup) : machine.FreesOnce := by
  refine ⟨fun i page due => ?_, fun i page due => ?_, ⟨?_, fun page free => ?_⟩,
    fun i root due => ?_, roots⟩
  · obtain ⟨has, -⟩ := shares.count_freed due (shares.single i)
    obtain ⟨rest, accounts⟩ := shares.oneSlot i
    have member : .page page ∈ owns i + (items .page machine.kernel + rest) :=
      mem_add.mpr (.inl (Multiset.count_pos.mp (by omega)))
    unfold Memory.kfree
    rw [if_pos (accounts.above page (accounts.mem member))]
  · obtain ⟨has, own⟩ := shares.count_freed due (shares.single i)
    obtain ⟨free, node, kernel, others⟩ := shares.only has
    refine ⟨free, node, kernel, ?_, fun j other again => ?_⟩
    · rintro ⟨j, p, there, member⟩
      by_cases same : j = i
      · subst same
        exact own p there member
      · have none := others j same
        have some := shares.count_process there member
        omega
    · have none := others j other
      have some := (shares.count_freed again (shares.single j)).1
      omega
  · refine Multiset.coe_nodup.mp (nodup_iff_count_le_one.mpr fun page => ?_)
    have known := shares.kept.accounts.pages page
    have once := nodup_iff_count_le_one.mp shares.kept.accounts.once page
    rw [Memory.stock] at known
    omega
  · have one := one_le_count_iff_mem.mpr (mem_coe.mpr free)
    have known := shares.kept.accounts.pages page
    have once := nodup_iff_count_le_one.mp shares.kept.accounts.once page
    rw [count_add, count_add, count_items_page, Memory.stock] at known
    refine ⟨fun member => ?_, fun member => ?_, ?_⟩
    · have two := one_le_count_iff_mem.mpr (mem_coe.mpr member)
      omega
    · have two := one_le_count_iff_mem.mpr (mem_coe.mpr member)
      omega
    · rintro ⟨j, p, there, member⟩
      exact (shares.only (shares.count_process there member)).1 free
  · obtain ⟨front, more, frame, tables, split, -, takes⟩ :=
      (shares.meets i).takes due (shares.single i)
    obtain ⟨rest, accounts⟩ := shares.oneSlot i
    have count := congrArg (Multiset.count (Item.claim root)) takes
    have claimed : (AddressSpace.takes (.findPtdup root)).count (.claim root) = 1 :=
      Multiset.count_singleton_self _
    have none : (items .entry tables).count (.claim root) = 0 := by
      rw [← count_filterMap asClaim_eq_some, filterMap_items_none fun _ => rfl]
      rfl
    rw [count_add, count_add, none, claimed] at count
    have known := accounts.claims root
    rw [split, count_add, count_add] at known
    exact mem_coe.mp (one_le_count_iff_mem.mp (by omega))

/-- In every run that claims indices for new roots only, whatever fails and however the calls of
the processes interleave, a page is freed once. -/
theorem freesOnce_of_runs {trampoline : Page} {events : List Event}
    (runs : ((system trampoline all).guarded ClaimsNew).Runs events machine) :
    machine.FreesOnce := by
  obtain ⟨owns, lost, shares⟩ := sound_of_runs runs.forgetGuard
  exact shares.freesOnce (idxPtdup_nodup_of_runs runs)

/-- The page that an operation frees. -/
def freed : Op → Option Page
  | .kfree page => some page
  | _ => none

theorem op_of_freed {op : Op} (frees : freed op = some page) : op = .kfree page := by
  unfold freed at frees
  split at frees
  · rw [Option.some.inj frees]
  · cases frees

/-- The first process is in the middle of freeing the child that it has waited for. -/
theorem freesOnce_in_wait : ∃ events machine page,
    ((system (pageNo 7) (bootPages 40)).guarded ClaimsNew).Runs events machine ∧
      (machine.slots 0).nextOp = some (.kfree page) ∧ machine.FreesOnce := by
  let events := bootEvents ++ callEvents (.sbrk 0 8192) 0 4 ++ callEvents (.fork 0 1) 0 46 ++
    [.exit 1, .wait 0 1]
  have found : (LabelledSystem.exec (LabelledSystem.checked ClaimsNew (step (pageNo 7)))
      (bootMachine 40) events).any (fun machine =>
        ((machine.slots 0).nextOp.bind freed).isSome) = true := by
    decide +kernel
  obtain ⟨machine, result, facts⟩ := (Option.any_eq_true _ _).mp found
  obtain ⟨page, frees⟩ := Option.isSome_iff_exists.mp facts
  obtain ⟨op, due, frees⟩ := Option.bind_eq_some_iff.mp frees
  have runs : ((system (pageNo 7) (bootPages 40)).guarded ClaimsNew).Runs events machine :=
    .of_checked_exec (bootMachine_boots (by decide)) result
  exact ⟨events, machine, page, runs, op_of_freed frees ▸ due, freesOnce_of_runs runs⟩

end Machine

end Ev6.AddressSpace
