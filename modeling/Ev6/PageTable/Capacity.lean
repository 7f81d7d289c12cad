import Ev6.PageTable.Ptdup
import Ev6.Support.Assignment
import Ev6.Support.LabelledSystem

/-!
# The capacity of `idx_ptdup`

`ptdup_init` gives each user page table an index of `idx_ptdup`, and `ptdup_delete_all`
takes it back. The array has two indexes more than there are processes, but a process in
`exec` has two page tables, and `ptdup_delete_all` still holds the index of a page table
that is otherwise gone. `index_of_roomy_run` is about the runs in which a page table is
only made while fewer than `PTDUP_SIZE` are there, `third_exec_panics` is a run of the
other kind.
-/

namespace Ev6.PageTable.Capacity

open Function (update update_eq_self update_idem update_of_ne update_self)
open Support

/-! ## The model -/

/-- The page tables of a process: `p->pagetable`, and the other one that `exec` has. -/
inductive Side where
  | main
  | spare
deriving DecidableEq

instance : Fintype Side where
  elems := {.main, .spare}
  complete := by
    intro side
    cases side <;> decide

/-- Where the work on the page tables of a process is. -/
inductive Stage where
  | unused
  /-- `allocproc` has chosen the slot and calls `proc_pagetable` next. -/
  | alloc
  /-- `allocproc` has returned to `fork`. -/
  | copy
  | live
  /-- `exec` has made the second page table. -/
  | exec
  /-- `proc_freepagetable` has given back the pages of the page table, and calls
  `ptdup_delete_all` next. -/
  | free (side : Side)
  /-- `ptdup_delete_all` has found an index, and empties it last. -/
  | clear (side : Side) (i : Fin ptdupSize)
  | zombie
deriving DecidableEq

/-- A slot of `proc[]`. `worker` is the process whose `fork` or `wait` works on it. -/
structure Proc where
  table : Side → Option Nat
  stage : Stage
  worker : Option (Fin nproc)

/-- `idx_ptdup` and the processes. `panicked` says that `ptdup_init` has panicked. -/
structure State where
  idxPtdup : Fin ptdupSize → Nat
  proc : Fin nproc → Proc
  panicked : Bool

namespace State

/-- Replace one slot of the process table. -/
def setProc (state : State) (q : Fin nproc) (proc : Proc) : State :=
  { state with proc := update state.proc q proc }

/-- A process works on no other slot. -/
def Idle (state : State) (p : Fin nproc) : Prop := ∀ q, (state.proc q).worker ≠ some p

instance (state : State) (p : Fin nproc) : Decidable (state.Idle p) := by
  unfold Idle
  infer_instance

/-- The loop over `idx_ptdup`, which stops at the first index with a page table; with 0
it looks for an empty index. -/
def index (state : State) (pagetable : Nat) : Option (Fin ptdupSize) :=
  (List.finRange ptdupSize).find? fun i => state.idxPtdup i == pagetable

/-- `proc_pagetable` with the page that `kalloc` has returned: `ptdup_init` takes the
first empty index, or panics. -/
def create (state : State) (q : Fin nproc) (side : Side) (page : Nat) (next : Stage) : State :=
  match state.index 0 with
  | some i =>
    { state with idxPtdup := update state.idxPtdup i page }.setProc q
      { state.proc q with
        table := update (state.proc q).table side (some page)
        stage := next }
  | none => { state with panicked := true }

/-- The slot after `proc_freepagetable`: `freeproc` goes on to the end, `exec` returns. -/
def dropTable (state : State) (q : Fin nproc) (side : Side) : State :=
  state.setProc q
    { table := update (state.proc q).table side none
      stage := if side = .main then .unused else .live
      worker := if side = .main then none else (state.proc q).worker }

/-- The index that the next `ptdup_delete_all` on a slot finds. -/
def scanned (state : State) (q : Fin nproc) : Option (Fin ptdupSize) :=
  match (state.proc q).stage with
  | .free side => ((state.proc q).table side).bind state.index
  | _ => none

end State

/-- A step of the system. -/
inductive Label where
  /-- `fork` finds the unused slot `q`. -/
  | fork (p q : Fin nproc)
  /-- `allocproc` gets no page for the trapframe. -/
  | allocFails (q : Fin nproc)
  /-- `proc_pagetable`, called by `allocproc` or `exec`. -/
  | create (q : Fin nproc) (page : Nat)
  /-- The rest of `fork`. -/
  | copied (q : Fin nproc) (fails : Bool)
  /-- `exec` comes to its end, and frees the old page table or the new one. -/
  | finish (q : Fin nproc) (commits : Bool)
  /-- `ptdup_delete_all` searches its index. -/
  | scan (q : Fin nproc)
  /-- `ptdup_delete_all` empties the index it has found. -/
  | clear (q : Fin nproc)
  | exit (q : Fin nproc)
  /-- `wait` finds a zombie. -/
  | wait (p q : Fin nproc)

/-- One step, if it can be taken. Which page `kalloc` returns is left open. -/
def step (state : State) (label : Label) : Option State :=
  if state.panicked then none
  else
    match label with
    | .fork p q =>
      if (state.proc p).stage = .live ∧ state.Idle p ∧ (state.proc q).stage = .unused then
        some (state.setProc q { state.proc q with stage := .alloc, worker := some p })
      else none
    | .allocFails q =>
      if (state.proc q).stage = .alloc then
        some (state.setProc q { state.proc q with stage := .unused, worker := none })
      else none
    | .create q page =>
      if page = 0 then none
      else if (state.proc q).stage = .alloc then some (state.create q .main page .copy)
      else if (state.proc q).stage = .live ∧ state.Idle q then
        some (state.create q .spare page .exec)
      else none
    | .copied q fails =>
      if (state.proc q).stage = .copy then
        if fails then some (state.setProc q { state.proc q with stage := .free .main })
        else some (state.setProc q { state.proc q with stage := .live, worker := none })
      else none
    | .finish q commits =>
      if (state.proc q).stage = .exec then
        some (state.setProc q { state.proc q with
          table := if commits then (state.proc q).table ∘ Equiv.swap .main .spare
            else (state.proc q).table
          stage := .free .spare })
      else none
    | .scan q =>
      match (state.proc q).stage with
      | .free side =>
        match state.scanned q with
        | some i => some (state.setProc q { state.proc q with stage := .clear side i })
        | none => some (state.dropTable q side)
      | _ => none
    | .clear q =>
      match (state.proc q).stage with
      | .clear side i =>
        some ({ state with
          idxPtdup := update state.idxPtdup i 0 }.dropTable q side)
      | _ => none
    | .exit q =>
      if (state.proc q).stage = .live ∧ state.Idle q ∧ q ≠ 0 then
        some (state.setProc q { state.proc q with stage := .zombie })
      else none
    | .wait p q =>
      if (state.proc p).stage = .live ∧ state.Idle p ∧ (state.proc q).stage = .zombie then
        some (state.setProc q { state.proc q with stage := .free .main, worker := some p })
      else none

/-- The state in which the first process is being made. -/
def boot : State where
  idxPtdup := fun _ => 0
  proc := fun q => ⟨fun _ => none, if q = 0 then .alloc else .unused, none⟩
  panicked := false

/-- Every order of steps from the boot on. -/
def system : LabelledSystem State Label := .ofFunction (· = boot) step

/-! ## The condition -/

/-- The page tables that have been made and not been deleted to the end. -/
def tables (state : State) (owner : Fin nproc × Side) : Option Nat :=
  (state.proc owner.1).table owner.2

/-- The index that a process is about to empty. -/
def Proc.found (p : Proc) (side : Side) : Option (Fin ptdupSize) :=
  match p.stage with
  | .clear other i => if other = side then some i else none
  | _ => none

/-- The indexes that `ptdup_delete_all` is about to empty. -/
def found (state : State) (owner : Fin nproc × Side) : Option (Fin ptdupSize) :=
  (state.proc owner.1).found owner.2

/-- How many page tables there are. -/
def created (state : State) : Int := tally fun owner => (tables state owner).isSome

/-- No two calls of `ptdup_delete_all` find the same index. -/
def Apart (state : State) : Label → Prop
  | .scan q => ∀ i ∈ state.scanned q, ∀ owner, found state owner ≠ some i
  | _ => True

instance (state : State) (label : Label) : Decidable (Apart state label) := by
  cases label <;> unfold Apart <;> infer_instance

/-- A page table is made while there are fewer than `PTDUP_SIZE`. -/
def Room (state : State) : Label → Prop
  | .create _ _ => created state < ptdupSize
  | _ => True

instance (state : State) (label : Label) : Decidable (Room state label) := by
  cases label <;> unfold Room <;> infer_instance

/-! ## The invariant -/

/-- The page tables that a process has at a stage. -/
def Stage.holds : Stage → Side → Bool
  | .unused, _ => false
  | .alloc, _ => false
  | .exec, _ => true
  | .free .spare, _ => true
  | .clear .spare _, _ => true
  | _, side => side = .main

/-- Each page table has an index of its own, and the stage of a process says which page
tables it has. -/
structure Inv (state : State) : Prop where
  assigned : ∃ place, Assigned state.idxPtdup (tables state) (found state) place
  holds : ∀ q side, ((state.proc q).table side).isSome = (state.proc q).stage.holds side

section Steps

variable {state : State} {q : Fin nproc} {new : Proc}

/-- A family over the sides of the processes, after one process is replaced by one with
another value at one side. -/
theorem family_setProc {β : Type*} (f : Proc → Side → β) (side : Side) (value : β)
    (here : f new = update (f (state.proc q)) side value) :
    (fun owner : Fin nproc × Side => f ((state.setProc q new).proc owner.1) owner.2) =
      update (fun owner => f (state.proc owner.1) owner.2) (q, side) value := by
  funext owner
  obtain ⟨r, other⟩ := owner
  by_cases same : r = q
  · subst same
    by_cases sameSide : other = side
    · subst sameSide
      simp [State.setProc, here]
    · simp [State.setProc, here, sameSide]
  · simp [State.setProc, same]

theorem family_setProc_eq {β : Type*} (f : Proc → Side → β) (same : f new = f (state.proc q)) :
    (fun owner : Fin nproc × Side => f ((state.setProc q new).proc owner.1) owner.2) =
      fun owner => f (state.proc owner.1) owner.2 := by
  funext owner
  by_cases here : owner.1 = q
  · simp [State.setProc, here, same]
  · simp [State.setProc, here]

theorem found_of_stage {p : Proc} (quiet : ∀ side i, p.stage ≠ .clear side i) :
    p.found = fun _ => none := by
  funext side
  unfold Proc.found
  split
  · rename_i other i stage
    exact absurd stage (quiet other i)
  · rfl

/-- The part of the invariant about one process, after it is replaced. -/
theorem holds_setProc
    (each : ∀ r side, ((state.proc r).table side).isSome = (state.proc r).stage.holds side)
    (here : ∀ side, (new.table side).isSome = new.stage.holds side) :
    ∀ r side, (((state.setProc q new).proc r).table side).isSome =
      ((state.setProc q new).proc r).stage.holds side := by
  intro r
  by_cases same : r = q
  · subst same
    simpa [State.setProc] using here
  · simpa [State.setProc, same] using each r

/-- A step that changes neither a page table nor what is about to be emptied. -/
theorem Inv.setProc (inv : Inv state) (table : new.table = (state.proc q).table)
    (quiet : ∀ side i, new.stage ≠ .clear side i)
    (before : ∀ side i, (state.proc q).stage ≠ .clear side i)
    (holds : ∀ side, new.stage.holds side = (state.proc q).stage.holds side) :
    Inv (state.setProc q new) := by
  obtain ⟨place, assigned⟩ := inv.assigned
  constructor
  · have sameTables : tables (state.setProc q new) = tables state :=
      family_setProc_eq (fun p => p.table) table
    have sameFound : found (state.setProc q new) = found state :=
      family_setProc_eq Proc.found ((found_of_stage quiet).trans (found_of_stage before).symm)
    refine ⟨place, ?_⟩
    rw [sameTables, sameFound]
    exact assigned
  · refine holds_setProc inv.holds fun side => ?_
    rw [table, holds, inv.holds q side]

theorem Inv.restage (inv : Inv state) {stage next : Stage} {worker : Option (Fin nproc)}
    (here : (state.proc q).stage = stage) (quiet : ∀ side i, next ≠ .clear side i)
    (before : ∀ side i, stage ≠ .clear side i)
    (holds : ∀ side, next.holds side = stage.holds side) :
    Inv (state.setProc q { state.proc q with stage := next, worker := worker }) := by
  subst here
  exact inv.setProc rfl quiet before holds

variable {page : Nat}

/-- The search for an index finds one with the page table. -/
theorem index_eq_some {i : Fin ptdupSize} (here : state.index page = some i) :
    state.idxPtdup i = page := by
  have same := List.find?_some here
  simpa using same

/-- The search for an index fails when no index has the page table. -/
theorem index_eq_none : state.index page = none ↔ ∀ i, state.idxPtdup i ≠ page := by
  simp [State.index, List.find?_eq_none]

/-- An empty index is found exactly when there are fewer page tables than indexes. -/
theorem Inv.index_iff (inv : Inv state) : (state.index 0).isSome ↔ created state < ptdupSize := by
  obtain ⟨place, assigned⟩ := inv.assigned
  have free := assigned.free_iff
  rw [Fintype.card_fin] at free
  rw [created, ← free, Option.isSome_iff_ne_none, Ne, index_eq_none]
  simp

variable {side : Side}

/-- `proc_pagetable` takes an empty index. -/
theorem Inv.create (inv : Inv state) {next : Stage} (used : page ≠ 0)
    (absent : (state.proc q).table side = none) (quiet : ∀ other i, next ≠ .clear other i)
    (before : ∀ other i, (state.proc q).stage ≠ .clear other i)
    (holds : ∀ other, next.holds other = (other = side || (state.proc q).stage.holds other)) :
    Inv (state.create q side page next) := by
  obtain ⟨place, assigned⟩ := inv.assigned
  unfold State.create
  cases free : state.index 0 with
  | none => exact ⟨inv.assigned, inv.holds⟩
  | some i =>
    constructor
    · have sameFound : found ({ state with
          idxPtdup := update state.idxPtdup i page }.setProc q
            { state.proc q with
              table := update (state.proc q).table side (some page)
              stage := next }) = found state :=
        family_setProc_eq Proc.found ((found_of_stage quiet).trans (found_of_stage before).symm)
      have newTables : tables ({ state with
          idxPtdup := update state.idxPtdup i page }.setProc q
            { state.proc q with
              table := update (state.proc q).table side (some page)
              stage := next }) = update (tables state) (q, side) (some page) :=
        family_setProc (fun p => p.table) side (some page) rfl
      refine ⟨update place (q, side) i, ?_⟩
      rw [sameFound, newTables]
      exact assigned.claim used (index_eq_some free) absent
    · refine holds_setProc (fun r other => inv.holds r other) fun other => ?_
      by_cases same : other = side
      · subst same
        simp [holds]
      · simp [same, holds, inv.holds q other]

/-- What is left of the table when one page table is gone. -/
theorem Inv.dropTable {idxPtdup : Fin ptdupSize → Nat} {place : Fin nproc × Side → Fin ptdupSize}
    (holds : ∀ r other, ((state.proc r).table other).isSome = (state.proc r).stage.holds other)
    (assigned : Assigned idxPtdup (update (tables state) (q, side) none)
      (update (found state) (q, side) none) place)
    (both : ∀ other, (state.proc q).stage.holds other = (side = .spare || other = .main))
    (quiet : ∀ other i, (state.proc q).stage = .clear other i → other = side) :
    Inv ({ state with idxPtdup := idxPtdup }.dropTable q side) := by
  have newTables : tables ({ state with idxPtdup := idxPtdup }.dropTable q side) =
      update (tables state) (q, side) none :=
    family_setProc (fun p => p.table) side none rfl
  have newFound : found ({ state with idxPtdup := idxPtdup }.dropTable q side) =
      update (found state) (q, side) none := by
    refine family_setProc Proc.found side none ?_
    funext other
    have after : ({ table := update (state.proc q).table side none
                    stage := if side = .main then .unused else .live
                    worker := if side = .main then none else (state.proc q).worker } :
        Proc).found other = none := by
      cases side <;> rfl
    refine after.trans ?_
    by_cases same : other = side
    · subst same
      simp
    · rw [update_of_ne same]
      unfold Proc.found
      split
      · rename_i third i stage
        rw [quiet third i stage, if_neg (Ne.symm same)]
      · rfl
  constructor
  · refine ⟨place, ?_⟩
    rw [newTables, newFound]
    exact assigned
  · refine holds_setProc holds fun other => ?_
    have before := holds q other
    rw [both] at before
    cases side <;> cases other <;> simp_all [Stage.holds]

/-- `ptdup_delete_all` finds an index with its page table, which no other call has found. -/
theorem Inv.scan (inv : Inv state) (stage : (state.proc q).stage = .free side)
    (apart : ∀ i ∈ state.scanned q, ∀ owner, found state owner ≠ some i) :
    ∃ i, state.scanned q = some i ∧
      Inv (state.setProc q { state.proc q with stage := .clear side i }) := by
  obtain ⟨place, assigned⟩ := inv.assigned
  have holds : ((state.proc q).table side).isSome := by
    rw [inv.holds q side, stage]
    cases side <;> rfl
  obtain ⟨page, held⟩ := Option.isSome_iff_exists.mp holds
  have search : state.scanned q = state.index page := by simp [State.scanned, stage, held]
  cases there : state.index page with
  | none =>
    have absent := index_eq_none.mp there (place (q, side))
    exact absurd (assigned.held (q, side) page held).2 absent
  | some i =>
    refine ⟨i, search.trans there, ?_⟩
    have idle : found state (q, side) = none := by simp [found, Proc.found, stage]
    have owned : tables state (q, side) = some page := held
    obtain ⟨after, moved⟩ := assigned.find owned (index_eq_some there) idle
      (apart i (search.trans there))
    have sameTables : tables (state.setProc q { state.proc q with stage := .clear side i }) =
        tables state := family_setProc_eq (fun p => p.table) rfl
    have newFound : found (state.setProc q { state.proc q with stage := .clear side i }) =
        update (found state) (q, side) (some i) := by
      refine family_setProc Proc.found side (some i) ?_
      funext other
      by_cases same : other = side
      · subst same
        simp [Proc.found]
      · simp [Proc.found, stage, same, Ne.symm same]
    constructor
    · refine ⟨after, ?_⟩
      rw [sameTables, newFound]
      exact moved
    · refine holds_setProc inv.holds fun other => ?_
      rw [inv.holds q other, stage]
      cases side <;> rfl

/-- `ptdup_delete_all` empties the index it has found. -/
theorem Inv.clear (inv : Inv state) {i : Fin ptdupSize}
    (stage : (state.proc q).stage = .clear side i) :
    Inv ({ state with idxPtdup := update state.idxPtdup i 0 }.dropTable q side) := by
  obtain ⟨place, assigned⟩ := inv.assigned
  have here : found state (q, side) = some i := by simp [found, Proc.found, stage]
  refine Inv.dropTable inv.holds (assigned.release here) (fun other => ?_) fun other j same => ?_
  · rw [stage]
    cases side <;> cases other <;> rfl
  · rw [stage] at same
    exact (Stage.clear.inj same).1.symm

/-- The old and the new page table of `exec` change places. -/
theorem Inv.commit (inv : Inv state) (stage : (state.proc q).stage = .exec) :
    Inv (state.setProc q { state.proc q with
      table := (state.proc q).table ∘ Equiv.swap .main .spare
      stage := .free .spare }) := by
  obtain ⟨place, assigned⟩ := inv.assigned
  have renamed := assigned.rename (Equiv.swap (q, Side.main) (q, Side.spare))
  have others : ∀ owner : Fin nproc × Side, owner.1 ≠ q →
      Equiv.swap (q, Side.main) (q, Side.spare) owner = owner := by
    intro owner different
    apply Equiv.swap_apply_of_ne_of_ne
    · rintro rfl
      exact different rfl
    · rintro rfl
      exact different rfl
  have newTables : tables (state.setProc q { state.proc q with
      table := (state.proc q).table ∘ Equiv.swap .main .spare
      stage := .free .spare }) = tables state ∘ Equiv.swap (q, Side.main) (q, Side.spare) := by
    funext owner
    by_cases same : owner.1 = q
    · obtain ⟨r, side⟩ := owner
      obtain rfl : r = q := same
      cases side <;> simp [tables, State.setProc]
    · rw [Function.comp_apply, others owner same]
      simp [tables, State.setProc, same]
  have newFound : found (state.setProc q { state.proc q with
      table := (state.proc q).table ∘ Equiv.swap .main .spare
      stage := .free .spare }) = found state ∘ Equiv.swap (q, Side.main) (q, Side.spare) := by
    funext owner
    by_cases same : owner.1 = q
    · obtain ⟨r, side⟩ := owner
      obtain rfl : r = q := same
      cases side <;> simp [found, State.setProc, Proc.found, stage]
    · rw [Function.comp_apply, others owner same]
      simp [found, State.setProc, same]
  constructor
  · refine ⟨place ∘ Equiv.swap (q, Side.main) (q, Side.spare), ?_⟩
    rw [newTables, newFound]
    exact renamed
  · refine holds_setProc inv.holds fun side => ?_
    have both : ∀ other, ((state.proc q).table other).isSome = true := by
      intro other
      rw [inv.holds q other, stage]
      cases other <;> rfl
    exact both _

/-- Every step in which no two calls of `ptdup_delete_all` find the same index keeps the
invariant. -/
theorem Inv.step (inv : Inv state) {label : Label} {next : State} (apart : Apart state label)
    (taken : step state label = some next) : Inv next := by
  unfold Capacity.step at taken
  split at taken
  · cases taken
  cases label with
  | fork p q =>
    simp only at taken
    split at taken
    · rename_i valid
      cases taken
      refine inv.restage valid.2.2 (fun _ _ => nofun) (fun _ _ => nofun) fun side => ?_
      cases side <;> rfl
    · cases taken
  | allocFails q =>
    simp only at taken
    split at taken
    · rename_i stage
      cases taken
      refine inv.restage stage (fun _ _ => nofun) (fun _ _ => nofun) fun side => ?_
      cases side <;> rfl
    · cases taken
  | create q page =>
    simp only at taken
    split at taken
    · cases taken
    rename_i used
    split at taken
    · rename_i stage
      cases taken
      refine inv.create used ?_ (fun _ _ => nofun) (fun _ _ => ?_) fun other => ?_
      · have absent := inv.holds q .main
        rw [stage] at absent
        exact Option.isNone_iff_eq_none.mp (by simpa [Stage.holds] using absent)
      · rw [stage]
        nofun
      · rw [stage]
        cases other <;> rfl
    split at taken
    · rename_i valid
      cases taken
      refine inv.create used ?_ (fun _ _ => nofun) (fun _ _ => ?_) fun other => ?_
      · have absent := inv.holds q .spare
        rw [valid.1] at absent
        exact Option.isNone_iff_eq_none.mp (by simpa [Stage.holds] using absent)
      · rw [valid.1]
        nofun
      · rw [valid.1]
        cases other <;> rfl
    · cases taken
  | copied q fails =>
    simp only at taken
    split at taken
    · rename_i stage
      split at taken
      · cases taken
        refine inv.restage stage (fun _ _ => nofun) (fun _ _ => nofun) fun side => ?_
        cases side <;> rfl
      · cases taken
        refine inv.restage stage (fun _ _ => nofun) (fun _ _ => nofun) fun side => ?_
        cases side <;> rfl
    · cases taken
  | finish q commits =>
    simp only at taken
    split at taken
    · rename_i stage
      cases taken
      cases commits
      · refine inv.restage stage (fun _ _ => nofun) (fun _ _ => nofun) fun side => ?_
        cases side <;> rfl
      · exact inv.commit stage
    · cases taken
  | scan q =>
    simp only at taken
    split at taken
    · rename_i side stage
      obtain ⟨i, found, after⟩ := inv.scan stage apart
      rw [found] at taken
      cases taken
      exact after
    · cases taken
  | clear q =>
    simp only at taken
    split at taken
    · rename_i side i stage
      cases taken
      exact inv.clear stage
    · cases taken
  | exit q =>
    simp only at taken
    split at taken
    · rename_i valid
      cases taken
      refine inv.restage valid.1 (fun _ _ => nofun) (fun _ _ => nofun) fun side => ?_
      cases side <;> rfl
    · cases taken
  | wait p q =>
    simp only at taken
    split at taken
    · rename_i valid
      cases taken
      refine inv.restage valid.2.2 (fun _ _ => nofun) (fun _ _ => nofun) fun side => ?_
      cases side <;> rfl
    · cases taken

end Steps

/-! ## Runs -/

variable {state : State}

/-- Only `ptdup_init` without an empty index panics. -/
theorem panicked_of_step {next : State} {label : Label} (taken : step state label = some next) :
    next.panicked = false ∨ (∃ q page, label = .create q page) ∧ state.index 0 = none := by
  unfold step at taken
  split at taken
  · cases taken
  rename_i running
  have calm : state.panicked = false := by simpa using running
  have created : ∀ q side page stage, (state.create q side page stage).panicked = false ∨
      state.index 0 = none := by
    intro q side page stage
    unfold State.create
    cases free : state.index 0 with
    | none => exact .inr rfl
    | some i => exact .inl calm
  cases label with
  | create q page =>
    simp only at taken
    split at taken
    · cases taken
    split at taken
    · cases taken
      exact (created ..).imp_right fun full => ⟨⟨q, page, rfl⟩, full⟩
    split at taken
    · cases taken
      exact (created ..).imp_right fun full => ⟨⟨q, page, rfl⟩, full⟩
    · cases taken
  | _ =>
    simp only at taken
    repeat' split at taken
    all_goals cases taken
    all_goals exact .inl calm

theorem Inv.boot : Inv boot where
  assigned := by
    have quiet : found Capacity.boot = fun _ => none := by
      funext owner
      by_cases first : owner.1 = 0 <;> simp [found, Proc.found, Capacity.boot, first]
    refine ⟨fun _ => ⟨0, by decide⟩, ?_⟩
    rw [quiet]
    exact Assigned.nil _
  holds := by
    intro q side
    by_cases first : q = 0 <;> simp [Capacity.boot, first, Stage.holds]

/-- The condition on the steps. -/
def Fits (state : State) (label : Label) : Prop := Apart state label ∧ Room state label

instance (state : State) (label : Label) : Decidable (Fits state label) := by
  unfold Fits
  infer_instance

/-- In every run in which page tables are only made while there are fewer than
`PTDUP_SIZE`, and no two calls of `ptdup_delete_all` find the same index, `ptdup_init`
does not panic: it finds an empty index exactly when there is room. -/
theorem index_of_roomy_run {events : List Label} {state : State}
    (runs : (system.guarded Fits).Runs events state) :
    state.panicked = false ∧ ((state.index 0).isSome ↔ created state < ptdupSize) := by
  have both : Inv state ∧ state.panicked = false := by
    refine runs.invariant (fun state => Inv state ∧ state.panicked = false) ?_ ?_
    · rintro start rfl
      exact ⟨.boot, rfl⟩
    · intro before label next holds transition
      obtain ⟨⟨apart, room⟩, taken⟩ := transition
      refine ⟨holds.1.step apart taken, ?_⟩
      rcases panicked_of_step taken with calm | ⟨⟨q, page, rfl⟩, full⟩
      · exact calm
      · have free := holds.1.index_iff.mpr room
        rw [full] at free
        cases free
  exact ⟨both.2, both.1.index_iff⟩

/-- A page from which `kalloc` may hand one out. -/
def samplePage (n : Nat) : Nat := 0x87000000 + n * pgsize

/-- The first process forks twice, and the second fork fails in `uvmcopy`. The child
replaces its page table in `exec`, fails in another `exec`, exits and is waited for. -/
def lifeOfChild : List Label :=
  [.create 0 (samplePage 0), .copied 0 false, .fork 0 1, .create 1 (samplePage 1),
    .copied 1 false, .fork 0 2, .create 2 (samplePage 2), .copied 2 true, .create 1 (samplePage 3),
    .finish 1 true, .scan 1, .scan 2, .clear 2, .clear 1, .create 1 (samplePage 1),
    .finish 1 false, .scan 1, .clear 1, .exit 1, .wait 0 1, .scan 1, .clear 1]

theorem index_of_lifeOfChild : ∃ state, (system.guarded Fits).Runs lifeOfChild state ∧
    state.panicked = false ∧ ((state.index 0).isSome ↔ created state < ptdupSize) := by
  have found : (LabelledSystem.exec (LabelledSystem.checked Fits step) boot
      lifeOfChild).isSome = true := by decide +kernel
  obtain ⟨state, result⟩ := Option.isSome_iff_exists.mp found
  have runs : (system.guarded Fits).Runs lifeOfChild state :=
    .of_checked_exec rfl result
  exact ⟨state, runs, index_of_roomy_run runs⟩

/-! ## More page tables than indexes -/

/-- A run comes to a state with these stages and workers, without a panic. -/
def Reached (events : List Label) (stages : Fin nproc → Stage)
    (workers : Fin nproc → Option (Fin nproc)) : Prop :=
  ∃ state, (system.guarded Apart).Runs events state ∧ state.panicked = false ∧
    (∀ q, (state.proc q).stage = stages q) ∧ ∀ q, (state.proc q).worker = workers q

/-- The page tables that processes have at their stages. -/
def expected (stages : Fin nproc → Stage) : Int :=
  tally fun owner : Fin nproc × Side => (stages owner.1).holds owner.2

theorem inv_of_apart_run {events : List Label}
    (runs : (system.guarded Apart).Runs events state) : Inv state := by
  refine runs.invariant Inv ?_ ?_
  · rintro start rfl
    exact .boot
  · intro before label next inv transition
    exact inv.step transition.1 transition.2

/-- The number of page tables is known from the stages. -/
theorem Inv.created_eq (inv : Inv state) {stages : Fin nproc → Stage}
    (same : ∀ q, (state.proc q).stage = stages q) : created state = expected stages :=
  tally_congr fun owner => (inv.holds owner.1 owner.2).trans (by rw [same])

section Reached

variable {events : List Label} {stages : Fin nproc → Stage}
  {workers : Fin nproc → Option (Fin nproc)} {q : Fin nproc}

/-- One more step, to a state in which one slot is replaced. -/
theorem Reached.extend {state next : State} {label : Label} {proc : Proc}
    (runs : (system.guarded Apart).Runs events state)
    (taken : step state label = some next) (apart : Apart state label)
    (calm : next.panicked = false) (replaced : next.proc = update state.proc q proc)
    (stage : ∀ r, (state.proc r).stage = stages r) (worker : ∀ r, (state.proc r).worker = workers r) :
    Reached (events ++ [label]) (update stages q proc.stage)
      (update workers q proc.worker) := by
  refine ⟨next, runs.step ⟨apart, taken⟩, calm, fun r => ?_, fun r => ?_⟩
  · rw [replaced]
    by_cases same : r = q
    · simp [same]
    · simp [same, stage]
  · rw [replaced]
    by_cases same : r = q
    · simp [same]
    · simp [same, worker]

theorem Reached.fork (reached : Reached events stages workers) {p : Fin nproc}
    (live : stages p = .live) (idle : ∀ r, workers r ≠ some p) (unused : stages q = .unused) :
    Reached (events ++ [.fork p q]) (update stages q .alloc)
      (update workers q (some p)) := by
  obtain ⟨state, runs, calm, stage, worker⟩ := reached
  have free : state.Idle p := fun r => (worker r).symm ▸ idle r
  have taken : step state (.fork p q) =
      some (state.setProc q { state.proc q with stage := .alloc, worker := some p }) := by
    simp [step, calm, stage, live, unused, free]
  exact Reached.extend runs taken trivial calm rfl stage worker

theorem Reached.copied (reached : Reached events stages workers) (copy : stages q = .copy) :
    Reached (events ++ [.copied q false]) (update stages q .live)
      (update workers q none) := by
  obtain ⟨state, runs, calm, stage, worker⟩ := reached
  have taken : step state (.copied q false) =
      some (state.setProc q { state.proc q with stage := .live, worker := none }) := by
    simp [step, calm, stage, copy]
  exact Reached.extend runs taken trivial calm rfl stage worker

variable {page : Nat}

theorem Reached.create (reached : Reached events stages workers) (side : Side)
    {next : Stage} (few : expected stages < ptdupSize)
    (taken : ∀ state : State, state.panicked = false →
      (∀ r, (state.proc r).stage = stages r) → (∀ r, (state.proc r).worker = workers r) →
      step state (.create q page) = some (state.create q side page next)) :
    Reached (events ++ [.create q page]) (update stages q next) workers := by
  obtain ⟨state, runs, calm, stage, worker⟩ := reached
  have inv := inv_of_apart_run runs
  obtain ⟨i, found⟩ := Option.isSome_iff_exists.mp
    (inv.index_iff.mpr ((inv.created_eq stage).trans_lt few))
  have made := taken state calm stage worker
  unfold State.create at made
  rw [found] at made
  have sameWorker : workers = update workers q (state.proc q).worker := by
    rw [worker q]
    exact (update_eq_self q workers).symm
  rw [sameWorker]
  exact Reached.extend runs made trivial calm rfl stage worker

theorem Reached.alloc (reached : Reached events stages workers)
    (alloc : stages q = .alloc) (used : page ≠ 0) (few : expected stages < ptdupSize) :
    Reached (events ++ [.create q page]) (update stages q .copy) workers := by
  refine reached.create .main few fun state calm stage worker => ?_
  simp [step, calm, stage, alloc, used]

theorem Reached.exec (reached : Reached events stages workers)
    (live : stages q = .live) (idle : ∀ r, workers r ≠ some q) (used : page ≠ 0)
    (few : expected stages < ptdupSize) :
    Reached (events ++ [.create q page]) (update stages q .exec) workers := by
  refine reached.create .spare few fun state calm stage worker => ?_
  have free : state.Idle q := fun r => (worker r).symm ▸ idle r
  simp [step, calm, stage, live, used, free]

theorem Reached.panics (reached : Reached events stages workers)
    (live : stages q = .live) (idle : ∀ r, workers r ≠ some q) (used : page ≠ 0)
    (full : ptdupSize ≤ expected stages) :
    ∃ state, system.Runs (events ++ [.create q page]) state ∧ state.panicked = true := by
  obtain ⟨state, runs, calm, stage, worker⟩ := reached
  have inv := inv_of_apart_run runs
  have none : state.index 0 = none := by
    rw [← Option.not_isSome_iff_eq_none, inv.index_iff, inv.created_eq stage]
    omega
  have free : state.Idle q := fun r => (worker r).symm ▸ idle r
  have taken : step state (.create q page) = some { state with panicked := true } := by
    simp [step, calm, stage, live, used, free, State.create, none]
  exact ⟨_, runs.forgetGuard.step taken, rfl⟩

end Reached

/-- The first process, and `n` forks by it. -/
def forks : Nat → List Label
  | 0 => [.create 0 (samplePage 0), .copied 0 false]
  | n + 1 =>
    forks n ++ [.fork 0 (Fin.ofNat nproc (n + 1))] ++
      [.create (Fin.ofNat nproc (n + 1)) (samplePage (n + 1))] ++
      [.copied (Fin.ofNat nproc (n + 1)) false]

/-- The stages after `n` forks. -/
def forked (n : Nat) (q : Fin nproc) : Stage := if q.val ≤ n then .live else .unused

theorem samplePage_ne_zero (n : Nat) : samplePage n ≠ 0 := by
  unfold samplePage
  omega

/-- No process is in `exec` while the first process forks. -/
theorem expected_fork : ∀ n : Fin 63,
    expected (update (forked n) (Fin.ofNat nproc (n + 1)) .alloc) < ptdupSize := by
  decide +kernel

theorem reached_forks (n : Nat) (low : n ≤ 63) : Reached (forks n) (forked n) fun _ => none := by
  induction n with
  | zero =>
    have start : Reached [] (fun q => if q = 0 then .alloc else .unused) fun _ => none :=
      ⟨boot, .initial rfl, rfl, fun _ => rfl, fun _ => rfl⟩
    have few : expected (fun q => if q = 0 then .alloc else .unused) < ptdupSize := by
      decide +kernel
    have done := (start.alloc (if_pos rfl) (samplePage_ne_zero 0) few).copied
      (update_self ..)
    have stages : update (update
        (fun q : Fin nproc => if q = 0 then Stage.alloc else .unused) 0 .copy) 0 .live =
        forked 0 := by
      funext q
      by_cases first : q = 0
      · subst first
        rfl
      · have later : ¬ q.val ≤ 0 := fun low => first (Fin.ext (Nat.le_zero.mp low))
        simp [forked, first, later]
    rw [stages, update_eq_self] at done
    exact done
  | succ n ih =>
    have before := ih (by omega)
    have small : n + 1 < nproc := Nat.lt_of_le_of_lt low (by decide)
    have index : (Fin.ofNat nproc (n + 1)).val = n + 1 := Nat.mod_eq_of_lt small
    have unused : forked n (Fin.ofNat nproc (n + 1)) = .unused := by
      rw [forked, if_neg (by omega)]
    have begun := before.fork (p := 0) rfl (fun _ => nofun) unused
    have made := begun.alloc (update_self ..) (samplePage_ne_zero (n + 1))
      (expected_fork ⟨n, by omega⟩)
    have done := made.copied (update_self ..)
    have stages : update (forked n) (Fin.ofNat nproc (n + 1)) .live =
        forked (n + 1) := by
      funext q
      by_cases same : q = Fin.ofNat nproc (n + 1)
      · subst same
        rw [update_self, forked, if_pos index.le]
      · have different : q.val ≠ n + 1 := fun equal => same (Fin.ext (equal.trans index.symm))
        rw [update_of_ne same, forked, forked]
        exact if_congr (by omega) rfl rfl
    rw [update_idem, update_idem, stages, update_idem,
      update_eq_self] at done
    exact done

/-- The process table is full, and three processes are in `exec` at the same time. -/
def thirdExec : List Label :=
  forks 63 ++ [.create 0 (samplePage 64)] ++ [.create 1 (samplePage 65)] ++
    [.create 2 (samplePage 66)]

/-- With a page table for each of the 64 processes and two more in `exec`, `ptdup_init`
panics in the third `exec`. -/
theorem third_exec_panics : ∃ state, system.Runs thirdExec state ∧ state.panicked = true := by
  have full := reached_forks 63 le_rfl
  have one := full.exec (q := 0) rfl (fun _ => nofun) (samplePage_ne_zero 64)
    (by decide +kernel)
  have two := one.exec (q := 1) rfl (fun _ => nofun) (samplePage_ne_zero 65)
    (by decide +kernel)
  exact two.panics (q := 2) rfl (fun _ => nofun) (samplePage_ne_zero 66) (by decide +kernel)

end Ev6.PageTable.Capacity
