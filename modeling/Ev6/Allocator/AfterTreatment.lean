import Ev6.Allocator.Kalloc
import Ev6.Logging.Handlers

/-!
# Pipes that an after-treatment closes

For every frame of `pipealloc` on the call stack, `after_treatment` closes all files of pipes
once. A pipe whose ends are both closed is given back to the allocator, whose lists the handler
has just mended. `KeepsPipes` is the condition under which no pipe is.
-/

namespace Ev6.Allocator

open Function (update update_of_ne update_self)
open Support MList

/-- `struct file`, as far as `fileclose` reads it for a pipe. -/
structure PipeFile where
  ref : Nat
  isPipe : Bool
  pipe : Nat
  writable : Bool

/-- `readopen` and `writeopen` of a pipe. -/
structure PipeEnds where
  readopen : Bool
  writeopen : Bool

/-- One of the two ends. -/
def PipeEnds.isOpen (ends : PipeEnds) (writable : Bool) : Bool :=
  if writable then ends.writeopen else ends.readopen

/-- Close one of them. -/
def PipeEnds.close (ends : PipeEnds) (writable : Bool) : PipeEnds :=
  if writable then { ends with writeopen := false } else { ends with readopen := false }

/-- `ftable->file`, and the pipes by their addresses. -/
structure FileTable where
  files : Nat → PipeFile
  pipes : Nat → PipeEnds

/-- The file table and the memory of the allocator. -/
structure Treated extends FileTable where
  heap : Heap

/-- `kfree` behind the surgery of a handler. -/
def State.kfree (state : State) : Heap → Nat → Option Heap :=
  Allocator.kfree (state.passes state.runList) state.kernelEnd state.runList

/-- `pipeclose`, without the wakeups and the deletions from the M-List. -/
def pipeclose (state : State) (treated : Treated) (pi : Nat) (writable : Bool) : Option Treated :=
  let ends := (treated.pipes pi).close writable
  let treated := { treated with pipes := update treated.pipes pi ends }
  if ends.readopen = false ∧ ends.writeopen = false then
    (state.kfree treated.heap pi).map fun heap => { treated with heap := heap }
  else some treated

/-- `fileclose` of a file of a pipe. It panics without a reference. -/
def fileclose (state : State) (treated : Treated) (i : Nat) : Option Treated :=
  let f := treated.files i
  if f.ref < 1 then none
  else if f.ref - 1 > 0 then
    some { treated with files := update treated.files i { f with ref := f.ref - 1 } }
  else
    let closed := { f with ref := 0, isPipe := false }
    pipeclose state { treated with files := update treated.files i closed } f.pipe
      f.writable

/-- One round of the loop over the file table. -/
def closeFile (state : State) (treated : Treated) (i : Nat) : Option Treated :=
  if (treated.files i).isPipe then fileclose state treated i else some treated

/-- `pipealloc_start < pcs[i] && pcs[i] < pipealloc_end`. -/
def insidePipealloc (fault : Logging.Fault) (address : Nat) : Bool :=
  (fault.text .pipealloc).1 < address && address < (fault.text .pipealloc).2

/-- `after_treatment` stops the system at a frame. -/
def stopsAt (fault : Logging.Fault) (address : Nat) : Bool :=
  fault.text.isInsideAny address [.freeproc, .kvminit, .procinit, .uvmunmap] ||
    decide (fault.mode = .conservative) &&
      fault.text.isInsideAny address [.sysExec, .uvmalloc, .uvmcopy]

/-- The scan of `after_treatment`, as far as it closes files. -/
def afterTreatment (state : State) (fault : Logging.Fault) : List Nat → Treated → Option Treated
  | [], treated => some treated
  | address :: rest, treated =>
    (if insidePipealloc fault address then
      (List.range nfile).foldlM (closeFile state) treated
    else some treated).bind fun treated =>
      if stopsAt fault address then some treated else afterTreatment state fault rest treated

theorem stopsAt_iff (fault : Logging.Fault) (address : Nat) (before : Policy × Transactions.Log) :
    stopsAt fault address = true ↔ Logging.afterTreatmentFrame fault before address = none := by
  unfold stopsAt Logging.afterTreatmentFrame
  dsimp only
  split_ifs with first second
  · simp [first]
  · simp [second.1, second.2]
  · simp only [first, Bool.false_or, iff_false, Bool.and_eq_true,
      decide_eq_true_eq]
    exact second

/-- The frames of `pipealloc` up to the first at which the system is stopped. -/
def closings (fault : Logging.Fault) : List Nat → Nat
  | [] => 0
  | address :: rest =>
    (if insidePipealloc fault address then 1 else 0) +
      if stopsAt fault address then 0 else closings fault rest

/-- Every pipe one of whose files is closed keeps its other end: that end is open, and its file
has more references than are closed. -/
def KeepsPipes (table : FileTable) (rounds : Nat) : Prop :=
  ∀ i < nfile, (table.files i).isPipe = true → (table.files i).ref ≤ rounds →
    (table.pipes (table.files i).pipe).isOpen (!(table.files i).writable) = true ∧
      ∀ j < nfile, (table.files j).isPipe = true → (table.files j).pipe = (table.files i).pipe →
        (table.files j).writable = !(table.files i).writable → rounds < (table.files j).ref

/-! ## What has been closed -/

/-- A file of a pipe that has been closed a number of times. -/
def aged (times : Nat) (file : PipeFile) : PipeFile :=
  if file.isPipe = false then file
  else if file.ref ≤ times then { file with ref := 0, isPipe := false }
  else { file with ref := file.ref - times }

/-- An end of a pipe has been closed with one of its files. -/
def Closes (table : FileTable) (times : Nat → Nat) (pi : Nat) (writable : Bool) : Prop :=
  ∃ i < nfile, (table.files i).isPipe = true ∧ (table.files i).pipe = pi ∧
    (table.files i).writable = writable ∧ (table.files i).ref ≤ times i

/-- The files have been closed some times each. Either no pipe has been freed and every pipe with
a closed file has an open end, or the free list starts with a pipe. -/
structure Aged (start now : Treated) (times : Nat → Nat) : Prop where
  files : ∀ i < nfile, now.files i = aged (times i) (start.files i)
  ends : ∀ pi writable, (now.pipes pi).isOpen writable = true ↔
    (start.pipes pi).isOpen writable = true ∧ ¬Closes start.toFileTable times pi writable
  heap : (now.heap = start.heap ∧ ∀ i < nfile, (start.files i).isPipe = true →
      (start.files i).ref ≤ times i →
      ∃ writable, (now.pipes (start.files i).pipe).isOpen writable = true) ∨
    ∃ i < nfile, (start.files i).isPipe = true ∧ now.heap.freelist = (start.files i).pipe

section Closing

variable {state : State} {start now after : Treated} {times : Nat → Nat} {i rounds : Nat}

theorem kfree_freelist {passes kernelEnd runList pa : Nat} {heap next : Heap}
    (freed : kfree passes kernelEnd runList heap pa = some next) : next.freelist = pa := by
  unfold kfree at freed
  split at freed
  · cases freed
  · obtain ⟨registered, -, rfl⟩ := Option.map_eq_some_iff.mp freed
    rfl

/-- What one more closing of a file leaves of the closed ends. -/
theorem closes_update {table : FileTable} (low : i < nfile) (pi : Nat) (writable : Bool) :
    Closes table (update times i (times i + 1)) pi writable ↔
      Closes table times pi writable ∨ (table.files i).isPipe = true ∧ (table.files i).pipe = pi ∧
        (table.files i).writable = writable ∧ (table.files i).ref = times i + 1 := by
  constructor
  · rintro ⟨j, inside, isPipe, same, side, few⟩
    by_cases here : j = i
    · subst here
      rw [update_self] at few
      rcases Nat.le_succ_iff.mp few with old | new
      · exact .inl ⟨j, inside, isPipe, same, side, old⟩
      · exact .inr ⟨isPipe, same, side, new⟩
    · rw [update_of_ne here] at few
      exact .inl ⟨j, inside, isPipe, same, side, few⟩
  · rintro (⟨j, inside, isPipe, same, side, few⟩ | ⟨isPipe, same, side, new⟩)
    · refine ⟨j, inside, isPipe, same, side, ?_⟩
      by_cases here : j = i
      · subst here
        rw [update_self]
        exact Nat.le_succ_of_le few
      · rwa [update_of_ne here]
    · exact ⟨i, low, isPipe, same, side, by rw [update_self, new]⟩

theorem Aged.quiet (aged : Aged start now times) (low : i < nfile)
    (other : (start.files i).isPipe = true → (start.files i).ref ≠ times i + 1)
    (files : ∀ j < nfile, after.files j =
      Allocator.aged (update times i (times i + 1) j) (start.files j))
    (pipes : after.pipes = now.pipes) (heap : after.heap = now.heap) :
    Aged start after (update times i (times i + 1)) where
  files := files
  ends pi writable := by
    rw [pipes, aged.ends, closes_update low]
    refine and_congr_right fun _ => not_congr ⟨.inl, ?_⟩
    rintro (old | ⟨isPipe, -, -, new⟩)
    · exact old
    · exact absurd new (other isPipe)
  heap := by
    rw [heap, pipes]
    refine aged.heap.imp_left fun ⟨same, still⟩ => ⟨same, fun j inside isPipe few => ?_⟩
    refine still j inside isPipe ?_
    by_cases here : j = i
    · subst here
      rw [update_self] at few
      exact Nat.le_of_lt_succ (lt_of_le_of_ne few (other isPipe))
    · rwa [update_of_ne here] at few

theorem Aged.files_update (aged : Aged start now times) {file : PipeFile}
    (here : file = Allocator.aged (times i + 1) (start.files i)) (j : Nat) (inside : j < nfile) :
    update now.files i file j =
      Allocator.aged (update times i (times i + 1) j) (start.files j) := by
  by_cases same : j = i
  · subst same
    rw [update_self, update_self, here]
  · rw [update_of_ne same, update_of_ne same, aged.files j inside]

theorem isOpen_close (pipes : Nat → PipeEnds) (pi other : Nat) (side writable : Bool) :
    (update pipes pi ((pipes pi).close side) other).isOpen writable =
      if other = pi ∧ writable = side then false else (pipes other).isOpen writable := by
  by_cases here : other = pi
  · subst here
    cases side <;> cases writable <;> simp [PipeEnds.isOpen, PipeEnds.close]
  · simp [here]

theorem Aged.close (aged : Aged start now times) (low : i < nfile)
    (isPipe : (start.files i).isPipe = true) (last : (start.files i).ref = times i + 1)
    {closed : Nat → PipeFile} (files : ∀ j < nfile, closed j =
      Allocator.aged (update times i (times i + 1) j) (start.files j))
    (done : pipeclose state { now with files := closed } (start.files i).pipe
      (start.files i).writable = some after) :
    Aged start after (update times i (times i + 1)) := by
  have ends (pi : Nat) (writable : Bool) :
      (update now.pipes (start.files i).pipe
        ((now.pipes (start.files i).pipe).close (start.files i).writable) pi).isOpen writable = true ↔
      (start.pipes pi).isOpen writable = true ∧
        ¬Closes start.toFileTable (update times i (times i + 1)) pi writable := by
    rw [isOpen_close, closes_update low]
    split_ifs with here
    · obtain ⟨rfl, rfl⟩ := here
      simp [isPipe, last]
    · rw [aged.ends, not_or]
      refine and_congr_right fun _ => (and_iff_left ?_).symm
      rintro ⟨-, same, side, -⟩
      exact here ⟨same.symm, side.symm⟩
  unfold pipeclose at done
  dsimp only at done
  split at done
  · obtain ⟨heap, freed, rfl⟩ := Option.map_eq_some_iff.mp done
    exact ⟨files, ends, .inr ⟨i, low, isPipe, kfree_freelist freed⟩⟩
  · next open' =>
     cases done
     refine ⟨files, ends, aged.heap.imp_left fun ⟨same, still⟩ => ⟨same, ?_⟩⟩
     intro j inside pipe few
     by_cases shared : (start.files j).pipe = (start.files i).pipe
     · -- this pipe still has an end, or it would have been freed
       rw [shared]
       by_contra shut
       push Not at shut
       refine open' ⟨?_, ?_⟩
       · simpa [PipeEnds.isOpen] using shut false
       · simpa [PipeEnds.isOpen] using shut true
     · have different : j ≠ i := by
         rintro rfl
         exact shared rfl
       rw [update_of_ne different] at few
       obtain ⟨writable, holds⟩ := still j inside pipe few
       refine ⟨writable, ?_⟩
       simpa [shared] using holds

theorem Aged.closeFile (aged : Aged start now times) (low : i < nfile)
    (done : closeFile state now i = some after) :
    Aged start after (update times i (times i + 1)) := by
  have here := aged.files i low
  unfold Allocator.closeFile fileclose at done
  dsimp only at done
  by_cases isPipe : (start.files i).isPipe = true
  · rw [Allocator.aged, if_neg (by simp [isPipe])] at here
    by_cases closed : (start.files i).ref ≤ times i
    · rw [if_pos closed] at here
      rw [here, if_neg (by simp)] at done
      cases done
      refine aged.quiet low (fun _ => by omega) (fun j inside => ?_) rfl rfl
      by_cases same : j = i
      · subst same
        rw [here, update_self, Allocator.aged, if_neg (by simp [isPipe]),
          if_pos (Nat.le_succ_of_le closed)]
      · rw [update_of_ne same, aged.files j inside]
    · rw [if_neg closed] at here
      have positive : ¬(start.files i).ref - times i < 1 := by omega
      rw [here, if_pos isPipe, if_neg positive] at done
      dsimp only at done
      split at done
      · next more =>
         cases done
         refine aged.quiet low (fun _ => by omega) (aged.files_update ?_) rfl rfl
         rw [Allocator.aged, if_neg (by simp [isPipe]), if_neg (by omega), Nat.sub_sub]
      · refine aged.close low isPipe (by omega) (aged.files_update ?_) done
        rw [Allocator.aged, if_neg (by simp [isPipe]), if_pos (by omega)]
  · have other : (start.files i).isPipe = false := by simpa using isPipe
    rw [Allocator.aged, if_pos other] at here
    rw [here, if_neg isPipe] at done
    cases done
    refine aged.quiet low (fun yes => absurd yes isPipe) (fun j inside => ?_) rfl rfl
    by_cases same : j = i
    · subst same
      rw [here, update_self, Allocator.aged, if_pos other]
    · rw [update_of_ne same, aged.files j inside]

/-- A round frees no pipe when every pipe keeps an end. -/
theorem Aged.closeFile_total (aged : Aged start now times) (same : now.heap = start.heap)
    (keeps : KeepsPipes start.toFileTable rounds) (few : ∀ j, times j ≤ rounds)
    (low : i < nfile) (more : times i < rounds) :
    ∃ after, Allocator.closeFile state now i = some after ∧ after.heap = start.heap := by
  unfold Allocator.closeFile
  split
  · next pipe =>
     have here := aged.files i low
     unfold Allocator.aged at here
     split at here
     · next other =>
        rw [here, other] at pipe
        cases pipe
     · next isPipe =>
        split at here
        · rw [here] at pipe
          cases pipe
        · next closed =>
           unfold fileclose
           dsimp only
           rw [here, if_neg (by dsimp only; omega)]
           dsimp only
           split
           · exact ⟨_, rfl, same⟩
           · next last =>
              have isPipe : (start.files i).isPipe = true := by simpa using isPipe
              obtain ⟨opened, kept⟩ := keeps i low isPipe (by omega)
              have still := (aged.ends (start.files i).pipe (!(start.files i).writable)).mpr
                ⟨opened, by
                  rintro ⟨j, inside, otherPipe, shared, side, done⟩
                  have enough := kept j inside otherPipe shared side
                  have bound := few j
                  omega⟩
              unfold pipeclose
              dsimp only
              rw [if_neg]
              · exact ⟨_, rfl, same⟩
              · rintro ⟨read, write⟩
                revert read write still
                cases (start.files i).writable <;> simp [PipeEnds.isOpen, PipeEnds.close]
  · exact ⟨now, rfl, same⟩

theorem Aged.congr {other : Nat → Nat} (aged : Aged start now times)
    (same : ∀ j < nfile, other j = times j) : Aged start now other where
  files j inside := same j inside ▸ aged.files j inside
  ends pi writable := by
    rw [aged.ends]
    refine and_congr_right fun _ => not_congr (exists_congr fun j => ?_)
    exact and_congr_right fun inside => by rw [same j inside]
  heap := aged.heap.imp_left fun ⟨kept, still⟩ =>
    ⟨kept, fun j inside isPipe few => still j inside isPipe (same j inside ▸ few)⟩

/-- How often the files are closed in the midst of a round. -/
def swept (k index j : Nat) : Nat := k + if j < index then 1 else 0

theorem swept_succ (k index : Nat) :
    update (swept k index) index (swept k index index + 1) = swept k (index + 1) := by
  funext j
  by_cases here : j = index
  · subst here
    simp [swept]
  · rw [update_of_ne here]
    have same : j < index + 1 ↔ j < index := by omega
    simp [swept, same]

theorem swept_nfile {k j : Nat} (inside : j < nfile) : swept (k + 1) 0 j = swept k nfile j := by
  simp [swept, inside]

/-- A frame of `pipealloc` closes every file once more. -/
theorem Aged.sweep {k : Nat} (aged : Aged start now (swept k 0))
    (done : (List.range nfile).foldlM (Allocator.closeFile state) now = some after) :
    Aged start after (swept (k + 1) 0) := by
  have whole : Aged start after (swept k nfile) := by
    refine @foldlM_range_invariant _ _ (fun index here => Aged start here (swept k index)) _ _ _
      aged (fun index low here next held closed => ?_) done
    rw [← swept_succ]
    exact held.closeFile low closed
  exact whole.congr fun j inside => swept_nfile inside

/-- It comes to its end and frees no pipe when every pipe keeps an end. -/
theorem Aged.sweep_total {k : Nat} (aged : Aged start now (swept k 0))
    (same : now.heap = start.heap) (keeps : KeepsPipes start.toFileTable rounds)
    (more : k < rounds) :
    ∃ after, (List.range nfile).foldlM (Allocator.closeFile state) now = some after ∧
      Aged start after (swept (k + 1) 0) ∧ after.heap = start.heap := by
  obtain ⟨after, done, whole, kept⟩ := foldlM_range_total
    (show Aged start now (swept k 0) ∧ now.heap = start.heap from ⟨aged, same⟩)
    (fun index low here (held : Aged start here (swept k index) ∧ here.heap = start.heap) => by
      have few (j : Nat) : swept k index j ≤ rounds := by
        unfold swept
        split <;> omega
      obtain ⟨next, closed, kept⟩ :
          ∃ next, Allocator.closeFile state here index = some next ∧ next.heap = start.heap :=
        held.1.closeFile_total held.2 keeps few low (by simp [swept, more])
      exact ⟨next, closed, swept_succ k index ▸ held.1.closeFile low closed, kept⟩)
  exact ⟨after, done, whole.congr fun j inside => swept_nfile inside, kept⟩

/-- The scan closes the files as often as there are frames of `pipealloc`. -/
theorem Aged.afterTreatment {fault : Logging.Fault} {pcs : List Nat} {k : Nat}
    (aged : Aged start now (swept k 0))
    (done : Allocator.afterTreatment state fault pcs now = some after) :
    Aged start after (swept (k + closings fault pcs) 0) := by
  induction pcs generalizing now k with
  | nil =>
    cases done
    exact aged
  | cons address rest ih =>
    obtain ⟨between, closed, behind⟩ := Option.bind_eq_some_iff.mp done
    have first : Aged start between
        (swept (k + if insidePipealloc fault address then 1 else 0) 0) := by
      split at closed
      · next inside =>
         rw [if_pos inside]
         exact aged.sweep closed
      · next outside =>
         rw [if_neg outside]
         cases closed
         exact aged
    rw [closings, ← Nat.add_assoc]
    split at behind
    · next stops =>
       cases behind
       rw [if_pos stops]
       exact first
    · next goes =>
       rw [if_neg goes]
       exact ih first behind

/-- It comes to its end and frees no pipe when every pipe keeps an end. -/
theorem Aged.afterTreatment_total {fault : Logging.Fault} {pcs : List Nat} {k : Nat}
    (aged : Aged start now (swept k 0)) (same : now.heap = start.heap)
    (keeps : KeepsPipes start.toFileTable rounds) (enough : k + closings fault pcs ≤ rounds) :
    ∃ after, Allocator.afterTreatment state fault pcs now = some after ∧
      after.heap = start.heap := by
  induction pcs generalizing now k with
  | nil => exact ⟨now, rfl, same⟩
  | cons address rest ih =>
    rw [closings, ← Nat.add_assoc] at enough
    have first : ∃ between, (if insidePipealloc fault address then
        (List.range nfile).foldlM (Allocator.closeFile state) now else some now) = some between ∧
        Aged start between (swept (k + if insidePipealloc fault address then 1 else 0) 0) ∧
        between.heap = start.heap := by
      split
      · next inside =>
         rw [if_pos inside] at enough
         exact aged.sweep_total same keeps (by omega)
      · exact ⟨now, rfl, aged, same⟩
    obtain ⟨between, closed, held, kept⟩ := first
    rw [Allocator.afterTreatment, closed, Option.bind_some]
    split
    · exact ⟨between, rfl, kept⟩
    · next goes =>
       rw [if_neg goes] at enough
       exact ih held kept enough

theorem aged_start (start : Treated) (positive : ∀ i < nfile, (start.files i).isPipe = true →
    0 < (start.files i).ref) : Aged start start (swept 0 0) where
  files i low := by
    unfold aged
    split
    · rfl
    · next isPipe =>
       have some := positive i low (by simpa using isPipe)
       rw [if_neg (by simp [swept]; omega)]
       simp [swept]
  ends pi writable := by
    refine (and_iff_left ?_).symm
    rintro ⟨i, low, isPipe, -, -, few⟩
    have some := positive i low isPipe
    simp [swept] at few
    omega
  heap := .inl ⟨rfl, fun i low isPipe few => by
    have some := positive i low isPipe
    simp [swept] at few
    omega⟩

end Closing

section Treatment

variable {state : State} {start : Treated} {fault : Logging.Fault} {pcs : List Nat}
  (positive : ∀ i < nfile, (start.files i).isPipe = true → 0 < (start.files i).ref)

include positive

/-- The scan leaves the memory of the allocator as it is when every pipe keeps an end. -/
theorem afterTreatment_keeps (keeps : KeepsPipes start.toFileTable (closings fault pcs)) :
    ∃ after, afterTreatment state fault pcs start = some after ∧ after.heap = start.heap :=
  (aged_start start positive).afterTreatment_total rfl keeps (by simp)

/-- Otherwise it stops the system or puts a pipe on the free list. -/
theorem afterTreatment_frees {after : Treated}
    (done : afterTreatment state fault pcs start = some after) :
    after.heap = start.heap ∧ KeepsPipes start.toFileTable (closings fault pcs) ∨
      ∃ i < nfile, (start.files i).isPipe = true ∧
        after.heap.freelist = (start.files i).pipe := by
  have aged := (aged_start start positive).afterTreatment done
  have times (j : Nat) : swept (0 + closings fault pcs) 0 j = closings fault pcs := by simp [swept]
  refine aged.heap.imp_left fun ⟨same, still⟩ => ⟨same, fun i low isPipe few => ?_⟩
  obtain ⟨writable, opened⟩ := still i low isPipe (by rw [times]; exact few)
  obtain ⟨before, unclosed⟩ := (aged.ends _ _).mp opened
  have other : writable = !(start.files i).writable := by
    by_contra equal
    have side : (start.files i).writable = writable := by
      revert equal
      cases writable <;> cases (start.files i).writable <;> simp
    exact unclosed ⟨i, low, isPipe, rfl, side, by rw [times]; exact few⟩
  subst other
  refine ⟨before, fun j inside otherPipe shared side => Nat.lt_of_not_le fun closed => ?_⟩
  exact unclosed ⟨j, inside, otherPipe, shared, side, by rw [times]; exact closed⟩

end Treatment

end Ev6.Allocator
