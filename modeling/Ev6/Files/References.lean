import Ev6.Kernel.Param
import Ev6.Support.Crew
import Ev6.Support.Tally
import Mathlib.Tactic.Abel

/-!
# References to files

`filealloc`, `filedup` and `fileclose` of `file.c`, and the calls that use them. An object is a
reference to an inode or an end of a pipe: what a file stands for, and what the last
`fileclose` gives up. The calls of all processes interleave at the lock of the file table.
-/

namespace Ev6.Files.References

open Multiset (count_add count_singleton count_sum' singleton_add)
open Function (update update_eq_self update_idem update_of_ne update_self)
open Support

/-! ## The file table -/

/-- `ref`, and the object that `type`, `pipe` and `ip` stand for; none is `FD_NONE`. -/
structure File (O : Type) where
  ref : Nat
  obj : Option O

/-- `ftable->file`, and how many of each object the kernel has. -/
structure Table (O : Type) where
  file : Fin nfile → File O
  live : O → Int

/-- The operations. `obtain` is `namei`, `create`, or a half of what `pipealloc` makes, `put` is
`iput` or `pipeclose`, and `attach` writes `type`, and `pipe` or `ip`, of a file. -/
inductive Op (O : Type) where
  | filealloc
  | filedup (f : Fin nfile)
  | fileclose (f : Fin nfile)
  | obtain (o : O)
  | attach (f : Fin nfile) (o : O)
  | put (o : O)

/-- The answers: a file, whether there is no panic, and for `fileclose` what is to be given up,
or none for a panic. -/
abbrev Answer {O : Type} : Op O → Type
  | .filealloc => Option (Fin nfile)
  | .filedup _ => Bool
  | .fileclose _ => Option (Option O)
  | _ => Unit

section Model

variable {O : Type} [DecidableEq O]

namespace Table

def setFile (table : Table O) (f : Fin nfile) (file : File O) : Table O :=
  { table with file := update table.file f file }

/-- `filealloc`: the first file without references. Its `type` stays. -/
def filealloc (table : Table O) : Option (Fin nfile) × Table O :=
  match (List.finRange nfile).find? (fun f => (table.file f).ref == 0) with
  | none => (none, table)
  | some f => (some f, table.setFile f { table.file f with ref := 1 })

/-- `filedup`. -/
def filedup (table : Table O) (f : Fin nfile) : Bool × Table O :=
  if (table.file f).ref < 1 then (false, table)
  else (true, table.setFile f { table.file f with ref := (table.file f).ref + 1 })

/-- `fileclose` under the lock. -/
def fileclose (table : Table O) (f : Fin nfile) : Option (Option O) × Table O :=
  if (table.file f).ref < 1 then (none, table)
  else if (table.file f).ref - 1 > 0 then
    (some none, table.setFile f { table.file f with ref := (table.file f).ref - 1 })
  else (some (table.file f).obj, table.setFile f ⟨0, none⟩)

/-- One operation. -/
def perform (table : Table O) : (op : Op O) → Answer op × Table O
  | .filealloc => table.filealloc
  | .filedup f => table.filedup f
  | .fileclose f => table.fileclose f
  | .obtain o => ((), { table with live := update table.live o (table.live o + 1) })
  | .attach f o => ((), table.setFile f { table.file f with obj := some o })
  | .put o => ((), { table with live := update table.live o (table.live o - 1) })

end Table

/-! ## The calls -/

/-- The panics. -/
inductive Panic where
  | filedup
  | fileclose

abbrev Prog (O : Type) := Program (Op O) Answer Panic

/-- `p->ofile`. -/
abbrev OFile := Fin nofile → Option (Fin nfile)

/-- `fdalloc`. -/
def fdalloc (ofile : OFile) (f : Fin nfile) : Option (OFile × Fin nofile) :=
  ((List.finRange nofile).find? fun fd => (ofile fd).isNone).map fun fd =>
    (update ofile fd (some f), fd)

/-- `filedup`. -/
def filedup (f : Fin nfile) : Prog O Unit :=
  .call (.filedup f) fun fine => if fine then .done () else .fault .filedup

/-- `fileclose`, with what it does when it has released the lock. -/
def fileclose (f : Fin nfile) : Prog O Unit :=
  .call (.fileclose f) fun
    | none => .fault .fileclose
    | some none => .done ()
    | some (some o) => .call (.put o) fun _ => .done ()

/-- `sys_dup`. -/
def sysDup (ofile : OFile) (fd : Fin nofile) : Prog O (List OFile) :=
  match ofile fd with
  | none => pure [ofile]
  | some f =>
    match fdalloc ofile f with
    | none => pure [ofile]
    | some (after, _) => filedup f >>= fun _ => pure [after]

/-- `sys_close`. -/
def sysClose (ofile : OFile) (fd : Fin nofile) : Prog O (List OFile) :=
  match ofile fd with
  | none => pure [ofile]
  | some f => fileclose f >>= fun _ => pure [update ofile fd none]

/-- `sys_open`, when it has found its inode. -/
def sysOpen (ofile : OFile) (ip : O) : Prog O (List OFile) :=
  .call (.obtain ip) fun _ => .call .filealloc fun
    | none => .call (.put ip) fun _ => pure [ofile]
    | some f =>
      match fdalloc ofile f with
      | none => fileclose f >>= fun _ => .call (.put ip) fun _ => pure [ofile]
      | some (after, _) => .call (.attach f ip) fun _ => pure [after]

/-- `pipealloc`; `page` is whether `kalloc` gives a page. -/
def pipealloc (r w : O) (page : Bool) : Prog O (Option (Fin nfile × Fin nfile)) :=
  .call .filealloc fun
    | none => pure none
    | some f0 => .call .filealloc fun
        | none => fileclose f0 >>= fun _ => pure none
        | some f1 =>
          if page then
            .call (.obtain r) fun _ => .call (.obtain w) fun _ =>
              .call (.attach f0 r) fun _ => .call (.attach f1 w) fun _ => pure (some (f0, f1))
          else fileclose f0 >>= fun _ => fileclose f1 >>= fun _ => pure none

/-- The two `fileclose` of `sys_pipe`. -/
def closeBoth (rf wf : Fin nfile) (ofile : OFile) : Prog O (List OFile) :=
  fileclose rf >>= fun _ => fileclose wf >>= fun _ => pure [ofile]

/-- `sys_pipe`; `copied` is whether the descriptors can be written to user memory. -/
def sysPipe (ofile : OFile) (r w : O) (page copied : Bool) : Prog O (List OFile) :=
  pipealloc r w page >>= fun
    | none => pure [ofile]
    | some (rf, wf) =>
      match fdalloc ofile rf with
      | none => closeBoth rf wf ofile
      | some (one, fd0) =>
        match fdalloc one wf with
        | none => closeBoth rf wf (update one fd0 none)
        | some (both, fd1) =>
          if copied then pure [both]
          else closeBoth rf wf (update (update both fd0 none) fd1 none)

/-- The loop of `fork` over the descriptors. -/
def dupAll (ofile : OFile) : List (Fin nofile) → OFile → Prog O OFile
  | [], child => pure child
  | fd :: fds, child =>
    match ofile fd with
    | none => dupAll ofile fds child
    | some f => filedup f >>= fun _ => dupAll ofile fds (update child fd (some f))

/-- `fork`; `made` is whether there is a process and memory for it. -/
def fork (ofile : OFile) (made : Bool) : Prog O (List OFile) :=
  if made then
    dupAll ofile (List.finRange nofile) (fun _ => none) >>= fun child => pure [ofile, child]
  else pure [ofile]

/-- The loop of `exit` over the descriptors. -/
def closeAll : List (Fin nofile) → OFile → Prog O OFile
  | [], ofile => pure ofile
  | fd :: fds, ofile =>
    match ofile fd with
    | none => closeAll fds ofile
    | some f => fileclose f >>= fun _ => closeAll fds (update ofile fd none)

/-- `exit`. -/
def exit (ofile : OFile) : Prog O (List OFile) :=
  closeAll (List.finRange nofile) ofile >>= fun _ => pure []

/-- What a process calls. -/
inductive Call (O : Type) where
  | dup (fd : Fin nofile)
  | close (fd : Fin nofile)
  | openFile (ip : O)
  | pipe (r w : O) (page copied : Bool)
  | fork (made : Bool)
  | exit

/-- The program of a call. -/
def body (ofile : OFile) : Call O → Prog O (List OFile)
  | .dup fd => sysDup ofile fd
  | .close fd => sysClose ofile fd
  | .openFile ip => sysOpen ofile ip
  | .pipe r w page copied => sysPipe ofile r w page copied
  | .fork made => fork ofile made
  | .exit => exit ofile

/-- The file table and the processes. -/
abbrev Processes (O : Type) := Crew (Table O) (Op O) Answer Panic OFile

/-- The first process has no files. -/
def start : Processes O := ⟨⟨fun _ => ⟨0, none⟩, fun _ => 0⟩, [.idle fun _ => none]⟩

/-- The processes from the first one on. -/
def system (O : Type) [DecidableEq O] : LabelledSystem (Processes O) (CrewEvent (Call O)) :=
  .ofFunction (· = start) (Crew.step Table.perform body)

end Model

/-! ## What a process holds -/

/-- A reference to a file, a file that `filealloc` has just given, or an object. -/
inductive Item (O : Type) where
  | ref (f : Fin nfile)
  | fresh (f : Fin nfile)
  | obj (o : O)
deriving DecidableEq

abbrev Holding (O : Type) := Multiset (Item O)

section Entries

variable {O : Type} {ofile after : OFile} {f : Fin nfile} {fd : Fin nofile}

/-- The reference of a descriptor. -/
def entry : Option (Fin nfile) → Holding O
  | none => 0
  | some f => {.ref f}

/-- The references of a process. -/
def refs (ofile : OFile) : Holding O := ∑ fd, entry (ofile fd)

theorem refs_update (ofile : OFile) (fd : Fin nofile) : ∃ rest : Holding O,
    refs ofile = entry (ofile fd) + rest ∧
      ∀ value, refs (update ofile fd value) = entry value + rest := by
  obtain ⟨rest, sum⟩ := sum_rest (fun fd => (entry (ofile fd) : Holding O)) fd
  have moved (value : Option (Fin nfile)) :
      refs (update ofile fd value) = entry value + rest := by
    rw [← sum (entry value), refs]
    exact Finset.sum_congr rfl fun other _ =>
      congrFun (Function.comp_update entry ofile fd value) other
  refine ⟨rest, ?_, moved⟩
  rw [← moved, update_eq_self]

theorem refs_add (f : Fin nfile) (unused : ofile fd = none) :
    (refs (update ofile fd (some f)) : Holding O) = {.ref f} + refs ofile := by
  obtain ⟨rest, whole, moved⟩ := refs_update (O := O) ofile fd
  rw [moved, whole, unused, entry, entry, zero_add]

theorem refs_of_fdalloc (taken : fdalloc ofile f = some (after, fd)) :
    ofile fd = none ∧ after = update ofile fd (some f) ∧
      (refs after : Holding O) = {.ref f} + refs ofile := by
  obtain ⟨other, found, same⟩ := Option.map_eq_some_iff.mp taken
  obtain ⟨rfl, rfl⟩ := Prod.mk.inj same
  have unused : ofile other = none := by simpa using List.find?_some found
  exact ⟨unused, rfl, refs_add f unused⟩

theorem refs_empty : (refs (fun _ => none) : Holding O) = 0 :=
  Finset.sum_const_zero

/-- What a call ends with. -/
def Ends (rests : List OFile) (kept : Holding O) : Prop := kept = (rests.map refs).sum

theorem Ends.one {kept : Holding O} (same : kept = refs ofile) : Ends [ofile] kept := by
  rw [Ends, List.map_singleton, List.sum_singleton, same]

end Entries

section Custody

variable {O : Type} [DecidableEq O]

def takes : Op O → Holding O
  | .filedup f | .fileclose f => {.ref f}
  | .attach f o => {.fresh f, .obj o}
  | .put o => {.obj o}
  | _ => 0

def gives : (op : Op O) → Answer op → Holding O
  | .filealloc, some f => {.fresh f}
  | .filedup f, _ => {.ref f, .ref f}
  | .fileclose _, some (some o) => {.obj o}
  | .obtain o, _ => {.obj o}
  | .attach f _, _ => {.ref f}
  | _, _ => 0

/-- There is no panic. -/
def learns : (op : Op O) → Answer op → Prop
  | .filedup _, fine => fine = true
  | .fileclose _, answer => answer.isSome = true
  | _, _ => True

/-- A file that is fresh may be taken for one that is not. -/
structure Cashes (held kept : Holding O) : Prop where
  obj : ∀ o, kept.count (.obj o) = held.count (.obj o)
  ref : ∀ f, kept.count (.ref f) + kept.count (.fresh f) =
    held.count (.ref f) + held.count (.fresh f)
  fresh : ∀ f, kept.count (.fresh f) ≤ held.count (.fresh f)

/-- The contract of the operations. -/
def custody (O : Type) [DecidableEq O] : Contract (Op O) Answer (Holding O) where
  takes := takes
  gives := gives
  learns := learns
  Valid _ := True
  Update := Cashes
  valid_left _ := trivial
  valid_update _ _ := trivial
  update_refl _ := ⟨fun _ => rfl, fun _ => rfl, fun _ => Nat.le_refl _⟩
  update_trans one two := ⟨fun o => (two.obj o).trans (one.obj o),
    fun f => (two.ref f).trans (one.ref f), fun f => (two.fresh f).trans (one.fresh f)⟩

/-- A count is the number of the references that are held. A file that is fresh or free stands
for nothing, and each object is held or what a file stands for. -/
structure Accounts (table : Table O) (held : Holding O) : Prop where
  refs : ∀ f, (table.file f).ref = held.count (.ref f) + held.count (.fresh f)
  fresh : ∀ f, 0 < held.count (.fresh f) → (table.file f).ref = 1 ∧ (table.file f).obj = none
  free : ∀ f, (table.file f).ref = 0 → (table.file f).obj = none
  live : ∀ o, table.live o =
    held.count (.obj o) + tally fun f => decide ((table.file f).obj = some o)

variable {table : Table O} {held kept frame : Holding O} {f : Fin nfile} {o : O}

theorem Accounts.backed : (custody O).Backed Accounts where
  valid _ := trivial
  update {table held kept frame} cashes accounts := by
    refine ⟨fun f => ?_, fun f some => ?_, accounts.free, fun o => ?_⟩
    · have known := accounts.refs f
      have same := cashes.ref f
      rw [count_add] at known ⊢
      rw [count_add] at known ⊢
      omega
    · refine accounts.fresh f ?_
      have fewer := cashes.fresh f
      rw [count_add] at some ⊢
      omega
    · rw [accounts.live, count_add, count_add, cashes.obj]

theorem Accounts.setFile (accounts : Accounts table held) (f : Fin nfile) (file : File O)
    (others : ∀ g, g ≠ f → kept.count (.ref g) + kept.count (.fresh g) =
      held.count (.ref g) + held.count (.fresh g) ∧ kept.count (.fresh g) = held.count (.fresh g))
    (refs : file.ref = kept.count (.ref f) + kept.count (.fresh f))
    (fresh : 0 < kept.count (.fresh f) → file.ref = 1 ∧ file.obj = none)
    (free : file.ref = 0 → file.obj = none)
    (objs : ∀ o, (held.count (.obj o) : Int) +
      (if (table.file f).obj = some o then 1 else 0) =
        kept.count (.obj o) + if file.obj = some o then 1 else 0) :
    Accounts (table.setFile f file) kept := by
  refine ⟨fun g => ?_, fun g some => ?_, fun g none => ?_, fun o => ?_⟩
  · show (update table.file f file g).ref = _
    by_cases same : g = f
    · subst same
      rw [update_self, refs]
    · rw [update_of_ne same, accounts.refs, (others g same).1]
  · show (update table.file f file g).ref = 1 ∧
      (update table.file f file g).obj = _
    by_cases same : g = f
    · subst same
      rw [update_self]
      exact fresh some
    · rw [update_of_ne same]
      rw [(others g same).2] at some
      exact accounts.fresh g some
  · change (update table.file f file g).ref = 0 at none
    show (update table.file f file g).obj = _
    by_cases same : g = f
    · subst same
      rw [update_self] at none ⊢
      exact free none
    · rw [update_of_ne same] at none ⊢
      exact accounts.free g none
  · have moved := tally_update (fun file : File O => decide (file.obj = some o)) table.file f file
    have known := accounts.live o
    have change := objs o
    show table.live o = kept.count (.obj o) +
      tally fun g => decide ((update table.file f file g).obj = some o)
    simp only [decide_eq_true_eq] at moved
    omega

theorem Accounts.filealloc (accounts : Accounts table frame) :
    Accounts table.filealloc.2 (gives .filealloc table.filealloc.1 + frame) := by
  unfold Table.filealloc
  cases found : (List.finRange nfile).find? fun f => (table.file f).ref == 0 with
  | none =>
    show Accounts table (0 + frame)
    rwa [zero_add]
  | some f =>
    have unused : (table.file f).ref = 0 := by simpa using List.find?_some found
    have known := accounts.refs f
    refine accounts.setFile f _ (fun g other => ?_) ?_ (fun _ => ⟨rfl, accounts.free f unused⟩)
      (fun never => by cases never) fun o => ?_
    · simp [gives, other]
    · simp [gives]
      omega
    · simp [gives]

/-- What a thread has that is to call `filedup` or `fileclose`. -/
theorem Accounts.ref (accounts : Accounts table ({.ref f} + frame)) :
    (table.file f).ref = 1 + frame.count (.ref f) + frame.count (.fresh f) ∧
      (0 < frame.count (.fresh f) → (table.file f).ref = 1 ∧ (table.file f).obj = none) := by
  have known := accounts.refs f
  have fresh := accounts.fresh f
  simp only [count_add, count_singleton, if_true, reduceCtorEq, if_false,
    zero_add] at known fresh
  exact ⟨known, fresh⟩

theorem Accounts.filedup (accounts : Accounts table ({.ref f} + frame)) :
    (table.filedup f).1 = true ∧
      Accounts (table.filedup f).2 (gives (.filedup f) (table.filedup f).1 + frame) := by
  obtain ⟨known, fresh⟩ := accounts.ref
  unfold Table.filedup
  rw [if_neg (by omega)]
  refine ⟨rfl, accounts.setFile f _ (fun g other => ?_) ?_ (fun some => ?_) (fun never => ?_)
    fun o => ?_⟩
  · simp [gives, other]
  · simp [gives]
    omega
  · have some : 0 < frame.count (.fresh f) := by simpa [gives] using some
    have one := (fresh some).1
    omega
  · cases never
  · simp [gives]

theorem Accounts.fileclose (accounts : Accounts table ({.ref f} + frame)) :
    (table.fileclose f).1.isSome = true ∧
      Accounts (table.fileclose f).2 (gives (.fileclose f) (table.fileclose f).1 + frame) := by
  obtain ⟨known, fresh⟩ := accounts.ref
  unfold Table.fileclose
  rw [if_neg (by omega)]
  by_cases more : (table.file f).ref - 1 > 0
  · rw [if_pos more]
    refine ⟨rfl, accounts.setFile f _ (fun g other => ?_) ?_ (fun some => ?_) (fun never => ?_)
      fun o => ?_⟩
    · simp [gives, other]
    · simp [gives]
      omega
    · have some : 0 < frame.count (.fresh f) := by simpa [gives] using some
      have one := (fresh some).1
      omega
    · exact absurd never (Nat.ne_of_gt more)
    · simp [gives]
  · rw [if_neg more]
    cases obj : (table.file f).obj with
    | none =>
      refine ⟨rfl, accounts.setFile f _ (fun g other => ?_) ?_ (fun some => ?_) (fun _ => rfl)
        fun o => ?_⟩
      · simp [gives, other]
      · simp [gives]
        omega
      · have some : 0 < frame.count (.fresh f) := by simpa [gives] using some
        have one := (fresh some).1
        omega
      · simp [gives, obj]
    | some o =>
      refine ⟨rfl, accounts.setFile f _ (fun g other => ?_) ?_ (fun some => ?_) (fun _ => rfl)
        fun other => ?_⟩
      · simp [gives, other]
      · simp [gives]
        omega
      · have some : 0 < frame.count (.fresh f) := by simpa [gives] using some
        have one := (fresh some).1
        omega
      · by_cases same : o = other
        · subst same
          simp [gives, obj]
        · simp [gives, obj, same, Ne.symm same]

theorem Accounts.attach (accounts : Accounts table ({.fresh f, .obj o} + frame)) :
    Accounts (table.setFile f { table.file f with obj := some o }) ({.ref f} + frame) := by
  have known := accounts.refs f
  have fresh := accounts.fresh f
  simp at known fresh
  refine accounts.setFile f _ (fun g other => ?_) ?_ (fun some => ?_) (fun never => ?_)
    fun other => ?_
  · simp [other]
  · simp
    omega
  · simp at some
    omega
  · change (table.file f).ref = 0 at never
    omega
  · by_cases same : o = other
    · subst same
      simp [fresh.2]
    · simp [fresh.2, same, Ne.symm same]

theorem Accounts.count (accounts : Accounts table held) (o : O) (value : Int)
    (same : ∀ item, item ≠ .obj o → kept.count item = held.count item)
    (moved : value - table.live o = kept.count (.obj o) - held.count (.obj o)) :
    Accounts { table with live := update table.live o value } kept := by
  refine ⟨fun f => ?_, fun f some => ?_, accounts.free, fun other => ?_⟩
  · rw [same _ (by nofun), same _ (by nofun)]
    exact accounts.refs f
  · rw [same _ (by nofun)] at some
    exact accounts.fresh f some
  · show update table.live o value other = kept.count (.obj other) +
      tally fun f => decide ((table.file f).obj = some other)
    have known := accounts.live other
    by_cases here : other = o
    · subst here
      rw [update_self]
      omega
    · have different : (Item.obj other : Item O) ≠ .obj o := fun equal => here (Item.obj.inj equal)
      rw [update_of_ne here, same _ different]
      exact known

theorem Accounts.performs (op : Op O) : (custody O).Performs Accounts Table.perform op := by
  intro table frame accounts
  cases op with
  | filealloc =>
    have same : (custody O).takes .filealloc + frame = frame := zero_add frame
    rw [same] at accounts
    exact ⟨trivial, accounts.filealloc⟩
  | filedup f => exact accounts.filedup
  | fileclose f => exact accounts.fileclose
  | attach f o => exact ⟨trivial, accounts.attach⟩
  | obtain o =>
    refine ⟨trivial, accounts.count o _ (fun item other => ?_) ?_⟩
    · simp [custody, gives, takes, other]
    · simp [custody, gives, takes]
  | put o =>
    refine ⟨trivial, accounts.count o _ (fun item other => ?_) ?_⟩
    · simp [custody, gives, takes, other]
    · simp [custody, gives, takes]

/-! ## What the calls do with it -/

variable {ofile after child : OFile} {fd : Fin nofile} {spare : Holding O}

theorem filedup_holds (f : Fin nfile) (spare : Holding O) :
    (custody O).Holds ({.ref f} + spare) (filedup f) fun _ kept =>
      kept = {.ref f} + ({.ref f} + spare) := by
  show (custody O).Holds ((custody O).takes (.filedup f) + spare) _ _
  refine Contract.Holds.call fun fine told => ?_
  obtain rfl : fine = true := told
  have both : (custody O).gives (.filedup f) true = {.ref f} + {.ref f} := by
    show ({.ref f, .ref f} : Holding O) = _
    rw [singleton_add]
    rfl
  rw [both, add_assoc]
  exact Contract.Holds.done rfl

theorem put_holds {α : Type} {rest : Prog O α} {post : α → Holding O → Prop} (o : O)
    (holds : (custody O).Holds spare rest post) :
    (custody O).Holds ({.obj o} + spare) (.call (.put o) fun _ => rest) post := by
  show (custody O).Holds ((custody O).takes (.put o) + spare) _ _
  refine Contract.Holds.call fun _ _ => ?_
  rwa [show (custody O).gives (.put o) () + spare = spare from zero_add spare]

theorem fileclose_holds (f : Fin nfile) (spare : Holding O) :
    (custody O).Holds ({.ref f} + spare) (fileclose f) fun _ kept => kept = spare := by
  show (custody O).Holds ((custody O).takes (.fileclose f) + spare) _ _
  refine Contract.Holds.call fun answer told => ?_
  match answer, told with
  | some none, _ => exact Contract.Holds.done (zero_add spare)
  | some (some o), _ =>
    refine put_holds o ?_
    exact Contract.Holds.done rfl

theorem fileclose_fresh (f : Fin nfile) (spare : Holding O) :
    (custody O).Holds ({.fresh f} + spare) (fileclose f) fun _ kept => kept = spare := by
  refine Contract.Holds.of_update ⟨fun o => ?_, fun g => ?_, fun g => ?_⟩ (fileclose_holds f spare)
  · simp
  · by_cases same : g = f
    · subst same
      simp
      omega
    · simp [same]
  · simp [Multiset.count_cons]

theorem sysDup_holds (ofile : OFile) (fd : Fin nofile) :
    (custody O).Holds (refs ofile) (sysDup ofile fd) Ends := by
  unfold sysDup
  split
  · exact Contract.Holds.pure (.one rfl)
  · next f open_ =>
     split
     · exact Contract.Holds.pure (.one rfl)
     · next after other taken =>
        obtain ⟨-, -, more⟩ := refs_of_fdalloc (O := O) taken
        obtain ⟨rest, whole, -⟩ := refs_update (O := O) ofile fd
        rw [open_] at whole
        have holds := filedup_holds f rest
        rw [← show refs ofile = {.ref f} + rest from whole] at holds
        exact holds.bind fun _ kept same => Contract.Holds.pure (.one (same.trans more.symm))

theorem sysClose_holds (ofile : OFile) (fd : Fin nofile) :
    (custody O).Holds (refs ofile) (sysClose ofile fd) Ends := by
  unfold sysClose
  split
  · exact Contract.Holds.pure (.one rfl)
  · next f open_ =>
     obtain ⟨rest, whole, moved⟩ := refs_update (O := O) ofile fd
     rw [open_] at whole
     rw [whole]
     refine (fileclose_holds f rest).bind fun _ kept same => Contract.Holds.pure (.one ?_)
     rw [same, moved, entry, zero_add]

theorem filealloc_holds {α : Type} {rest : Option (Fin nfile) → Prog O α}
    {post : α → Holding O → Prop} (none_ : (custody O).Holds spare (rest none) post)
    (some_ : ∀ f, (custody O).Holds ({.fresh f} + spare) (rest (some f)) post) :
    (custody O).Holds spare (.call .filealloc rest) post := by
  have holds : (custody O).Holds ((custody O).takes .filealloc + spare) (.call .filealloc rest)
      post := by
    refine Contract.Holds.call fun answer _ => ?_
    match answer with
    | none =>
      rw [show (custody O).gives .filealloc none + spare = spare from zero_add spare]
      exact none_
    | some f => exact some_ f
  rwa [show (custody O).takes .filealloc + spare = spare from zero_add spare] at holds

theorem obtain_holds {α : Type} {rest : Prog O α} {post : α → Holding O → Prop} (o : O)
    (holds : (custody O).Holds ({.obj o} + spare) rest post) :
    (custody O).Holds spare (.call (.obtain o) fun _ => rest) post := by
  have call : (custody O).Holds ((custody O).takes (.obtain o) + spare)
      (.call (.obtain o) fun _ => rest) post := Contract.Holds.call fun _ _ => holds
  rwa [show (custody O).takes (.obtain o) + spare = spare from zero_add spare] at call

theorem attach_holds {α : Type} {rest : Prog O α} {post : α → Holding O → Prop} (f : Fin nfile)
    (o : O) (holds : (custody O).Holds ({.ref f} + spare) rest post) :
    (custody O).Holds ({.fresh f} + ({.obj o} + spare)) (.call (.attach f o) fun _ => rest)
      post := by
  have taken : ({.fresh f} + ({.obj o} + spare) : Holding O) =
      (custody O).takes (.attach f o) + spare := by
    show _ = ({.fresh f, .obj o} : Holding O) + spare
    rw [← add_assoc, singleton_add]
    rfl
  rw [taken]
  exact Contract.Holds.call fun _ _ => holds

theorem sysOpen_holds (ofile : OFile) (ip : O) :
    (custody O).Holds (refs ofile) (sysOpen ofile ip) Ends := by
  refine obtain_holds ip (filealloc_holds ?_ fun f => ?_)
  · exact put_holds ip (Contract.Holds.pure (.one rfl))
  · dsimp only
    split
    · refine (fileclose_fresh f _).bind fun _ kept same => ?_
      rw [same]
      exact put_holds ip (Contract.Holds.pure (.one rfl))
    · next after fd taken =>
       obtain ⟨-, -, more⟩ := refs_of_fdalloc (O := O) taken
       exact attach_holds f ip (Contract.Holds.pure (.one more.symm))

theorem pipealloc_holds (r w : O) (page : Bool) (spare : Holding O) :
    (custody O).Holds spare (pipealloc r w page) fun answer kept =>
      kept = (answer.elim 0 fun files => {.ref files.1} + {.ref files.2}) + spare := by
  refine filealloc_holds (Contract.Holds.pure (zero_add spare).symm) fun f0 => ?_
  refine filealloc_holds ?_ fun f1 => ?_
  · exact (fileclose_fresh f0 _).bind fun _ kept same =>
      Contract.Holds.pure (same.trans (zero_add spare).symm)
  · dsimp only
    split
    · refine obtain_holds r (obtain_holds w ?_)
      have order : ({.obj w} + ({.obj r} + ({.fresh f1} + ({.fresh f0} + spare))) : Holding O) =
          {.fresh f0} + ({.obj r} + ({.fresh f1} + ({.obj w} + spare))) := by abel
      rw [order]
      refine attach_holds f0 r ?_
      have order : ({.ref f0} + ({.fresh f1} + ({.obj w} + spare)) : Holding O) =
          {.fresh f1} + ({.obj w} + ({.ref f0} + spare)) := by abel
      rw [order]
      refine attach_holds f1 w (Contract.Holds.pure ?_)
      show {.ref f1} + ({.ref f0} + spare) = {.ref f0} + {.ref f1} + spare
      abel
    · have order : ({.fresh f1} + ({.fresh f0} + spare) : Holding O) =
          {.fresh f0} + ({.fresh f1} + spare) := by abel
      rw [order]
      refine (fileclose_fresh f0 _).bind fun _ kept same => ?_
      rw [same]
      refine (fileclose_fresh f1 _).bind fun _ kept same => ?_
      exact Contract.Holds.pure (same.trans (zero_add spare).symm)

theorem closeBoth_holds (rf wf : Fin nfile) {last : OFile}
    (same : (refs last : Holding O) = spare) :
    (custody O).Holds ({.ref rf} + {.ref wf} + spare) (closeBoth rf wf last) Ends := by
  rw [add_assoc]
  refine (fileclose_holds rf _).bind fun _ kept first => ?_
  rw [first]
  refine (fileclose_holds wf _).bind fun _ kept second => ?_
  exact Contract.Holds.pure (.one (second.trans same.symm))

theorem sysPipe_holds (ofile : OFile) (r w : O) (page copied : Bool) :
    (custody O).Holds (refs ofile) (sysPipe ofile r w page copied) Ends := by
  refine (pipealloc_holds r w page (refs ofile)).bind fun answer kept same => ?_
  cases answer with
  | none => exact Contract.Holds.pure (.one (same.trans (zero_add _)))
  | some files =>
    obtain ⟨rf, wf⟩ := files
    obtain rfl : kept = {.ref rf} + {.ref wf} + refs ofile := same
    dsimp only
    split
    · exact closeBoth_holds rf wf rfl
    · next one fd0 first =>
       obtain ⟨unused, rfl, more⟩ := refs_of_fdalloc (O := O) first
       split
       · refine closeBoth_holds rf wf ?_
         rw [update_idem, ← unused, update_eq_self]
       · next both fd1 second =>
          obtain ⟨free, rfl, last⟩ := refs_of_fdalloc (O := O) second
          split
          · refine Contract.Holds.pure (.one ?_)
            rw [last, more]
            abel
          · refine closeBoth_holds rf wf ?_
            have apart : fd1 ≠ fd0 := by
              rintro rfl
              rw [update_self] at free
              cases free
            rw [update_of_ne apart] at free
            have back : update (update (update
                (update ofile fd0 (some rf)) fd1 (some wf)) fd0 none) fd1 none =
                  ofile := by
              funext fd
              by_cases one : fd = fd1
              · subst one
                rw [update_self, free]
              · rw [update_of_ne one]
                by_cases zero : fd = fd0
                · subst zero
                  rw [update_self, unused]
                · rw [update_of_ne zero, update_of_ne one,
                    update_of_ne zero]
            rw [back]

/-- `fork` gives the child a reference for each descriptor. -/
theorem dupAll_holds (ofile : OFile) {fds : List (Fin nofile)} (once : fds.Nodup)
    (unused : ∀ fd ∈ fds, child fd = none) :
    (custody O).Holds (refs ofile + refs child) (dupAll ofile fds child) fun last kept =>
      kept = refs ofile + refs last := by
  induction fds generalizing child with
  | nil => exact Contract.Holds.pure rfl
  | cons fd fds ih =>
    obtain ⟨fresh, once⟩ := List.nodup_cons.mp once
    have later (other : Fin nofile) (member : other ∈ fds) : child other = none :=
      unused other (List.mem_cons_of_mem fd member)
    unfold dupAll
    split
    · exact ih once later
    · next f open_ =>
       obtain ⟨rest, whole, -⟩ := refs_update (O := O) ofile fd
       rw [open_] at whole
       have more : (refs (update child fd (some f)) : Holding O) =
           {.ref f} + refs child :=
         refs_add f (unused fd List.mem_cons_self)
       have split : (refs ofile + refs child : Holding O) = {.ref f} + (rest + refs child) := by
         rw [whole, entry, add_assoc]
       rw [split]
       refine (filedup_holds f _).bind fun _ kept same => ?_
       have before : kept = refs ofile + refs (update child fd (some f)) := by
         rw [same, more, whole, entry]
         abel
       rw [before]
       refine ih once fun other member => ?_
       have apart : other ≠ fd := by
         rintro rfl
         exact fresh member
       rw [update_of_ne apart]
       exact later other member

theorem fork_holds (ofile : OFile) (made : Bool) :
    (custody O).Holds (refs ofile) (fork ofile made) Ends := by
  unfold fork
  split
  · have start : (refs ofile : Holding O) = refs ofile + refs (fun _ => none) := by
      rw [refs_empty, add_zero]
    rw [start]
    refine (dupAll_holds ofile (List.nodup_finRange nofile) fun _ _ => rfl).bind
      fun last kept same => ?_
    refine Contract.Holds.pure ?_
    simpa [Ends] using same
  · exact Contract.Holds.pure (.one rfl)

/-- `exit` gives up the reference of each descriptor. -/
theorem closeAll_holds (fds : List (Fin nofile)) (ofile : OFile) :
    (custody O).Holds (refs ofile) (closeAll fds ofile) fun last kept =>
      kept = refs last ∧ ∀ fd, fd ∈ fds ∨ ofile fd = none → last fd = none := by
  induction fds generalizing ofile with
  | nil => exact Contract.Holds.pure ⟨rfl, fun fd closed => closed.resolve_left List.not_mem_nil⟩
  | cons fd fds ih =>
    unfold closeAll
    split
    · next closed =>
       refine (ih ofile).mono fun last kept ends => ⟨ends.1, fun other gone => ends.2 other ?_⟩
       rcases gone with member | gone
       · rcases List.mem_cons.mp member with rfl | member
         · exact .inr closed
         · exact .inl member
       · exact .inr gone
    · next f open_ =>
       obtain ⟨rest, whole, moved⟩ := refs_update (O := O) ofile fd
       rw [open_] at whole
       rw [whole]
       refine (fileclose_holds f rest).bind fun _ kept same => ?_
       have before : kept = refs (update ofile fd none) := by
         rw [same, moved, entry, zero_add]
       rw [before]
       refine (ih _).mono fun last kept ends => ⟨ends.1, fun other gone => ends.2 other ?_⟩
       by_cases here : other = fd
       · subst here
         exact .inr (update_self _ _ _)
       · rw [update_of_ne here]
         rcases gone with member | gone
         · exact .inl ((List.mem_cons.mp member).resolve_left here)
         · exact .inr gone

theorem exit_holds (ofile : OFile) : (custody O).Holds (refs ofile) (exit ofile) Ends := by
  refine (closeAll_holds (List.finRange nofile) ofile).bind fun last kept ends => ?_
  have closed : last = fun _ => none := funext fun fd => ends.2 fd (.inl (List.mem_finRange fd))
  exact Contract.Holds.pure (by rw [Ends, ends.1, closed, refs_empty]; rfl)

/-- Every call ends with the references of the descriptors that there are then. -/
theorem body_holds (ofile : OFile) (call : Call O) :
    (custody O).Holds (refs ofile) (body ofile call) Ends := by
  cases call with
  | dup fd => exact sysDup_holds ofile fd
  | close fd => exact sysClose_holds ofile fd
  | openFile ip => exact sysOpen_holds ofile ip
  | pipe r w page copied => exact sysPipe_holds ofile r w page copied
  | fork made => exact fork_holds ofile made
  | exit => exact exit_holds ofile

/-! ## Runs -/

/-- The descriptors of a process that is in no call. -/
def resting : Member (Op O) Answer Panic OFile → Option OFile
  | .idle ofile => some ofile
  | .busy _ => none

/-- How many descriptors of processes in no call refer to a file. -/
def opened (members : List (Member (Op O) Answer Panic OFile)) (f : Fin nfile) : Nat :=
  ((members.filterMap resting).map fun ofile =>
    (Finset.univ.filter fun fd => ofile fd = some f).card).sum

/-- No call panics, no file is closed that a descriptor refers to, and a file that can be taken
stands for nothing. In a state in which no call goes on the counts are those of the
descriptors, and the kernel has just the objects that files stand for. -/
structure Counted (crew : Processes O) : Prop where
  panics : ∀ (i : Nat) (program : Prog O (List OFile)) (op : Op O),
    crew.members[i]? = some (.busy program) → program.nextOp = some op →
      learns op (crew.object.perform op).1
  opened : ∀ f, opened crew.members f ≤ (crew.object.file f).ref
  clean : ∀ f, (crew.object.file f).ref = 0 → (crew.object.file f).obj = none
  settled : (∀ member ∈ crew.members, (resting member).isSome = true) →
    (∀ f, (crew.object.file f).ref = References.opened crew.members f) ∧
      ∀ o, crew.object.live o = tally fun f => decide ((crew.object.file f).obj = some o)

theorem count_entry (value : Option (Fin nfile)) (f : Fin nfile) :
    (entry value : Holding O).count (.ref f) = if value = some f then 1 else 0 := by
  cases value with
  | none => rfl
  | some g => simp [entry, count_singleton, eq_comm]

theorem count_refs (ofile : OFile) (f : Fin nfile) : (refs ofile : Holding O).count (.ref f) =
      (Finset.univ.filter fun fd => ofile fd = some f).card := by
  rw [refs, count_sum', Finset.card_filter]
  exact Finset.sum_congr rfl fun fd _ => count_entry (ofile fd) f

theorem opened_cons (member : Member (Op O) Answer Panic OFile)
    (members : List (Member (Op O) Answer Panic OFile)) (f : Fin nfile) :
    opened (member :: members) f =
      (resting member).elim 0 (fun ofile => (refs ofile : Holding O).count (.ref f)) +
        opened members f := by
  cases member with
  | idle ofile => simp [opened, resting, count_refs]
  | busy program =>
    rw [opened, List.filterMap_cons_none rfl]
    exact (Nat.zero_add _).symm

theorem opened_le {members : List (Member (Op O) Answer Panic OFile)} {held : Holding O}
    (holds : Crew.Holds (custody O) refs members held) (f : Fin nfile) :
    opened members f ≤ held.count (.ref f) := by
  induction holds with
  | nil => exact Nat.le_refl 0
  | @cons member members held others meets rest ih =>
    rw [opened_cons, count_add]
    cases member with
    | idle ofile =>
      obtain rfl : held = refs ofile := meets
      exact Nat.add_le_add_left ih _
    | busy program =>
      show 0 + opened members f ≤ _
      omega

theorem refs_only (ofile : OFile) : (∀ f, (refs ofile : Holding O).count (.fresh f) = 0) ∧
    ∀ o, (refs ofile : Holding O).count (.obj o) = 0 := by
  have none_ (item : Item O) (other : ∀ f, item ≠ .ref f) : (refs ofile).count item = 0 := by
    rw [refs, count_sum']
    refine Finset.sum_eq_zero fun fd _ => ?_
    cases ofile fd with
    | none => rfl
    | some f => simp [entry, other f]
  exact ⟨fun f => none_ _ fun _ same => (by cases same),
    fun o => none_ _ fun _ same => (by cases same)⟩

/-- Between the calls only references are held, one for each descriptor. -/
theorem settled {members : List (Member (Op O) Answer Panic OFile)} {held : Holding O}
    (holds : Crew.Holds (custody O) refs members held)
    (rest : ∀ member ∈ members, (resting member).isSome = true) :
    (∀ f, held.count (.ref f) = opened members f ∧ held.count (.fresh f) = 0) ∧
      ∀ o, held.count (.obj o) = 0 := by
  induction holds with
  | nil => exact ⟨fun _ => ⟨rfl, rfl⟩, fun _ => rfl⟩
  | @cons member members held others meets _ ih =>
    obtain ⟨files, objects⟩ := ih fun other inside => rest other (List.mem_cons_of_mem _ inside)
    cases member with
    | idle ofile =>
      obtain rfl : held = refs ofile := meets
      obtain ⟨noFresh, noObj⟩ := refs_only (O := O) ofile
      refine ⟨fun f => ?_, fun o => ?_⟩
      · rw [opened_cons, count_add, count_add, (files f).1, (files f).2,
          noFresh]
        exact ⟨rfl, rfl⟩
      · rw [count_add, noObj, objects]
    | busy program => cases rest _ List.mem_cons_self

theorem start_sound : Crew.Sound (custody O) refs Accounts (start : Processes O) := by
  refine ⟨refs (fun _ => none), .single rfl, ?_⟩
  rw [refs_empty]
  refine ⟨fun _ => rfl, fun f never => absurd never (Nat.lt_irrefl 0), fun _ _ => rfl, fun o => ?_⟩
  have nothing : tally (fun _ : Fin nfile => decide ((none : Option O) = some o)) = 0 :=
    tally_eq_zero.mpr fun _ => rfl
  show (0 : Int) = ((0 : Holding O).count (.obj o) : Int) +
    tally fun _ : Fin nfile => decide ((none : Option O) = some o)
  rw [nothing, Multiset.count_zero]
  rfl

/-- However the calls of the processes interleave, the files are counted. -/
theorem counted_of_runs {events : List (CrewEvent (Call O))} {crew : Processes O}
    (runs : (system O).Runs events crew) : Counted crew := by
  have sound : Crew.Sound (custody O) refs Accounts crew := by
    refine Crew.Sound.of_runs (fun crew starts => ?_) Accounts.backed Accounts.performs
      body_holds runs
    rw [show crew = start from starts]
    exact start_sound
  obtain ⟨held, holds, accounts⟩ := id sound
  refine ⟨fun i program op here due => ?_, fun f => ?_, accounts.free, fun rest => ⟨fun f => ?_,
    fun o => ?_⟩⟩
  · exact sound.learns Accounts.backed Accounts.performs here due
  · rw [accounts.refs]
    exact Nat.le_add_right_of_le (opened_le holds f)
  · obtain ⟨ref, fresh⟩ := (settled holds rest).1 f
    rw [accounts.refs, ref, fresh, Nat.add_zero]
  · rw [accounts.live, (settled holds rest).2]
    exact zero_add _

end Custody

/-- The first process opens a file, duplicates the descriptor and forks. It closes one of the
two, and its child exits. -/
theorem counted_after_exit : ∃ events crew, (system (Fin 2)).Runs events crew ∧
    (crew.object.file ⟨0, by decide⟩).ref = 1 ∧ crew.object.live 1 = 1 ∧ Counted crew := by
  let events : List (CrewEvent (Call (Fin 2))) := [.call 0 (.openFile 1), .step 0, .step 0, .step 0,
    .ret 0, .call 0 (.dup ⟨0, by decide⟩), .step 0, .ret 0, .call 0 (.fork true), .step 0, .step 0,
    .ret 0, .call 0 (.close ⟨0, by decide⟩), .call 1 .exit, .step 1, .step 0, .ret 0, .step 1, .ret 1]
  have found : (LabelledSystem.exec (Crew.step Table.perform body) start events).any (fun crew =>
      decide ((crew.object.file ⟨0, by decide⟩).ref = 1 ∧ crew.object.live 1 = 1)) = true := by
    decide +kernel
  obtain ⟨crew, result, facts⟩ := (Option.any_eq_true _ _).mp found
  obtain ⟨once, alive⟩ := of_decide_eq_true facts
  have runs : (system (Fin 2)).Runs events crew := LabelledSystem.Runs.of_exec rfl result
  exact ⟨events, crew, runs, once, alive, counted_of_runs runs⟩

end Ev6.Files.References
