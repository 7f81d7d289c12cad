import Ev6.Files.Tables
import Ev6.Support.CString
import Ev6.Support.LabelledSystem
import Mathlib.Data.Fin.Basic
import Mathlib.Data.PNat.Defs

/-!
# The arguments of `open`

`sysev6.c` keeps the path and the mode of every open file of every process in
`oa_table`, so that a file can be opened again after a recovery. The paths are copied
with `strncpy` and the length of the source, which writes no NUL.
-/

namespace Ev6.Files

open Option (any_eq_true isSome_iff_exists map_eq_some_iff)
open List (mem_cons mem_finRange)
open Function (update update_eq_self_iff update_of_ne update_self)
open Support

/-- `MAXPATH`. -/
def maxpath : Nat := 128

/-- A path that a caller passes: without a NUL inside, and shorter than `MAXPATH`. -/
structure Path where
  bytes : List UInt8
  plain : Unterminated bytes
  short : bytes.length < maxpath

/-- `struct open_args`. -/
structure OpenArgs where
  path : List UInt8
  omode : Int

/-- `struct open_arg_table`. -/
structure OpenArgTable where
  args : Fin nofile → OpenArgs
  pid : Nat

/-- `oa_table`. -/
abbrev OaTable := Fin nproc → OpenArgTable

/-- An entry whose bytes are all zero. -/
def OpenArgs.cleared : OpenArgs := ⟨List.replicate maxpath 0, 0⟩

/-- A slot whose bytes are all zero. -/
def OpenArgTable.cleared : OpenArgTable := ⟨fun _ => .cleared, 0⟩

/-- Replace one entry of a slot. -/
def OpenArgTable.setArgs (slot : OpenArgTable) (fd : Fin nofile) (args : OpenArgs) : OpenArgTable :=
  { slot with args := update slot.args fd args }

/-- The scan for the slot of a process. -/
def slotOf (table : OaTable) (pid : ℕ+) : Option (Fin nproc) :=
  Fin.find? fun i => decide ((table i).pid = pid)

/-- The scan of `rec_open_args`, from the slots left on: `oat` is the first empty slot
so far. -/
def recSlot (table : OaTable) (pid : ℕ+) : List (Fin nproc) → Option (Fin nproc) →
    Option (Fin nproc)
  | [], oat => oat
  | i :: rest, oat =>
    if oat = none ∧ (table i).pid = 0 then recSlot table pid rest (some i)
    else if (table i).pid = pid then some i
    else recSlot table pid rest oat

/-- `strncpy(entry.path, path, strlen(path))`, and the mode. -/
def OpenArgs.record (entry : OpenArgs) (path : List UInt8) (omode : Int) : OpenArgs :=
  ⟨strncpy entry.path path (strlen path), omode⟩

/-- `rec_open_args`. `none` is an access through a null pointer, when no slot is left. -/
def recOpenArgs (table : OaTable) (pid : ℕ+) (fd : Fin nofile) (path : Path) (omode : Int) :
    Option OaTable :=
  (recSlot table pid (List.finRange nproc) none).map fun i =>
    let oat := if (table i).pid = 0 then { table i with pid := pid } else table i
    update table i (oat.setArgs fd ((oat.args fd).record (path.bytes ++ [0]) omode))

/-- `del_open_args`. `none` is a panic. -/
def delOpenArgs (table : OaTable) (pid : ℕ+) (fd : Fin nofile) : Option OaTable :=
  (slotOf table pid).map fun i => update table i ((table i).setArgs fd .cleared)

/-- `copy_open_args`: `ofile` has the files of the process. `none` is a panic, or an
access behind the last entry, when the process does not have the file open. -/
def copyOpenArgs (table : OaTable) (pid : ℕ+) (target : Fin nofile) (ofile : Fin nofile → Nat)
    (f : Nat) : Option OaTable :=
  (slotOf table pid).bind fun i =>
    (Fin.find? fun fd => decide (ofile fd = f)).map fun source =>
      update table i ((table i).setArgs target
        (((table i).args target).record ((table i).args source).path ((table i).args source).omode))

/-- `free_open_arg_table`. -/
def freeOpenArgTable (table : OaTable) (pid : ℕ+) : OaTable :=
  match slotOf table pid with
  | some i => update table i .cleared
  | none => table

/-- One round of the scan of `copy_open_arg_table`: the slot of the parent, and the first
empty slot. -/
def copyVisit (table : OaTable) (parent : ℕ+) (found : Option (Fin nproc) × Option (Fin nproc))
    (i : Fin nproc) : Option (Fin nproc) × Option (Fin nproc) :=
  if found.2 = none ∧ (table i).pid = 0 then (found.1, some i)
  else if (table i).pid = parent then (some i, found.2)
  else found

/-- The scan of `copy_open_arg_table`, from the slots left on. -/
def copySlots (table : OaTable) (parent : ℕ+) : List (Fin nproc) →
    Option (Fin nproc) × Option (Fin nproc) → Option (Fin nproc) × Option (Fin nproc)
  | [], found => found
  | i :: rest, found =>
    let found := copyVisit table parent found i
    if found.1.isSome ∧ found.2.isSome then found else copySlots table parent rest found

/-- `copy_open_arg_table`. `none` is a panic. -/
def copyOpenArgTable (table : OaTable) (parent child : ℕ+) : Option OaTable :=
  match copySlots table parent (List.finRange nproc) (none, none) with
  | (some source, some target) => some (update table target { table source with pid := child })
  | _ => none

/-- `sys_pick_fd` behind `argstr`. `none` is a panic. -/
def sysPickFd (table : OaTable) (pid : ℕ+) (path : Path) (omode : Int) : Option Int :=
  (slotOf table pid).map fun i =>
    match Fin.find? fun fd =>
        decide (strncmp ((table i).args fd).path (path.bytes ++ [0]) path.bytes.length = 0 ∧
          ((table i).args fd).omode = omode) with
    | some fd => (fd : Nat)
    | none => -1

/-- A call. A copy is made for `dup`, of the descriptor `source`, which `copy_open_args` is not
told. -/
inductive OpenArgCall where
  | record (pid : ℕ+) (fd : Fin nofile) (path : Path) (omode : Int)
  | del (pid : ℕ+) (fd : Fin nofile)
  | copy (pid : ℕ+) (source target : Fin nofile) (ofile : Fin nofile → Nat) (f : Nat)
  | free (pid : ℕ+)
  | copyTable (parent child : ℕ+)

/-- What a call makes of the table. -/
def openArgStep (table : OaTable) : OpenArgCall → Option OaTable
  | .record pid fd path omode => recOpenArgs table pid fd path omode
  | .del pid fd => delOpenArgs table pid fd
  | .copy pid _ target ofile f => copyOpenArgs table pid target ofile f
  | .free pid => some (freeOpenArgTable table pid)
  | .copyTable parent child => copyOpenArgTable table parent child

/-- The calls from boot on. -/
def openArgSystem : LabelledSystem OaTable OpenArgCall :=
  .ofFunction (· = fun _ => .cleared) openArgStep

/-! ## What the table is for -/

/-- A path and a mode. -/
abbrev Record := Path × Int

/-- Nothing is recorded. -/
def Record.blank : Record := (⟨[], fun _ mem => absurd mem List.not_mem_nil, by decide⟩, 0)

/-- What has last been recorded or copied for the files of each process. -/
abbrev Ledger := ℕ+ → Option (Fin nofile → Record)

/-- What a call records. -/
def Ledger.after (ledger : Ledger) : OpenArgCall → Ledger
  | .record pid fd path omode =>
    update ledger pid
      (some (update ((ledger pid).getD fun _ => .blank) fd (path, omode)))
  | .del pid fd =>
    update ledger pid
      ((ledger pid).map fun records => update records fd .blank)
  | .copy pid source target _ _ =>
    update ledger pid
      ((ledger pid).map fun records => update records target (records source))
  | .free pid => update ledger pid none
  | .copyTable parent child => update ledger child (ledger parent)

/-- The ledger behind some calls. -/
def ledgerOf (calls : List OpenArgCall) : Ledger :=
  calls.foldl Ledger.after fun _ => none

/-- What the entries of a process say: the string in the array, and the mode. -/
def contents (table : OaTable) (pid : ℕ+) : Option (Fin nofile → List UInt8 × Int) :=
  (slotOf table pid).map fun i fd => (cString ((table i).args fd).path, ((table i).args fd).omode)

/-- The lowest file of a process whose entry is a path and a mode, or -1. -/
def exactFd (entries : Fin nofile → List UInt8 × Int) (path : Path) (omode : Int) : Int :=
  match Fin.find? fun fd => decide (entries fd = (path.bytes, omode)) with
  | some fd => (fd : Nat)
  | none => -1

/-- The condition on a call: there is a slot for it; a path is not copied over a longer
one; the lowest descriptor that has the copied file says what the copied descriptor does; and
the child of a fork has no slot yet. -/
def Accepts (table : OaTable) : OpenArgCall → Prop
  | .record pid fd path _ =>
    ((∃ i, (table i).pid = pid) ∨ ∃ i, (table i).pid = 0) ∧
      ∀ entries, contents table pid = some entries →
        (entries fd).1.length ≤ path.bytes.length
  | .del pid _ => ∃ i, (table i).pid = pid
  | .copy pid source target ofile f =>
    ∃ entries lowest, contents table pid = some entries ∧
      (Fin.find? fun fd => decide (ofile fd = f)) = some lowest ∧
        entries lowest = entries source ∧ (entries target).1.length ≤ (entries source).1.length
  | .free _ => True
  | .copyTable parent child =>
    (∃ i, (table i).pid = parent) ∧ (∃ i, (table i).pid = 0) ∧ ∀ i, (table i).pid ≠ child

/-- The condition on a search: an entry that only begins with the path comes behind one
that is the path. -/
def Unshadowed (entries : Fin nofile → List UInt8 × Int) (path : Path) (omode : Int) : Prop :=
  ∀ fd, path.bytes <+: (entries fd).1 → (entries fd).1 ≠ path.bytes → (entries fd).2 = omode →
    ∃ lower < fd, entries lower = (path.bytes, omode)

/-! ## Entries -/

/-- A record as an entry: the path with zeros up to the end of the array. -/
def Record.encode (rec : Record) : OpenArgs :=
  ⟨rec.1.bytes ++ List.replicate (maxpath - rec.1.bytes.length) 0, rec.2⟩

theorem Record.encode_blank : Record.blank.encode = .cleared := rfl

theorem Record.ext_bytes {old new : Record} (same : (old.1.bytes, old.2) = (new.1.bytes, new.2)) :
    old = new := by
  obtain ⟨⟨bytes, plain, short⟩, omode⟩ := old
  cases same
  rfl

theorem Record.cString_encode (rec : Record) : cString rec.encode.path = rec.1.bytes :=
  cString_append_zeros rec.1.plain _

/-- Copying a path over one that is not longer leaves the path alone in the entry. -/
theorem Record.record_encode {old new : Record} {path : List UInt8} {zeros : Nat}
    (source : path = new.1.bytes ++ List.replicate zeros 0)
    (fits : old.1.bytes.length ≤ new.1.bytes.length) :
    old.encode.record path new.2 = new.encode := by
  have length : strlen path = new.1.bytes.length := by
    rw [source, strlen, cString_append_zeros new.1.plain]
  have short := new.1.short
  have room : new.1.bytes.length ≤ old.encode.path.length := by
    have shortOld := old.1.short
    simp only [encode, List.length_append, List.length_replicate]
    omega
  have behind : old.encode.path.drop new.1.bytes.length =
      List.replicate (maxpath - new.1.bytes.length) 0 := by
    simp only [encode]
    rw [List.drop_append, List.drop_of_length_le fits, List.nil_append, List.drop_replicate]
    congr 1
    omega
  unfold OpenArgs.record
  rw [length, source, strncpy_length new.1.plain room, behind]
  rfl

/-! ## The table and the ledger -/

/-- The table says what the ledger does: a process has one slot at most, and its entries
are its records; the other slots are empty. -/
structure Agrees (table : OaTable) (ledger : Ledger) : Prop where
  unique : ∀ i j, (table i).pid ≠ 0 → (table i).pid = (table j).pid → i = j
  idle : ∀ i, (table i).pid = 0 → ∀ fd, (table i).args fd = Record.blank.encode
  kept : ∀ (pid : ℕ+) i, (table i).pid = pid →
    ∃ records, ledger pid = some records ∧ ∀ fd, (table i).args fd = (records fd).encode
  known : ∀ (pid : ℕ+) records, ledger pid = some records → ∃ i, (table i).pid = pid

theorem agrees_start : Agrees (fun _ => .cleared) (fun _ => none) where
  unique _ _ used := absurd rfl used
  idle _ _ _ := rfl
  kept pid _ same := absurd same.symm pid.pos.ne'
  known _ _ none := by cases none

variable {table : OaTable} {ledger : Ledger}

variable {i : Fin nproc} {pid : ℕ+}

theorem Agrees.slotOf_eq_some (agrees : Agrees table ledger) :
    slotOf table pid = some i ↔ (table i).pid = pid := by
  rw [slotOf, Fin.find?_eq_some_iff]
  simp only [decide_eq_true_eq, decide_eq_false_iff_not]
  refine ⟨And.left, fun own => ⟨own, fun j below same => ?_⟩⟩
  have used : (table j).pid ≠ 0 := by
    rw [same]
    exact pid.pos.ne'
  exact absurd (agrees.unique j i used (same.trans own.symm)) (ne_of_lt below)

theorem slotOf_eq_none : slotOf table pid = none ↔ ∀ i, (table i).pid ≠ pid := by
  rw [slotOf, Fin.find?_eq_none_iff]
  simp only [decide_eq_false_iff_not, ne_eq]

theorem Agrees.contents_eq (agrees : Agrees table ledger) (pid : ℕ+) :
    contents table pid =
      (ledger pid).map fun records fd => ((records fd).1.bytes, (records fd).2) := by
  unfold contents
  cases found : slotOf table pid with
  | none =>
    cases recorded : ledger pid with
    | none => rfl
    | some records =>
      obtain ⟨i, own⟩ := agrees.known pid records recorded
      exact absurd own (slotOf_eq_none.mp found i)
  | some i =>
    obtain ⟨records, recorded, entries⟩ := agrees.kept pid i (agrees.slotOf_eq_some.mp found)
    rw [recorded]
    simp only [Option.map_some, entries, Record.cString_encode]
    rfl

/-- A slot of the process, or an empty slot for a process without one, gets the records
of the process. -/
theorem Agrees.set (agrees : Agrees table ledger)
    (slot : (table i).pid = pid ∨ (table i).pid = 0 ∧ ∀ j, (table j).pid ≠ pid)
    (records : Fin nofile → Record) : Agrees (update table i ⟨fun fd => (records fd).encode, pid⟩)
      (update ledger pid (some records)) := by
  have others : ∀ j, j ≠ i → (table j).pid ≠ pid := by
    intro j different same
    rcases slot with own | ⟨-, none⟩
    · have used : (table j).pid ≠ 0 := by
        rw [same]
        exact pid.pos.ne'
      exact different (agrees.unique j i used (same.trans own.symm))
    · exact none j same
  have kept : ∀ j, j ≠ i →
      update table i ⟨fun fd => (records fd).encode, pid⟩ j = table j :=
    fun j different => update_of_ne different _ _
  refine ⟨fun j k used same => ?_, fun j unused fd => ?_, fun other j own => ?_,
    fun other found recorded => ?_⟩
  · by_cases atJ : j = i
    · by_cases atK : k = i
      · rw [atJ, atK]
      · rw [kept k atK, atJ, update_self] at same
        exact absurd same.symm (others k atK)
    · rw [kept j atJ] at used same
      by_cases atK : k = i
      · rw [atK, update_self] at same
        exact absurd same (others j atJ)
      · rw [kept k atK] at same
        exact agrees.unique j k used same
  · by_cases atJ : j = i
    · rw [atJ, update_self] at unused
      exact absurd unused pid.pos.ne'
    · rw [kept j atJ] at unused ⊢
      exact agrees.idle j unused fd
  · by_cases atJ : j = i
    · rw [atJ, update_self] at own ⊢
      obtain rfl : pid = other := PNat.coe_injective own
      exact ⟨records, update_self _ _ _, fun _ => rfl⟩
    · rw [kept j atJ] at own ⊢
      have different : other ≠ pid := by
        rintro rfl
        exact others j atJ own
      rw [update_of_ne different]
      exact agrees.kept other j own
  · by_cases same : other = pid
    · subst same
      exact ⟨i, by rw [update_self]⟩
    · rw [update_of_ne same] at recorded
      obtain ⟨j, own⟩ := agrees.known other found recorded
      have atJ : j ≠ i := by
        rintro rfl
        rcases slot with same' | ⟨unused, -⟩
        · exact same (PNat.coe_injective (own.symm.trans same'))
        · rw [unused] at own
          exact other.pos.ne own
      exact ⟨j, by rw [kept j atJ, own]⟩

/-- Freeing the slot of a process forgets its records. -/
theorem Agrees.free (agrees : Agrees table ledger) (pid : ℕ+) :
    Agrees (freeOpenArgTable table pid) (update ledger pid none) := by
  unfold freeOpenArgTable
  cases found : slotOf table pid with
  | none =>
    have absent := slotOf_eq_none.mp found
    have same : update ledger pid none = ledger := by
      refine update_eq_self_iff.mpr ?_
      cases recorded : ledger pid with
      | none => rfl
      | some records =>
        obtain ⟨i, own⟩ := agrees.known pid records recorded
        exact absurd own (absent i)
    rwa [same]
  | some i =>
    change Agrees (update table i .cleared) (update ledger pid none)
    have own := agrees.slotOf_eq_some.mp found
    have kept : ∀ j, j ≠ i → update table i .cleared j = table j :=
      fun j different => update_of_ne different _ _
    have mine : ∀ j, (table j).pid = pid → j = i := by
      intro j same
      refine agrees.unique j i ?_ (same.trans own.symm)
      rw [same]
      exact pid.pos.ne'
    refine ⟨fun j k used same => ?_, fun j unused fd => ?_, fun other j owned => ?_,
      fun other records recorded => ?_⟩
    · have atJ : j ≠ i := by
        rintro rfl
        rw [update_self] at used
        exact used rfl
      rw [kept j atJ] at used same
      have atK : k ≠ i := by
        rintro rfl
        rw [update_self] at same
        exact used same
      rw [kept k atK] at same
      exact agrees.unique j k used same
    · by_cases atJ : j = i
      · rw [atJ, update_self]
        rfl
      · rw [kept j atJ] at unused ⊢
        exact agrees.idle j unused fd
    · have atJ : j ≠ i := by
        rintro rfl
        rw [update_self] at owned
        exact other.pos.ne owned
      rw [kept j atJ] at owned ⊢
      have different : other ≠ pid := by
        rintro rfl
        exact atJ (mine j owned)
      rw [update_of_ne different]
      exact agrees.kept other j owned
    · have different : other ≠ pid := by
        rintro rfl
        rw [update_self] at recorded
        cases recorded
      rw [update_of_ne different] at recorded
      obtain ⟨j, owned⟩ := agrees.known other records recorded
      have atJ : j ≠ i := by
        rintro rfl
        exact different (PNat.coe_injective (owned.symm.trans own))
      exact ⟨j, by rw [kept j atJ, owned]⟩

/-! ## The scans -/

variable {slots : List (Fin nproc)}

/-- What `rec_open_args` finds: the slot of the process, or else an empty slot. -/
theorem recSlot_eq_some {oat : Option (Fin nproc)} (found : recSlot table pid slots oat = some i) :
    (table i).pid = pid ∨
      (oat = some i ∨ (table i).pid = 0) ∧ ∀ j ∈ slots, (table j).pid ≠ pid := by
  induction slots generalizing oat with
  | nil => exact .inr ⟨.inl found, fun _ mem => by cases mem⟩
  | cons first rest ih =>
    unfold recSlot at found
    split_ifs at found with empty own
    · rcases ih found with mine | ⟨here, none⟩
      · exact .inl mine
      · refine .inr ⟨.inr ?_, fun j mem => ?_⟩
        · rcases here with same | unused
          · cases same
            exact empty.2
          · exact unused
        · rcases mem_cons.mp mem with rfl | mem
          · rw [empty.2]
            exact pid.pos.ne
          · exact none j mem
    · cases found
      exact .inl own
    · rcases ih found with mine | ⟨here, none⟩
      · exact .inl mine
      · refine .inr ⟨here, fun j mem => ?_⟩
        rcases mem_cons.mp mem with rfl | mem
        · exact own
        · exact none j mem

theorem recSlot_isSome {oat : Option (Fin nproc)}
    (room : oat.isSome = true ∨ ∃ i ∈ slots, (table i).pid = pid ∨ (table i).pid = 0) :
    (recSlot table pid slots oat).isSome = true := by
  induction slots generalizing oat with
  | nil =>
    rcases room with here | ⟨i, mem, -⟩
    · exact here
    · cases mem
  | cons first rest ih =>
    unfold recSlot
    split_ifs with empty own
    · exact ih (.inl rfl)
    · rfl
    · apply ih
      rcases room with here | ⟨i, mem, free⟩
      · exact .inl here
      · rcases mem_cons.mp mem with rfl | mem
        · rcases free with mine | unused
          · exact absurd mine own
          · cases oat with
            | none => exact absurd ⟨rfl, unused⟩ empty
            | some _ => exact .inl rfl
        · exact .inr ⟨i, mem, free⟩

/-- What the scan of `copy_open_arg_table` has found so far. -/
def Found (table : OaTable) (parent : ℕ+) (found : Option (Fin nproc) × Option (Fin nproc)) : Prop :=
  (∀ i, found.1 = some i → (table i).pid = parent) ∧ ∀ i, found.2 = some i → (table i).pid = 0

variable {found : Option (Fin nproc) × Option (Fin nproc)} {parent : ℕ+}

theorem found_copyVisit (right : Found table parent found) (i : Fin nproc) :
    Found table parent (copyVisit table parent found i) := by
  unfold copyVisit
  split_ifs with empty own
  · refine ⟨right.1, fun j same => ?_⟩
    cases same
    exact empty.2
  · refine ⟨fun j same => ?_, right.2⟩
    cases same
    exact own
  · exact right

theorem found_copySlots (right : Found table parent found) :
    Found table parent (copySlots table parent slots found) := by
  induction slots generalizing found with
  | nil => exact right
  | cons i rest ih =>
    have next := found_copyVisit right i
    simp only [copySlots]
    split_ifs
    · exact next
    · exact ih next

/-- A round finds the parent at its slot, and keeps it. -/
theorem isSome_copyVisit_source (source : found.1.isSome = true ∨ (table i).pid = parent) :
    (copyVisit table parent found i).1.isSome = true := by
  unfold copyVisit
  split_ifs with empty own
  · rcases source with here | own
    · exact here
    · exact absurd (own.symm.trans empty.2) parent.pos.ne'
  · rfl
  · exact source.resolve_right own

theorem isSome_copyVisit_target (target : found.2.isSome = true ∨ (table i).pid = 0) :
    (copyVisit table parent found i).2.isSome = true := by
  unfold copyVisit
  split_ifs with empty own
  · rfl
  · rcases target with here | unused
    · exact here
    · exact absurd (own.symm.trans unused) parent.pos.ne'
  · rcases target with here | unused
    · exact here
    · cases second : found.2 with
      | none => exact absurd ⟨second, unused⟩ empty
      | some _ => rfl

theorem copySlots_isSome (source : found.1.isSome = true ∨ ∃ i ∈ slots, (table i).pid = parent)
    (target : found.2.isSome = true ∨ ∃ i ∈ slots, (table i).pid = 0) :
    (copySlots table parent slots found).1.isSome = true ∧
      (copySlots table parent slots found).2.isSome = true := by
  induction slots generalizing found with
  | nil => exact ⟨by simpa [copySlots] using source, by simpa [copySlots] using target⟩
  | cons i rest ih =>
    simp only [copySlots]
    split_ifs with both
    · exact both
    · apply ih
      · rcases source with here | ⟨j, mem, own⟩
        · exact .inl (isSome_copyVisit_source (.inl here))
        · rcases mem_cons.mp mem with rfl | mem
          · exact .inl (isSome_copyVisit_source (.inr own))
          · exact .inr ⟨j, mem, own⟩
      · rcases target with here | ⟨j, mem, unused⟩
        · exact .inl (isSome_copyVisit_target (.inl here))
        · rcases mem_cons.mp mem with rfl | mem
          · exact .inl (isSome_copyVisit_target (.inr unused))
          · exact .inr ⟨j, mem, unused⟩

/-! ## Every call keeps the table and the ledger together -/

theorem setArgs_eq {slot : OpenArgTable} {records : Fin nofile → Record}
    (entries : ∀ fd, slot.args fd = (records fd).encode) (fd : Fin nofile) (rec : Record) :
    slot.setArgs fd rec.encode =
      ⟨fun other => (update records fd rec other).encode, slot.pid⟩ := by
  unfold OpenArgTable.setArgs
  congr 1
  funext other
  by_cases same : other = fd
  · subst same
    simp
  · simp [same, entries]

/-- The entries of the slot that `rec_open_args` finds. -/
theorem Agrees.recorded (agrees : Agrees table ledger)
    (slot : (table i).pid = pid ∨ (table i).pid = 0 ∧ ∀ j, (table j).pid ≠ pid) (fd : Fin nofile) :
    (table i).args fd = (((ledger pid).getD fun _ => .blank) fd).encode := by
  rcases slot with own | ⟨unused, none⟩
  · obtain ⟨records, recorded, entries⟩ := agrees.kept pid i own
    rw [entries, recorded]
    rfl
  · cases recorded : ledger pid with
    | none => exact agrees.idle i unused fd
    | some records =>
      obtain ⟨j, own⟩ := agrees.known pid records recorded
      exact absurd own (none j)

variable {fd : Fin nofile}

theorem Agrees.length_le (agrees : Agrees table ledger) {n : Nat}
    (fits : ∀ entries, contents table pid = some entries → (entries fd).1.length ≤ n) :
    (((ledger pid).getD fun _ => Record.blank) fd).1.bytes.length ≤ n := by
  rw [agrees.contents_eq pid] at fits
  cases recorded : ledger pid with
  | none => exact Nat.zero_le n
  | some records =>
    rw [recorded] at fits
    exact fits _ rfl

variable {omode : Int} {next : OaTable} {path : Path}

theorem Agrees.record (agrees : Agrees table ledger)
    (fits : ∀ entries, contents table pid = some entries →
      (entries fd).1.length ≤ path.bytes.length)
    (taken : recOpenArgs table pid fd path omode = some next) :
    Agrees next (ledger.after (.record pid fd path omode)) := by
  obtain ⟨i, found, rfl⟩ := map_eq_some_iff.mp taken
  have slot : (table i).pid = pid ∨ (table i).pid = 0 ∧ ∀ j, (table j).pid ≠ pid := by
    rcases recSlot_eq_some found with own | ⟨here, none⟩
    · exact .inl own
    · refine .inr ⟨?_, fun j => none j (mem_finRange j)⟩
      rcases here with before | unused
      · cases before
      · exact unused
  have oat : (if (table i).pid = 0 then { table i with pid := (pid : Nat) } else table i) =
      ⟨(table i).args, pid⟩ := by
    rcases slot with own | ⟨unused, -⟩
    · rw [if_neg (by rw [own]; exact pid.pos.ne'), ← own]
    · rw [if_pos unused]
  have entries := agrees.recorded slot
  have recorded : (((ledger pid).getD fun _ => Record.blank) fd).encode.record
      (path.bytes ++ [0]) omode = Record.encode (path, omode) :=
    @Record.record_encode _ (path, omode) _ 1 rfl (agrees.length_le fits)
  have written := agrees.set slot
    (update ((ledger pid).getD fun _ => .blank) fd (path, omode))
  rw [oat]
  change Agrees (update table i (OpenArgTable.setArgs ⟨(table i).args, pid⟩ fd
    (((table i).args fd).record (path.bytes ++ [0]) omode))) _
  have replaced := @setArgs_eq ⟨(table i).args, pid⟩ _ entries fd (path, omode)
  rw [entries fd, recorded, replaced]
  exact written

theorem Agrees.del (agrees : Agrees table ledger) (taken : delOpenArgs table pid fd = some next) :
    Agrees next (ledger.after (.del pid fd)) := by
  obtain ⟨i, found, rfl⟩ := map_eq_some_iff.mp taken
  have own := agrees.slotOf_eq_some.mp found
  obtain ⟨records, recorded, entries⟩ := agrees.kept pid i own
  have written := agrees.set (.inl own) (update records fd .blank)
  rw [← Record.encode_blank, setArgs_eq entries, own]
  simp only [Ledger.after, recorded, Option.map_some]
  exact written

theorem Agrees.copy (agrees : Agrees table ledger) {source target : Fin nofile}
    {ofile : Fin nofile → Nat} {f : Nat} (accepts : Accepts table (.copy pid source target ofile f))
    (taken : copyOpenArgs table pid target ofile f = some next) :
    Agrees next (ledger.after (.copy pid source target ofile f)) := by
  obtain ⟨i, found, taken⟩ := Option.bind_eq_some_iff.mp taken
  obtain ⟨lowest, searched, rfl⟩ := map_eq_some_iff.mp taken
  have own := agrees.slotOf_eq_some.mp found
  obtain ⟨records, recorded, entries⟩ := agrees.kept pid i own
  obtain ⟨strings, other, said, again, same, fits⟩ := accepts
  obtain rfl : lowest = other := Option.some.inj (searched.symm.trans again)
  rw [agrees.contents_eq pid, recorded] at said
  cases said
  have alike : records lowest = records source := Record.ext_bytes same
  have written := agrees.set (.inl own) (update records target (records source))
  rw [entries target, entries lowest, alike]
  have copied : (records target).encode.record (records source).encode.path
      (records source).encode.omode = (records source).encode :=
    Record.record_encode rfl fits
  rw [copied, setArgs_eq entries, own]
  simp only [Ledger.after, recorded, Option.map_some]
  exact written

theorem Agrees.copyTable (agrees : Agrees table ledger) {child : ℕ+}
    (new : ∀ i, (table i).pid ≠ child) (taken : copyOpenArgTable table parent child = some next) :
    Agrees next (ledger.after (.copyTable parent child)) := by
  unfold copyOpenArgTable at taken
  have right : Found table parent (copySlots table parent (List.finRange nproc) (none, none)) := by
    refine found_copySlots ⟨?_, ?_⟩
    · rintro i ⟨⟩
    · rintro i ⟨⟩
  cases found : copySlots table parent (List.finRange nproc) (none, none) with
  | mk first second =>
    rw [found] at taken right
    cases first with
    | none => cases taken
    | some source =>
      cases second with
      | none => cases taken
      | some target =>
        cases taken
        obtain ⟨records, recorded, entries⟩ := agrees.kept parent source (right.1 source rfl)
        have written := agrees.set (.inr ⟨right.2 target rfl, new⟩) records
        have copied : ({ table source with pid := (child : Nat) } : OpenArgTable) =
            ⟨fun fd => (records fd).encode, child⟩ := by
          rw [← funext entries]
        rw [copied]
        simp only [Ledger.after, recorded]
        exact written

theorem Agrees.step (agrees : Agrees table ledger) {call : OpenArgCall}
    (accepts : Accepts table call) (taken : openArgStep table call = some next) :
    Agrees next (ledger.after call) := by
  cases call with
  | record pid fd path omode => exact agrees.record accepts.2 taken
  | del pid fd => exact agrees.del taken
  | copy pid source target ofile f => exact agrees.copy accepts taken
  | free pid =>
    cases taken
    exact agrees.free pid
  | copyTable parent child => exact agrees.copyTable accepts.2.2 taken

/-- The table and the ledger agree at the end of every run whose calls are accepted. -/
theorem agrees_of_run {calls : List OpenArgCall} {table : OaTable}
    (run : (openArgSystem.guarded Accepts).Runs calls table) : Agrees table (ledgerOf calls) := by
  refine run.history_invariant (fun calls table => Agrees table (ledgerOf calls)) ?_ ?_
  · rintro table rfl
    exact agrees_start
  · intro calls table call next agrees ⟨accepts, taken⟩
    rw [ledgerOf, List.foldl_append]
    exact agrees.step accepts taken

/-! ## The search for a file -/

/-- The search of `sys_pick_fd` over the entries of a process: the path is compared as far
as it reaches. -/
def prefixFd (entries : Fin nofile → List UInt8 × Int) (path : Path) (omode : Int) : Int :=
  match Fin.find? fun fd => decide (path.bytes <+: (entries fd).1 ∧ (entries fd).2 = omode) with
  | some fd => (fd : Nat)
  | none => -1

theorem sysPickFd_eq : sysPickFd table pid path omode =
      (contents table pid).map fun entries => prefixFd entries path omode := by
  unfold sysPickFd contents prefixFd
  cases slotOf table pid with
  | none => rfl
  | some i => simp only [Option.map_some, strncmp_length_eq_zero path.plain]

/-- The search finds the exact entry exactly when no longer path comes before it. -/
theorem prefixFd_eq_exactFd_iff {entries : Fin nofile → List UInt8 × Int} :
    prefixFd entries path omode = exactFd entries path omode ↔ Unshadowed entries path omode := by
  have begins : ∀ {fd}, entries fd = (path.bytes, omode) →
      path.bytes <+: (entries fd).1 ∧ (entries fd).2 = omode := by
    intro fd exact
    rw [exact]
    exact ⟨List.prefix_refl _, rfl⟩
  unfold prefixFd exactFd
  cases found : Fin.find? fun fd => decide (path.bytes <+: (entries fd).1 ∧ (entries fd).2 = omode) with
  | none =>
    have nowhere := Fin.find?_eq_none_iff.mp found
    simp only [decide_eq_false_iff_not] at nowhere
    have noExact : (Fin.find? fun fd => decide (entries fd = (path.bytes, omode))) = none := by
      refine Fin.find?_eq_none_iff.mpr fun fd => decide_eq_false fun exact => ?_
      exact nowhere fd (begins exact)
    rw [noExact]
    refine iff_of_true rfl fun fd isPrefix _ mode => ?_
    exact absurd ⟨isPrefix, mode⟩ (nowhere fd)
  | some first =>
    obtain ⟨holds, before⟩ := Fin.find?_eq_some_iff.mp found
    simp only [decide_eq_true_eq, decide_eq_false_iff_not] at holds before
    cases exactly : Fin.find? fun fd => decide (entries fd = (path.bytes, omode)) with
    | none =>
      have nowhere := Fin.find?_eq_none_iff.mp exactly
      simp only [decide_eq_false_iff_not] at nowhere
      refine iff_of_false (fun same => ?_) fun unshadowed => ?_
      · simp only at same
        omega
      · have longer : (entries first).1 ≠ path.bytes := fun same =>
          nowhere first (Prod.ext same holds.2)
        obtain ⟨lower, -, exact⟩ := unshadowed first holds.1 longer holds.2
        exact nowhere lower exact
    | some lowest =>
      obtain ⟨exact, below⟩ := Fin.find?_eq_some_iff.mp exactly
      simp only [decide_eq_true_eq, decide_eq_false_iff_not] at exact below
      constructor
      · intro same fd isPrefix longer mode
        obtain rfl : first = lowest := by
          simp only at same
          omega
        refine ⟨first, ?_, exact⟩
        rcases lt_trichotomy first fd with lower | rfl | higher
        · exact lower
        · exact absurd (congrArg Prod.fst exact) longer
        · exact absurd ⟨isPrefix, mode⟩ (before fd higher)
      · intro unshadowed
        have notLater : ¬ lowest < first := fun earlier => before lowest earlier (begins exact)
        have notEarlier : ¬ first < lowest := by
          intro earlier
          have longer : (entries first).1 ≠ path.bytes := fun same =>
            below first earlier (Prod.ext same holds.2)
          obtain ⟨lower, smaller, again⟩ := unshadowed first holds.1 longer holds.2
          exact before lower smaller (begins again)
        obtain rfl : first = lowest := by omega
        rfl

theorem Agrees.returns (agrees : Agrees table ledger) {call : OpenArgCall}
    (accepts : Accepts table call) : ∃ next, openArgStep table call = some next := by
  have slotted : ∀ {pid : ℕ+}, (∃ i, (table i).pid = pid) → ∃ i, slotOf table pid = some i := by
    rintro pid ⟨i, own⟩
    exact ⟨i, agrees.slotOf_eq_some.mpr own⟩
  cases call with
  | record pid fd path omode =>
    have found : (recSlot table pid (List.finRange nproc) none).isSome = true := by
      refine recSlot_isSome (.inr ?_)
      rcases accepts.1 with ⟨i, own⟩ | ⟨i, unused⟩
      · exact ⟨i, mem_finRange i, .inl own⟩
      · exact ⟨i, mem_finRange i, .inr unused⟩
    obtain ⟨i, found⟩ := isSome_iff_exists.mp found
    exact isSome_iff_exists.mp (by simp [openArgStep, recOpenArgs, found])
  | del pid fd =>
    obtain ⟨i, found⟩ := slotted accepts
    exact isSome_iff_exists.mp (by simp [openArgStep, delOpenArgs, found])
  | copy pid source target ofile f =>
    obtain ⟨entries, lowest, said, searched, -⟩ := accepts
    obtain ⟨i, found, -⟩ := map_eq_some_iff.mp said
    exact isSome_iff_exists.mp (by simp [openArgStep, copyOpenArgs, found, searched])
  | free pid => exact ⟨_, rfl⟩
  | copyTable parent child =>
    obtain ⟨⟨i, own⟩, ⟨j, unused⟩, -⟩ := accepts
    obtain ⟨first, second⟩ := @copySlots_isSome table (List.finRange nproc) (none, none) parent
      (.inr ⟨i, mem_finRange i, own⟩) (.inr ⟨j, mem_finRange j, unused⟩)
    obtain ⟨source, isSource⟩ := isSome_iff_exists.mp first
    obtain ⟨target, isTarget⟩ := isSome_iff_exists.mp second
    have found : copySlots table parent (List.finRange nproc) (none, none) =
        (some source, some target) := Prod.ext isSource isTarget
    exact isSome_iff_exists.mp (by simp [openArgStep, copyOpenArgTable, found])

/-- In every run whose calls are accepted, the entries of every process are what has last
been recorded or copied, a search is exact unless a longer path shadows the one it looks
for, and every call that is accepted returns. -/
theorem openArgs_exact_of_run {calls : List OpenArgCall} {table : OaTable}
    (run : (openArgSystem.guarded Accepts).Runs calls table) :
    (∀ pid, contents table pid = (ledgerOf calls pid).map fun records fd =>
      ((records fd).1.bytes, (records fd).2)) ∧
    (∀ pid path omode entries, contents table pid = some entries →
      (sysPickFd table pid path omode = some (exactFd entries path omode) ↔
        Unshadowed entries path omode)) ∧
    ∀ call, Accepts table call → ∃ next, openArgStep table call = some next := by
  have agrees := agrees_of_run run
  refine ⟨agrees.contents_eq, fun pid path omode entries said => ?_, fun call => agrees.returns⟩
  rw [sysPickFd_eq, said, Option.map_some, Option.some.injEq]
  exact prefixFd_eq_exactFd_iff

/-- A path of two letters, and the path that is its beginning. -/
def longPath : Path := ⟨[97, 98], by simp [Unterminated], by decide⟩

def shortPath : Path := ⟨[99], by simp [Unterminated], by decide⟩

/-- A process records a short path and then a longer one for the same file. -/
def growingCalls : List OpenArgCall := [.record 1 0 shortPath 0, .record 1 0 longPath 2]

theorem openArgs_exact_of_run_growing :
    ∃ table, (openArgSystem.guarded Accepts).Runs growingCalls table ∧
      ∀ pid, contents table pid = (ledgerOf growingCalls pid).map fun records fd =>
        ((records fd).1.bytes, (records fd).2) := by
  have start : (openArgSystem.guarded Accepts).Runs [] fun _ => .cleared := .initial rfl
  have first : Accepts (fun _ => .cleared) (.record 1 0 shortPath 0) :=
    ⟨.inr ⟨0, rfl⟩, fun entries said => by rw [agrees_start.contents_eq 1] at said; cases said⟩
  obtain ⟨once, taken⟩ := agrees_start.returns first
  have ran := start.step ⟨first, taken⟩
  have agrees := agrees_of_run ran
  have second : Accepts once (.record 1 0 longPath 2) := by
    refine ⟨?_, fun entries said => ?_⟩
    · exact .inl (agrees.known 1 _ rfl)
    · rw [agrees.contents_eq 1] at said
      cases said
      decide
  obtain ⟨twice, takenAgain⟩ := agrees.returns second
  have run := ran.step ⟨second, takenAgain⟩
  exact ⟨twice, run, (openArgs_exact_of_run run).1⟩

/-- The end of a longer path stays behind a shorter one. -/
theorem shorter_path_keeps_tail :
    ¬ ∀ calls table, openArgSystem.Runs calls table →
      (∀ pid, contents table pid = (ledgerOf calls pid).map fun records fd =>
        ((records fd).1.bytes, (records fd).2)) ∧
      ∀ pid path omode entries, contents table pid = some entries →
        sysPickFd table pid path omode = some (exactFd entries path omode) := by
  intro claimed
  let calls : List OpenArgCall := [.record 1 0 longPath 0, .record 1 0 shortPath 0]
  have found : (LabelledSystem.exec openArgStep (fun _ => .cleared) calls).any (fun table =>
      (contents table 1).any fun entries => decide ((entries 0).1 = [99, 98])) = true := by
    decide +kernel
  obtain ⟨table, result, tail⟩ := (any_eq_true _ _).mp found
  obtain ⟨entries, said, kept⟩ := (any_eq_true _ _).mp tail
  have run : openArgSystem.Runs calls table := .of_exec rfl result
  have right := (claimed calls table run).1 1
  rw [said] at right
  have entry := congrArg (fun entries => (entries 0).1) (Option.some.inj right)
  have kept : (entries 0).1 = [99, 98] := of_decide_eq_true kept
  simp only [kept] at entry
  revert entry
  decide

end Ev6.Files
