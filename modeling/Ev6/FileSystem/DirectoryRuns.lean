import Ev6.FileSystem.Accounting
import Ev6.FileSystem.Directories

/-!
# A directory is a finite map

Over any sequence of calls on a directory that somebody refers to, with anything in between
that leaves its bytes alone, the directory is a finite map from the first `DIRSIZ` bytes of
names to inode numbers (`directory_is_map`).
-/

namespace Ev6.FileSystem

open List (mem_cons_self)
open Function (update update_apply update_of_ne)
open Support

/-! ## The map -/

/-- A call on a directory with what it returns, or a step of somebody else. -/
inductive DirEvent where
  | lookup (name : List UInt8) (result : Option (Nat × Nat))
  | link (name : List UInt8) (inum : Nat) (result : Int)
  | unlink (name : List UInt8) (result : Int)
  | other

/-- A finite map from names to inode numbers. -/
abbrev NameMap := List UInt8 → Option Nat

/-- What the calls do on a map. A removal may be refused. -/
inductive MapStep : NameMap → DirEvent → NameMap → Prop where
  | lookup {map : NameMap} {name : List UInt8} {result : Option (Nat × Nat)}
      (finds : result.map Prod.fst = map (cname name)) : MapStep map (.lookup name result) map
  | present {map : NameMap} {name : List UInt8} {inum : Nat} (there : map (cname name) ≠ none) :
      MapStep map (.link name inum (-1)) map
  | added {map : NameMap} {name : List UInt8} {inum : Nat} (absent : map (cname name) = none) :
      MapStep map (.link name inum 0) (update map (cname name) (some inum))
  | refused {map : NameMap} {name : List UInt8} : MapStep map (.unlink name (-1)) map
  | removed {map : NameMap} {name : List UInt8} (there : map (cname name) ≠ none) :
      MapStep map (.unlink name 0) (update map (cname name) none)
  | other {map : NameMap} : MapStep map .other map

/-- The calls on maps, from any map on. -/
def mapSystem : LabelledSystem NameMap DirEvent where
  Initial _ := True
  Step := MapStep

/-! ## The directory -/

/-- `sys_unlink` from where `nameiparent` has returned the directory. -/
def unlinkIn (dp : Nat) (name : List UInt8) : SysM Int := do
  iget dp
  ilock dp
  unlinkAt dp name

/-- A step that leaves the directory alone. -/
structure Elsewhere (dp : Nat) (before after : System) : Prop where
  working : before.Working [dp] [dp] → after.Working [dp] [dp]
  listing : ∀ file, Listing before dp file → Listing after dp file

/-- What the calls do on the directory `dp`. A call that panics is no step. -/
inductive DirStep (dp : Nat) : System → DirEvent → System → Prop where
  | lookup {before after : System} {name : List UInt8} {result : Option (Nat × Nat)}
      (run : (dirlookup dp name).run before = .ok result after) :
      DirStep dp before (.lookup name result) after
  | link {before after : System} {name : List UInt8} {inum : Nat} {result : Int}
      (positive : 0 < inum) (small : inum < 0x10000)
      (run : (dirlink dp name inum).run before = .ok result after) :
      DirStep dp before (.link name inum result) after
  | unlink {before after : System} {name : List UInt8} {result : Int}
      (run : (unlinkIn dp name).run before = .ok result after) :
      DirStep dp before (.unlink name result) after
  | other {before after : System} (elsewhere : Elsewhere dp before after) :
      DirStep dp before .other after

/-- The directory is locked into memory, its bytes are `file`, and no two entries have the
same name. -/
structure Directory (dp : Nat) (system : System) (file : List UInt8) : Prop where
  working : system.Working [dp] [dp]
  listing : Listing system dp file
  distinct : (entries file).Distinct

/-- The calls on a directory. -/
def directorySystem (dp : Nat) : LabelledSystem System DirEvent where
  Initial system := ∃ file, Directory dp system file
  Step := DirStep dp

variable {dp : Nat} {system : System} {file : List UInt8}

variable {name : List UInt8}

/-- A name is in the map exactly when a slot holds it. -/
theorem lookup_ne_none :
    (entries file).lookup name ≠ none ↔ ∃ k inum, (entries file).Holds k name inum := by
  rw [ne_eq, SlotTable.lookup_eq_none]
  constructor
  · intro present
    by_contra nothing
    exact present fun k inum holds => nothing ⟨k, inum, holds⟩
  · rintro ⟨k, inum, holds⟩ absent
    exact absent k inum holds

theorem Found.lookup {result : Option (Nat × Nat)}
    (distinct : (entries file).Distinct) (found : Found file name result) :
    result.map Prod.fst = (entries file).lookup (cname name) := by
  cases found with
  | entry holds => exact ((SlotTable.lookup_eq_some distinct).mpr ⟨_, holds⟩).symm
  | none absent => exact (SlotTable.lookup_eq_none.mpr absent).symm

variable {result : Int} {file' : List UInt8}

/-- What `dirlink` does to the bytes is an operation on the map. -/
theorem Linked.map {inum : Nat} {before after : Volume}
    (directory : Directory dp system file) (positive : 0 < inum)
    (small : inum < 0x10000) (linked : Linked file name inum before result file' after) :
    (entries file').Distinct ∧
      MapStep (entries file).lookup (.link name inum result) (entries file').lookup := by
  cases linked with
  | present holds => exact ⟨directory.distinct, .present (lookup_ne_none.mpr ⟨_, _, holds⟩)⟩
  | added absent vacant full =>
    rename_i k
    have low : k ≤ file.length / direntSize := by
      have count := entries_length file
      rcases vacant with free | last
      · have inside := (List.getElem?_eq_some_iff.mp free).1
        omega
      · omega
    have table := entries_link name directory.listing.aligned low positive small
    have updated : (entries (splice file (k * direntSize) (dirent inum name))).lookup =
        update (entries file).lookup (cname name) (some inum) := by
      funext key
      rw [table, SlotTable.lookup_put directory.distinct vacant absent, update_apply]
    rw [updated, table]
    exact ⟨directory.distinct.put vacant absent, .added (SlotTable.lookup_eq_none.mpr absent)⟩

/-- So is what `sys_unlink` does. -/
theorem Unlinked.map
    (directory : Directory dp system file) (unlinked : Unlinked file name result file') :
    (entries file').Distinct ∧
      MapStep (entries file).lookup (.unlink name result) (entries file').lookup := by
  cases unlinked with
  | refused => exact ⟨directory.distinct, .refused⟩
  | removed holds =>
    rename_i k inum
    have table := entries_unlink directory.listing.aligned (entries_holds.mp holds).1
    have updated : (entries (splice file (k * direntSize) (List.replicate direntSize 0))).lookup =
        update (entries file).lookup (cname name) none := by
      funext key
      rw [table, SlotTable.lookup_clear directory.distinct holds, update_apply]
    rw [updated, table]
    exact ⟨directory.distinct.clear k, .removed (lookup_ne_none.mpr ⟨_, _, holds⟩)⟩

/-- `sys_unlink` on a directory that somebody else refers to. -/
theorem unlinkIn_unlinks (directory : Directory dp system file) (name : List UInt8) :
    Ensures (unlinkIn dp name) system
      (fun result after => after.Working [dp] [dp] ∧ ∃ file',
        Unlinked file name result file' ∧ Listing after dp file') (fun _ _ => True) := by
  unfold unlinkIn
  refine .bind (((iget_ensures directory.working).and (iget_untouched dp dp system)).mono
    (fun _ _ => id) fun _ _ _ => True.intro) ?_
  rintro ⟨⟩ referred ⟨working, same, -, -⟩
  have valid := (working.locked dp mem_cons_self).2
  refine .bind (((ilock_held working mem_cons_self).and (ilock_untouched valid)).mono
    (fun _ _ => id) fun _ _ _ => True.intro) ?_
  rintro ⟨⟩ locked ⟨both, unchanged⟩
  have only : locked.Working (dp :: [dp]) [dp] := both.unlock fun inum member =>
    List.mem_cons_of_mem dp member
  exact unlinkAt_unlinks only mem_cons_self
    ((directory.listing.untouched same).untouched unchanged) name

/-- Every step on the directory is a step on the map that it stands for. -/
theorem directory_step {event : DirEvent} {after : System} (directory : Directory dp system file)
    (step : DirStep dp system event after) :
    ∃ file', Directory dp after file' ∧
      MapStep (entries file).lookup event (entries file').lookup := by
  cases step with
  | lookup run =>
    obtain ⟨found, obtained, same, -, -⟩ :=
      (dirlookup_finds directory.working mem_cons_self directory.listing _).returned run
    refine ⟨file, ⟨?_, directory.listing.untouched same, directory.distinct⟩,
      .lookup (found.lookup directory.distinct)⟩
    cases found with
    | none absent => exact obtained
    | entry holds =>
      have referred : after.Working (_ :: [dp]) [dp] := obtained
      exact referred.spare fun other member => member
  | link positive small run =>
    obtain ⟨working, file', linked, listing⟩ :=
      (dirlink_links directory.working mem_cons_self directory.listing _ _).returned run
    obtain ⟨distinct, taken⟩ := linked.map directory positive small
    exact ⟨file', ⟨working, listing, distinct⟩, taken⟩
  | unlink run =>
    obtain ⟨working, file', unlinked, listing⟩ := (unlinkIn_unlinks directory _).returned run
    obtain ⟨distinct, taken⟩ := unlinked.map directory
    exact ⟨file', ⟨working, listing, distinct⟩, taken⟩
  | other elsewhere =>
    exact ⟨file, ⟨elsewhere.working directory.working, elsewhere.listing file directory.listing,
      directory.distinct⟩, .other⟩

theorem Listing.unique (listing : Listing system dp file)
    (other : Listing system dp file') : file = file' :=
  listing.bytes.symm.trans other.bytes

/-- What `dirlink` returns and leaves, on the map and on the size of the directory. -/
theorem Linked.outcome {inum : Nat} {before after : Volume} (aligned : file.length % direntSize = 0)
    (linked : Linked file name inum before result file' after) :
    (result = -1 ↔ (entries file).lookup (cname name) ≠ none) ∧
      (result = -1 → file' = file ∧ after = before) ∧
      (file.length < file'.length → none ∉ entries file) := by
  cases linked with
  | present holds =>
    exact ⟨iff_of_true rfl (lookup_ne_none.mpr ⟨_, _, holds⟩), fun _ => ⟨rfl, rfl⟩,
      fun longer => absurd longer (Nat.lt_irrefl _)⟩
  | added absent vacant full =>
    rename_i k
    have nothing := SlotTable.lookup_eq_none.mpr absent
    refine ⟨iff_of_false (by decide) (not_not.mpr nothing), fun wrong => absurd wrong (by decide),
      fun longer => full ?_⟩
    have count := entries_length file
    rcases vacant with free | last
    · have inside := (List.getElem?_eq_some_iff.mp free).1
      rw [count] at inside
      rw [length_splice (by simp only [direntSize] at inside ⊢; omega),
        dirent_length inum name] at longer
      simp only [direntSize] at inside longer aligned
      omega
    · exact last

/-- Behind every sequence of calls the directory is the map that the calls on maps give, and
no two entries have the same name. `dirlookup` returns what the map holds, with the offset of
the entry. `dirlink` returns -1 and changes nothing exactly when the name is present; the
directory grows only when no entry is free. -/
theorem directory_is_map {events : List DirEvent} (runs : (directorySystem dp).Runs events system) :
    ∃ file map, Directory dp system file ∧ mapSystem.Runs events map ∧
      (entries file).lookup = map ∧
      (∀ name, Ensures (dirlookup dp name) system
        (fun result after => result.map Prod.fst = map (cname name) ∧ Listing after dp file ∧
          ∀ inum off, result = some (inum, off) →
            ∃ k, off = k * direntSize ∧ (entries file).Holds k (cname name) inum)
        (fun _ _ => False)) ∧
      ∀ name inum, Ensures (dirlink dp name inum) system
        (fun result after => (result = -1 ↔ map (cname name) ≠ none) ∧
          (result = -1 → after.volume = system.volume ∧ Listing after dp file) ∧
          ∀ file', Listing after dp file' → file.length < file'.length → none ∉ entries file)
        (LinkStops file) := by
  have simulated : ∃ map, mapSystem.Runs events map ∧
      ∃ file, Directory dp system file ∧ (entries file).lookup = map := by
    refine runs.simulated (fun system map => ∃ file, Directory dp system file ∧
      (entries file).lookup = map) ?_ ?_
    · rintro system ⟨file, directory⟩
      exact ⟨_, True.intro, file, directory, rfl⟩
    · rintro system event next map ⟨file, directory, rfl⟩ step
      obtain ⟨file', kept, taken⟩ := directory_step directory step
      exact ⟨_, taken, file', kept, rfl⟩
  obtain ⟨map, mapped, file, directory, same⟩ := simulated
  refine ⟨file, map, directory, mapped, same, fun name => ?_, fun name inum => ?_⟩
  · refine (dirlookup_finds directory.working mem_cons_self directory.listing name).mono ?_
      fun _ _ => id
    rintro result after ⟨found, -, untouched, -, -⟩
    have listing := directory.listing.untouched untouched
    refine ⟨by rw [← same]; exact found.lookup directory.distinct, listing, ?_⟩
    intro inum off equal
    cases found with
    | none absent => cases equal
    | entry holds =>
      cases equal
      exact ⟨_, rfl, holds⟩
  · refine (dirlink_links directory.working mem_cons_self directory.listing name inum).mono
      ?_ fun _ _ => id
    rintro result after ⟨-, file', linked, listing⟩
    obtain ⟨present, unchanged, grows⟩ := linked.outcome directory.listing.aligned
    refine ⟨by rw [← same]; exact present, ?_, ?_⟩
    · intro refused
      obtain ⟨rfl, still⟩ := unchanged refused
      exact ⟨still, listing⟩
    · intro other listed longer
      rw [← listing.unique listed] at longer
      exact grows longer

/-- The small system with its root directory in memory. -/
def rootSystem : System :=
  { smallSystem 0 (fun _ => 0) with
    icache := update (smallSystem 0 fun _ => 0).icache 1
      ⟨1, true, (smallVolume 0 fun _ => 0).dinode 1⟩ }

theorem rootSystem_directory : Directory 1 rootSystem (dirent 2 [97]) := by
  have self : rootSystem.icache 1 = ⟨1, true, (smallVolume 0 fun _ => 0).dinode 1⟩ := rfl
  have table : entries (dirent 2 [97]) = [some ([97], 2)] := by decide +kernel
  refine ⟨⟨smallVolume_consistent, ?_, ?_, ?_⟩, ⟨?_, ?_, ?_, ?_⟩, ?_⟩
  · intro inum valid
    by_cases root : inum = 1
    · subst root
      rw [self]
      exact ⟨rfl, by decide⟩
    · have other : rootSystem.icache inum = (smallSystem 0 fun _ => 0).icache inum :=
        update_of_ne root _ _
      rw [other] at valid
      exact absurd valid Bool.false_ne_true
  · intro inum member
    rw [List.mem_singleton.mp member, self]
    decide
  · intro inum member
    rw [List.mem_singleton.mp member, self]
    exact ⟨List.mem_singleton_self 1, rfl⟩
  · decide +kernel
  · decide +kernel
  · decide +kernel
  · decide +kernel
  · rw [table]
    intro i j key value found left right
    have first := left.inside
    have second := right.inside
    simp only [List.length_cons, List.length_nil] at first second
    omega

theorem run_of_endsWith {α : Type} {program : SysM α} {result : α × System}
    (ends : endsWith program system Prod.mk = some result) :
    program.run system = .ok result.1 result.2 := by
  unfold endsWith at ends
  split at ends
  next value after run =>
    rw [← Option.some.inj ends]
    exact run
  next => cases ends

/-- The only name is removed, its slot goes to another name, and that name is taken then. -/
theorem directory_is_map_reused : ∃ system file,
    (directorySystem 1).Runs [.unlink [97] 0, .link [98] 2 0, .link [98] 3 (-1)] system ∧
      Directory 1 system file ∧ (entries file).lookup [98] = some 2 := by
  have found : ((endsWith (unlinkIn 1 [97]) rootSystem Prod.mk).any fun first =>
      decide (first.1 = 0) && (endsWith (dirlink 1 [98] 2) first.2 Prod.mk).any fun second =>
        decide (second.1 = 0) && (endsWith (dirlink 1 [98] 3) second.2 Prod.mk).any fun third =>
          decide (third.1 = -1 ∧
            (entries (third.2.volume.file (third.2.inode 1))).lookup [98] = some 2)) = true := by
    decide +kernel
  obtain ⟨⟨value, first⟩, one, found⟩ := (Option.any_eq_true _ _).mp found
  obtain ⟨zero, found⟩ := (Bool.and_eq_true _ _).mp found
  obtain ⟨⟨value', second⟩, two, found⟩ := (Option.any_eq_true _ _).mp found
  obtain ⟨zero', found⟩ := (Bool.and_eq_true _ _).mp found
  obtain ⟨⟨value'', third⟩, three, found⟩ := (Option.any_eq_true _ _).mp found
  obtain ⟨taken, held⟩ := of_decide_eq_true found
  obtain rfl : value = 0 := of_decide_eq_true zero
  obtain rfl : value' = 0 := of_decide_eq_true zero'
  obtain rfl : value'' = -1 := taken
  have start : (directorySystem 1).Runs [] rootSystem := .initial ⟨_, rootSystem_directory⟩
  have removed : DirStep 1 rootSystem (.unlink [97] 0) first := .unlink (run_of_endsWith one)
  have linked : DirStep 1 first (.link [98] 2 0) second :=
    .link (by decide) (by decide) (run_of_endsWith two)
  have refused : DirStep 1 second (.link [98] 3 (-1)) third :=
    .link (by decide) (by decide) (run_of_endsWith three)
  have runs := ((start.step removed).step linked).step refused
  obtain ⟨file, map, directory, -⟩ := directory_is_map runs
  refine ⟨third, file, runs, directory, ?_⟩
  rw [← directory.listing.bytes]
  exact held

end Ev6.FileSystem
