import Ev6.FileSystem.PathStrings

/-!
# The walk along a path

`namex` takes the operations on inodes as a parameter. With those of
`Ev6.FileSystem.Names` it is the `namex` of that module on the elements of the string.
With operations that record the calls and get any answers, `namex_resolves` says which
directories are searched for which names, and that references are balanced.
-/

namespace Ev6.FileSystem.PathName

open Support

variable {memory : Nat → UInt8} {path fuel : Nat} {bytes : List UInt8} {name : Nat → UInt8}

/-! ## The code -/

/-- The operations that `namex` uses. `iunlockput` is an `iunlock` and an `iput`;
`dirlookup` reads of a name what `namecmp` compares, and takes a reference to the inode
it finds. -/
structure InodeOps (m : Type → Type) where
  cwd : m Nat
  iget : Nat → m Unit
  idup : Nat → m Unit
  ilock : Nat → m Unit
  isDir : Nat → m Bool
  dirlookup : Nat → List UInt8 → m (Option Nat)
  iunlock : Nat → m Unit
  iput : Nat → m Unit

variable {m : Type → Type} [Monad m]

/-- `iunlockput`. -/
def InodeOps.iunlockput (ops : InodeOps m) (ip : Nat) : m Unit := do
  ops.iunlock ip
  ops.iput ip

/-- The loop of `namex`: the returned inode, with `none` for 0, and the bytes at `name`. -/
def namexLoop (ops : InodeOps m) (memory : Nat → UInt8) (nameiparent : Bool) (fuel : Nat) :
    Nat → Nat → Nat → (Nat → UInt8) → m (Option (Option Nat × (Nat → UInt8)))
  | 0, _, _, _ => pure none
  | left + 1, ip, path, name =>
    match skipelem memory fuel path name with
    | none => pure none
    | some (none, name) =>
      if nameiparent then do
        ops.iput ip
        pure (some (none, name))
      else
        pure (some (some ip, name))
    | some (some path, name) => do
        ops.ilock ip
        let directory ← ops.isDir ip
        if directory = false then do
          ops.iunlockput ip
          pure (some (none, name))
        else if nameiparent && memory path == 0 then do
          ops.iunlock ip
          pure (some (some ip, name))
        else do
          match ← ops.dirlookup ip (entryName name) with
          | none => do
              ops.iunlockput ip
              pure (some (none, name))
          | some next => do
              ops.iunlockput ip
              namexLoop ops memory nameiparent fuel left next path name

/-- `namex`. -/
def namex (ops : InodeOps m) (memory : Nat → UInt8) (nameiparent : Bool) (fuel path : Nat)
    (name : Nat → UInt8) : m (Option (Option Nat × (Nat → UInt8))) :=
  if memory path = slash then do
    ops.iget rootino
    namexLoop ops memory nameiparent fuel fuel rootino path name
  else do
    let cwd ← ops.cwd
    ops.idup cwd
    namexLoop ops memory nameiparent fuel fuel cwd path name

/-! ## `namex` on the elements of a string -/

/-- The loop of `namex` on the bytes that the calls of `skipelem` leave at `name`. -/
def namexOver (ops : InodeOps m) (nameiparent : Bool) :
    Nat → (Nat → UInt8) → List (Nat → UInt8) → m (Option Nat × (Nat → UInt8))
  | ip, name, [] =>
    if nameiparent then do
      ops.iput ip
      pure (none, name)
    else
      pure (some ip, name)
  | ip, _, name :: rest => do
      ops.ilock ip
      let directory ← ops.isDir ip
      if directory = false then do
        ops.iunlockput ip
        pure (none, name)
      else if nameiparent && rest.isEmpty then do
        ops.iunlock ip
        pure (some ip, name)
      else do
        match ← ops.dirlookup ip (entryName name) with
        | none => do
            ops.iunlockput ip
            pure (none, name)
        | some next => do
            ops.iunlockput ip
            namexOver ops nameiparent next name rest

/-- On a string, the loop of `namex` goes through the elements. -/
theorem namexLoop_string [LawfulMonad m] (ops : InodeOps m) (nameiparent : Bool)
    (string : StringAt memory path bytes) (small : bytes.length ≤ ramSize)
    (enough : bytes.length < fuel) {left : Nat} (calls : bytes.length < left) (ip : Nat)
    {names : List (Nat → UInt8)} (yields : elements memory fuel left path name = some names) :
    namexLoop ops memory nameiparent fuel left ip path name =
      some <$> namexOver ops nameiparent ip name names := by
  induction left generalizing path bytes name names ip with
  | zero => omega
  | succ left ih =>
    rcases skipelem_string string small enough name with
      ⟨-, ended⟩ | ⟨element, rest, further, copy, copied, skipped⟩
    · obtain rfl : names = [] := by simpa [elements, ended] using yields.symm
      cases nameiparent <;> simp [namexLoop, namexOver, ended]
    · have shorter := skipped.shorter
      have restEnough : rest.length < fuel := by omega
      have restCalls : rest.length < left := by omega
      simp only [elements, copied, Option.map_eq_some_iff] at yields
      obtain ⟨others, behind, rfl⟩ := yields
      obtain ⟨same, listed, forall2⟩ :=
        elements_string skipped.string (by omega) restEnough restCalls copy
      obtain rfl : same = others := Option.some.inj (listed.symm.trans behind)
      have last : (memory further == 0) = same.isEmpty := by
        have lengths := forall2.length_eq
        rw [Bool.eq_iff_iff, beq_iff_eq, skipped.last, List.isEmpty_iff,
          ← List.length_eq_zero_iff, ← List.length_eq_zero_iff, lengths]
      have next : ∀ ip, namexLoop ops memory nameiparent fuel left ip further copy =
          some <$> namexOver ops nameiparent ip copy same := fun ip =>
        ih skipped.string (by omega) (by omega) (by omega) ip behind
      simp only [namexLoop, copied, namexOver, map_bind, last, next]
      refine bind_congr fun _ => bind_congr fun directory => ?_
      split
      · simp
      · split
        · simp
        · simp only [map_bind]
          refine bind_congr fun found => ?_
          cases found <;> simp

/-! ## The file system -/

/-- The operations on inodes of `Ev6.FileSystem.Names`. -/
def sysOps : InodeOps SysM where
  cwd := do
    let system ← get
    pure system.cwd
  iget := FileSystem.iget
  idup := FileSystem.idup
  ilock := FileSystem.ilock
  isDir ip := do
    let copy ← current ip
    pure (decide (copy.type = tDir))
  dirlookup dp name := do
    let found ← FileSystem.dirlookup dp name
    pure (found.map Prod.fst)
  iunlock _ := pure ()
  iput := FileSystem.iput

@[simp] theorem sysOps_cwd :
    sysOps.cwd = (do let system ← get; pure system.cwd : SysM Nat) := rfl

@[simp] theorem sysOps_iget : sysOps.iget = FileSystem.iget := rfl

@[simp] theorem sysOps_idup : sysOps.idup = FileSystem.idup := rfl

@[simp] theorem sysOps_ilock : sysOps.ilock = FileSystem.ilock := rfl

@[simp] theorem sysOps_isDir (ip : Nat) : sysOps.isDir ip =
    (do let copy ← current ip; pure (decide (copy.type = tDir)) : SysM Bool) := rfl

@[simp] theorem sysOps_dirlookup (dp : Nat) (name : List UInt8) : sysOps.dirlookup dp name =
    (do let found ← FileSystem.dirlookup dp name; pure (found.map Prod.fst) :
      SysM (Option Nat)) := rfl

@[simp] theorem sysOps_iunlock (ip : Nat) : sysOps.iunlock ip = pure () := rfl

@[simp] theorem sysOps_iput : sysOps.iput = FileSystem.iput := rfl

/-- A path name as the system calls of `Ev6.FileSystem.Names` take it. -/
def ofString (bytes : List UInt8) : Path where
  absolute := decide (bytes.headD 0 = slash)
  elements := components bytes

/-- The inode that `namex` returns, and the name it leaves if asked for the parent. -/
def outcome (nameiparent : Bool) (done : Option Nat × (Nat → UInt8)) :
    Option (Nat × List UInt8) :=
  done.1.map fun ip => (ip, if nameiparent then entryName done.2 else [])

theorem namexOver_sysOps (nameiparent : Bool) (ip : Nat) (name : Nat → UInt8)
    (names : List (Nat → UInt8)) :
    outcome nameiparent <$> namexOver sysOps nameiparent ip name names =
      FileSystem.namexLoop nameiparent ip (names.map entryName) := by
  induction names generalizing ip name with
  | nil => cases nameiparent <;> simp [namexOver, FileSystem.namexLoop, outcome]
  | cons first rest ih =>
    simp only [namexOver, FileSystem.namexLoop, List.map_cons, map_bind, sysOps_ilock,
      sysOps_isDir, sysOps_dirlookup, sysOps_iunlock, sysOps_iput, InodeOps.iunlockput,
      bind_assoc, pure_bind, List.isEmpty_map, decide_eq_false_iff_not]
    refine bind_congr fun _ => bind_congr fun copy => ?_
    split
    · simp [outcome]
    · split
      · rename_i parent
        have asked : nameiparent = true := by simp_all
        simp [outcome, asked]
      · simp only [map_bind]
        refine bind_congr fun found => ?_
        rcases found with - | ⟨next, off⟩
        · simp [outcome]
        · simpa using bind_congr fun _ => ih next first

/-- With the operations of the file system, `namex` on a string is `namex` on its elements. -/
theorem namex_sysOps (found : PathAt memory path bytes) (enough : bytes.length < fuel)
    (nameiparent : Bool) (name : Nat → UInt8) :
    Option.map (outcome nameiparent) <$> namex sysOps memory nameiparent fuel path name =
      some <$> FileSystem.namex (ofString bytes) nameiparent := by
  obtain ⟨string, small⟩ := found
  obtain ⟨names, yields, forall2⟩ := elements_string string small enough enough name
  have parts := map_entryName forall2
  have loop : ∀ ip, Option.map (outcome nameiparent) <$>
      namexLoop sysOps memory nameiparent fuel fuel ip path name =
        some <$> FileSystem.namexLoop nameiparent ip (components bytes) := by
    intro ip
    rw [namexLoop_string sysOps nameiparent string small enough enough ip yields, ← parts,
      ← namexOver_sysOps nameiparent ip name names]
    simp [Functor.map_map]
  rw [namex, FileSystem.namex, ofString, string.first]
  generalize bytes.headD 0 = first
  by_cases absolute : first = slash
  · simp [absolute, loop]
  · simp [absolute, loop]

/-! ## Which names are looked up -/

/-- A call of an operation on inodes, with its answer. -/
inductive InodeCall where
  | iget (ip : Nat)
  | idup (ip : Nat)
  | ilock (ip : Nat)
  | isDir (ip : Nat) (answer : Bool)
  | dirlookup (dp : Nat) (name : List UInt8) (found : Option Nat)
  | iunlock (ip : Nat)
  | iput (ip : Nat)
deriving DecidableEq

/-- The answers to the calls. They depend on all calls before, so that the directories
may change in any way between two calls. -/
structure Answers where
  cwd : Nat
  isDir : List InodeCall → Nat → Bool
  dirlookup : List InodeCall → Nat → List UInt8 → Option Nat

/-- Record a call. -/
def record (call : InodeCall) : StateM (List InodeCall) Unit := modify (· ++ [call])

/-- The operations on inodes, recorded and answered. -/
def recordOps (answers : Answers) : InodeOps (StateM (List InodeCall)) where
  cwd := pure answers.cwd
  iget ip := record (.iget ip)
  idup ip := record (.idup ip)
  ilock ip := record (.ilock ip)
  isDir ip := do
    let calls ← get
    record (.isDir ip (answers.isDir calls ip))
    pure (answers.isDir calls ip)
  dirlookup dp name := do
    let calls ← get
    record (.dirlookup dp name (answers.dirlookup calls dp name))
    pure (answers.dirlookup calls dp name)
  iunlock ip := record (.iunlock ip)
  iput ip := record (.iput ip)

section Run

variable (answers : Answers) (ip : Nat) (calls : List InodeCall)

@[simp] theorem run_cwd :
    (recordOps answers).cwd.run calls = pure (answers.cwd, calls) := rfl

@[simp] theorem run_iget :
    ((recordOps answers).iget ip).run calls = pure ((), calls ++ [.iget ip]) := rfl

@[simp] theorem run_idup :
    ((recordOps answers).idup ip).run calls = pure ((), calls ++ [.idup ip]) := rfl

@[simp] theorem run_ilock :
    ((recordOps answers).ilock ip).run calls = pure ((), calls ++ [.ilock ip]) := rfl

@[simp] theorem run_isDir : ((recordOps answers).isDir ip).run calls =
    pure (answers.isDir calls ip, calls ++ [.isDir ip (answers.isDir calls ip)]) := rfl

@[simp] theorem run_dirlookup (name : List UInt8) :
    ((recordOps answers).dirlookup ip name).run calls =
      pure (answers.dirlookup calls ip name,
        calls ++ [.dirlookup ip name (answers.dirlookup calls ip name)]) := rfl

@[simp] theorem run_iunlock :
    ((recordOps answers).iunlock ip).run calls = pure ((), calls ++ [.iunlock ip]) := rfl

@[simp] theorem run_iput :
    ((recordOps answers).iput ip).run calls = pure ((), calls ++ [.iput ip]) := rfl

end Run

/-- The references to an inode that a call takes, less those that it releases. -/
def InodeCall.taken (inum : Nat) : InodeCall → Int
  | .iget ip | .idup ip | .dirlookup _ _ (some ip) => if ip = inum then 1 else 0
  | .iput ip => if ip = inum then -1 else 0
  | .ilock _ | .isDir _ _ | .dirlookup _ _ none | .iunlock _ => 0

/-- The references to an inode that are left of those taken. -/
def references (calls : List InodeCall) (inum : Nat) : Int := (calls.map (·.taken inum)).sum

/-- The searches of directories among the calls. -/
def lookups (calls : List InodeCall) : List (Nat × List UInt8 × Option Nat) :=
  calls.filterMap fun
    | .dirlookup dp name found => some (dp, name, found)
    | _ => none

/-- The names that directories are searched for. -/
def searched (calls : List InodeCall) : List (List UInt8) :=
  (lookups calls).map fun lookup => lookup.2.1

/-- Each search is in the inode that the one before has found, the first in `start`. -/
inductive Walk : Nat → List (Nat × List UInt8 × Option Nat) → Option Nat → Prop where
  | here (ip : Nat) : Walk ip [] (some ip)
  | missing (ip : Nat) (name : List UInt8) : Walk ip [(ip, name, none)] none
  | step {ip next : Nat} (name : List UInt8) {rest : List (Nat × List UInt8 × Option Nat)}
      {reached : Option Nat} (further : Walk next rest reached) :
      Walk ip ((ip, name, some next) :: rest) reached

/-- The elements that are to be looked up: with `nameiparent`, all but the last. -/
def wanted (nameiparent : Bool) (parts : List (List UInt8)) : List (List UInt8) :=
  if nameiparent then parts.dropLast else parts

/-- What the loop of `namex` does with a reference to `start` in hand. -/
structure Resolved (nameiparent : Bool) (start : Nat) (parts : List (List UInt8))
    (calls : List InodeCall) (result : Option Nat) (name : Nat → UInt8) : Prop where
  /-- The wanted elements are looked up in their order. -/
  order : searched calls <+: wanted nameiparent parts
  /-- The search goes from directory to directory, and the result is where it has led,
  unless there is no element behind the parent or an inode on the way is no directory. -/
  walk : ∃ reached, Walk start (lookups calls) reached ∧
    (result = reached ∨ result = none ∧ (nameiparent = true ∧ parts = [] ∨
      ∃ ip, reached = some ip ∧ .isDir ip false ∈ calls))
  /-- An inode is returned only after all of them. -/
  whole : result ≠ none → searched calls = wanted nameiparent parts
  /-- With `nameiparent`, the element behind them is in `name`. -/
  last : nameiparent = true → result ≠ none → parts.getLast? = some (entryName name)
  /-- Of all references, the one to the result is left. -/
  released : ∀ inum, (if start = inum then 1 else 0) + references calls inum =
    if result = some inum then 1 else 0

variable {answers : Answers} {nameiparent : Bool}

@[simp] theorem references_nil (inum : Nat) : references [] inum = 0 := rfl

@[simp] theorem references_cons (call : InodeCall) (calls : List InodeCall) (inum : Nat) :
    references (call :: calls) inum = call.taken inum + references calls inum := by
  simp [references]

@[simp] theorem lookups_nil : lookups [] = [] := rfl

@[simp] theorem searched_eq (calls : List InodeCall) :
    searched calls = (lookups calls).map fun lookup => lookup.2.1 := rfl

theorem put_balance (ip inum : Nat) :
    (if ip = inum then 1 else 0) + (InodeCall.iput ip).taken inum = (0 : Int) := by
  by_cases same : ip = inum <;> simp [InodeCall.taken, same]

theorem wanted_cons {part : List UInt8} {parts : List (List UInt8)}
    (further : nameiparent = true → parts ≠ []) :
    wanted nameiparent (part :: parts) = part :: wanted nameiparent parts := by
  cases nameiparent with
  | false => rfl
  | true => simp [wanted, List.dropLast_cons_of_ne_nil (further rfl)]

theorem Resolved.failed {start : Nat} {parts : List (List UInt8)} {calls : List InodeCall}
    {name : Nat → UInt8} (order : searched calls <+: wanted nameiparent parts)
    {reached : Option Nat} (walk : Walk start (lookups calls) reached)
    (why : none = reached ∨ nameiparent = true ∧ parts = [] ∨
      ∃ ip, reached = some ip ∧ .isDir ip false ∈ calls)
    (released : ∀ inum, (if start = inum then 1 else 0) + references calls inum = 0) :
    Resolved nameiparent start parts calls none name where
  order := order
  walk := ⟨reached, walk, why.imp_right fun why => ⟨rfl, why⟩⟩
  whole := fun found => absurd rfl found
  last := fun _ found => absurd rfl found
  released := by simpa using released

/-- A step of the walk, from one inode to the next. -/
theorem Resolved.step {ip next : Nat} {part : List UInt8} {parts : List (List UInt8)}
    {more : List InodeCall} {result : Option Nat} {copy : Nat → UInt8}
    (resolved : Resolved nameiparent next parts more result copy)
    (further : nameiparent = true → parts ≠ []) :
    Resolved nameiparent ip (part :: parts)
      (.ilock ip :: .isDir ip true :: .dirlookup ip part (some next) :: .iunlock ip ::
        .iput ip :: more) result copy := by
  have names : wanted nameiparent (part :: parts) = part :: wanted nameiparent parts :=
    wanted_cons further
  have searches : lookups (.ilock ip :: .isDir ip true :: .dirlookup ip part (some next) ::
      .iunlock ip :: .iput ip :: more) = (ip, part, some next) :: lookups more := rfl
  constructor
  · rw [names, searched_eq, searches, List.map_cons]
    exact List.cons_prefix_cons.mpr ⟨rfl, resolved.order⟩
  · obtain ⟨reached, walk, ends⟩ := resolved.walk
    refine ⟨reached, searches ▸ .step part walk, ends.imp_right ?_⟩
    rintro ⟨nothing, ⟨asked, empty⟩ | ⟨last, stands, refused⟩⟩
    · exact absurd empty (further asked)
    · exact ⟨nothing, .inr ⟨last, stands, by simp [refused]⟩⟩
  · intro found
    rw [names, searched_eq, searches, List.map_cons]
    exact congrArg _ (resolved.whole found)
  · intro asked found
    rw [List.getLast?_cons_of_ne_nil (further asked)]
    exact resolved.last asked found
  · intro inum
    have rest := resolved.released inum
    have given := put_balance ip inum
    simp only [references_cons, InodeCall.taken] at given ⊢
    omega

/-- The loop of `namex` on the elements, with the calls it makes. -/
theorem namexOver_resolved (answers : Answers) (nameiparent : Bool) (ip : Nat)
    (name : Nat → UInt8) (names : List (Nat → UInt8)) (calls : List InodeCall) :
    ∃ more result copy, (namexOver (recordOps answers) nameiparent ip name names).run calls =
        ((result, copy), calls ++ more) ∧
      Resolved nameiparent ip (names.map entryName) more result copy := by
  induction names generalizing ip name calls with
  | nil =>
    cases nameiparent with
    | true =>
      refine ⟨[.iput ip], none, name, rfl,
        .failed (by simp [lookups]) (.here ip) (.inr (.inl ⟨rfl, rfl⟩)) ?_⟩
      intro inum
      simpa using put_balance ip inum
    | false =>
      refine ⟨[], some ip, name, by simp [namexOver]; rfl, ?_⟩
      exact {
        order := by simp
        walk := ⟨some ip, .here ip, .inl rfl⟩
        whole := by simp [wanted]
        last := by simp
        released := by simp }
  | cons first rest ih =>
    cases directory : answers.isDir (calls ++ [.ilock ip]) ip with
    | false =>
      refine ⟨[.ilock ip, .isDir ip false, .iunlock ip, .iput ip], none, first, ?_,
        .failed (by simp [lookups]) (.here ip) (.inr (.inr ⟨ip, rfl, by simp⟩)) ?_⟩
      · simp [namexOver, InodeOps.iunlockput, directory]
        rfl
      · intro inum
        simpa [InodeCall.taken] using put_balance ip inum
    | true =>
      by_cases stop : nameiparent = true ∧ rest = []
      · obtain ⟨asked, rfl⟩ := stop
        refine ⟨[.ilock ip, .isDir ip true, .iunlock ip], some ip, first, ?_, ?_⟩
        · simp [namexOver, directory, asked]
          rfl
        · exact {
            order := by simp [lookups]
            walk := ⟨some ip, .here ip, .inl rfl⟩
            whole := by simp [lookups, wanted, asked]
            last := by simp
            released := by simp [InodeCall.taken] }
      · have goes : (nameiparent && rest.isEmpty) = false := by
          simpa using stop
        have further : nameiparent = true → rest.map entryName ≠ [] := fun asked none =>
          stop ⟨asked, by simpa using none⟩
        cases found : answers.dirlookup (calls ++ [.ilock ip, .isDir ip true]) ip
            (entryName first) with
        | none =>
          refine ⟨[.ilock ip, .isDir ip true, .dirlookup ip (entryName first) none,
            .iunlock ip, .iput ip], none, first, ?_,
            .failed ?_ (.missing ip _) (.inl rfl) ?_⟩
          · simp [namexOver, InodeOps.iunlockput, directory, goes, found]
            rfl
          · rw [List.map_cons, wanted_cons further]
            exact ⟨wanted nameiparent (rest.map entryName), rfl⟩
          · intro inum
            simpa [InodeCall.taken] using put_balance ip inum
        | some next =>
          obtain ⟨more, result, copy, run, resolved⟩ := ih next first
            (calls ++ [.ilock ip, .isDir ip true, .dirlookup ip (entryName first) (some next),
              .iunlock ip, .iput ip])
          refine ⟨_, result, copy, ?_, .step resolved further⟩
          simp only [List.append_assoc, List.cons_append, List.nil_append] at run
          simp [namexOver, InodeOps.iunlockput, directory, goes, found, run]

/-- The inode that the first element is looked up in. -/
def startOf (bytes : List UInt8) (answers : Answers) : Nat :=
  if bytes.headD 0 = slash then rootino else answers.cwd

/-- The call that takes the first reference. -/
def startCall (bytes : List UInt8) (answers : Answers) : InodeCall :=
  if bytes.headD 0 = slash then .iget rootino else .idup answers.cwd

/-- For every path name, and whatever the directories hold: iterating `skipelem` yields
the components of the name and then 0; `namex` returns, having looked up the wanted
components in their order, from the root or the current directory on, and of the
references it took only the one to the inode it returns is left. -/
theorem namex_resolves (found : PathAt memory path bytes) (enough : bytes.length < fuel)
    (answers : Answers) (nameiparent : Bool) (name : Nat → UInt8) :
    (∃ names, elements memory fuel fuel path name = some names ∧
      List.Forall₂ Names names (components bytes)) ∧
    ∃ more result copy, (namex (recordOps answers) memory nameiparent fuel path name).run [] =
        (some (result, copy), startCall bytes answers :: more) ∧
      Resolved nameiparent (startOf bytes answers) (components bytes) more result copy ∧
      ∀ inum, references (startCall bytes answers :: more) inum =
        if result = some inum then 1 else 0 := by
  obtain ⟨string, small⟩ := found
  obtain ⟨names, yields, forall2⟩ := elements_string string small enough enough name
  refine ⟨⟨names, yields, forall2⟩, ?_⟩
  obtain ⟨more, result, copy, run, resolved⟩ := namexOver_resolved answers nameiparent
    (startOf bytes answers) name names [startCall bytes answers]
  rw [map_entryName forall2] at resolved
  refine ⟨more, result, copy, ?_, resolved, ?_⟩
  · have loop := namexLoop_string (recordOps answers) nameiparent string small enough enough
      (startOf bytes answers) yields
    rw [namex, string.first]
    unfold startOf startCall at *
    split
    next absolute =>
      simp only [if_pos absolute] at run loop
      simp [loop, run]
      rfl
    next relative =>
      simp only [if_neg relative] at run loop
      simp [loop, run]
      rfl
  · intro inum
    have rest := resolved.released inum
    have first : (startCall bytes answers).taken inum =
        if startOf bytes answers = inum then 1 else 0 := by
      unfold startOf startCall
      split <;> rfl
    rw [references_cons, first]
    exact rest

/-- `"//a/b"`. -/
def sampleName : List UInt8 := [47, 47, 97, 47, 98]

/-- The parent of `b`: only `a` is looked up. -/
theorem namex_resolves_parent :
    (∃ names, elements (fun address => sampleName.getD address 0) 6 6 0 (fun _ => 0) =
        some names ∧ List.Forall₂ Names names (components sampleName)) ∧
    ∃ more result copy,
      (namex (recordOps ⟨7, fun _ _ => true, fun _ _ _ => some 2⟩)
          (fun address => sampleName.getD address 0) true 6 0 fun _ => 0).run [] =
        (some (result, copy), startCall sampleName ⟨7, fun _ _ => true, fun _ _ _ => some 2⟩ ::
          more) ∧
      Resolved true (startOf sampleName ⟨7, fun _ _ => true, fun _ _ _ => some 2⟩)
        (components sampleName) more result copy ∧
      ∀ inum, references
          (startCall sampleName ⟨7, fun _ _ => true, fun _ _ _ => some 2⟩ :: more) inum =
        if result = some inum then 1 else 0 :=
  namex_resolves ⟨by simp [StringAt, sampleName], by decide⟩ (by decide) _ true _

end Ev6.FileSystem.PathName
