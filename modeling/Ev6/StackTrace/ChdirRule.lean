import Ev6.Logging.Handlers

/-!
# The rule about `sys_chdir` and `end_op`

A process that meets an error in `end_op` called by `sys_chdir` must not be recovered.
`recovery_handler_log`, `recovery_handler_buf` and `mlist_tracker` look for the two
functions on the same call stack, each with a chain of tests of its own.
-/

namespace Ev6.StackTrace

open Logging Transactions

/-! ## The three scans -/

/-- One round of `check_fail_stop_cases`: the flags are `is_sys_chdir` and `is_end_op`,
and `none` is FAIL_STOP. -/
def checkFailStopFrame (text : Text) (mode : RecoveryMode) (flags : Bool × Bool)
    (address : Nat) : Option (Bool × Bool) :=
  if text.isInsideAny address [.brelse, .readsb, .fsinit] then none
  else
    let flags :=
      if text.isInside address .sysChdir then (true, flags.2)
      else if text.isInside address .endOp then (flags.1, true)
      else flags
    if mode = .conservative ∧ text.isInsideAny address
        [.bfree, .dirlink, .iput, .logWrite, .sysLink, .sysWrite, .writeLog] then none
    else some flags

/-- `check_fail_stop_cases` of the buffer handler; `true` is FAIL_STOP. -/
def checkFailStopCases (text : Text) (mode : RecoveryMode) (pcs : List Nat) : Bool :=
  match pcs.foldlM (checkFailStopFrame text mode) (false, false) with
  | none => true
  | some (isSysChdir, isEndOp) => isSysChdir && isEndOp

/-- One round of `scan_function_call_history`: the flags are `is_chdir` and `is_end_op`,
and `none` is the result 0. -/
def scanHistoryFrame (text : Text) (flags : Bool × Bool) (address : Nat) :
    Option (Bool × Bool) :=
  let flags :=
    if text.isInside address .endOp then (flags.1, true)
    else if text.isInside address .sysChdir then (true, flags.2)
    else flags
  if flags.1 && flags.2 then none
  else if text.isInsideAny address
      [.brelse, .freeproc, .kvminit, .procinit, .sysOpen, .uvmunmap] then none
  else some flags

/-- `scan_function_call_history` of the tracker: `false` is the result 0, on which the
tracker goes to its Fail-Stop. -/
def scanFunctionCallHistory (text : Text) (pcs : List Nat) : Bool :=
  (pcs.foldlM (scanHistoryFrame text) (false, false)).isSome

/-! ## What the scans decide -/

/-- The call stack has a frame of a function. -/
def Calls (text : Text) (pcs : List Nat) (routine : Routine) : Prop :=
  ∃ address ∈ pcs, text.isInside address routine = true

/-- The call stack has a frame of `sys_chdir` and a frame of `end_op`. -/
def ChdirEnds (text : Text) (pcs : List Nat) : Prop :=
  Calls text pcs .sysChdir ∧ Calls text pcs .endOp

/-- The linker gives `sys_chdir` and `end_op` different addresses. -/
def Apart (text : Text) : Prop :=
  ∀ address, text.isInside address .sysChdir = true → text.isInside address .endOp = false

section

variable {text : Text} {mode : RecoveryMode}

variable {flags next : Bool × Bool} {address : Nat}

theorem checkFailStopFrame_flags (apart : Apart text)
    (scanned : checkFailStopFrame text mode flags address = some next) :
    next = (flags.1 || text.isInside address .sysChdir,
      flags.2 || text.isInside address .endOp) := by
  obtain ⟨-, kept⟩ := Option.ite_none_left_eq_some.mp scanned
  obtain ⟨-, same⟩ := Option.ite_none_left_eq_some.mp kept
  cases same
  cases chdir : text.isInside address .sysChdir with
  | true => simp [apart address chdir]
  | false => cases ends : text.isInside address .endOp <;> simp

variable {pcs : List Nat}

/-- A scan of the buffer handler that ends has met what its flags say. -/
theorem foldlM_checkFailStopFrame (apart : Apart text)
    (scanned : pcs.foldlM (checkFailStopFrame text mode) flags = some next) :
    next = (flags.1 || pcs.any (text.isInside · .sysChdir),
      flags.2 || pcs.any (text.isInside · .endOp)) := by
  induction pcs generalizing flags with
  | nil =>
    cases scanned
    simp
  | cons address rest ih =>
    rw [List.foldlM_cons] at scanned
    obtain ⟨after, first, tail⟩ := Option.bind_eq_some_iff.mp scanned
    rw [ih tail, checkFailStopFrame_flags apart first]
    simp [Bool.or_assoc]

theorem any_of_calls {routine : Routine} (calls : Calls text pcs routine) :
    pcs.any (text.isInside · routine) = true := by
  obtain ⟨address, mem, inside⟩ := calls
  exact List.any_eq_true.mpr ⟨address, mem, inside⟩

theorem checkFailStopCases_of_chdirEnds (apart : Apart text)
    (both : ChdirEnds text pcs) : checkFailStopCases text mode pcs = true := by
  unfold checkFailStopCases
  cases scanned : pcs.foldlM (checkFailStopFrame text mode) (false, false) with
  | none => rfl
  | some next =>
    obtain rfl := foldlM_checkFailStopFrame apart scanned
    simp [any_of_calls both.1, any_of_calls both.2]

theorem scanHistoryFrame_flags (apart : Apart text)
    (scanned : scanHistoryFrame text flags address = some next) :
    next = (flags.1 || text.isInside address .sysChdir,
      flags.2 || text.isInside address .endOp) ∧ (next.1 && next.2) = false := by
  obtain ⟨single, kept⟩ := Option.ite_none_left_eq_some.mp scanned
  obtain ⟨-, same⟩ := Option.ite_none_left_eq_some.mp kept
  cases same
  refine ⟨?_, by simpa using single⟩
  cases chdir : text.isInside address .sysChdir with
  | true => simp [apart address chdir]
  | false => cases ends : text.isInside address .endOp <;> simp

/-- A scan of the tracker that ends has not met both functions. -/
theorem foldlM_scanHistoryFrame (apart : Apart text) (single : (flags.1 && flags.2) = false)
    (scanned : pcs.foldlM (scanHistoryFrame text) flags = some next) :
    ((flags.1 || pcs.any (text.isInside · .sysChdir)) &&
      (flags.2 || pcs.any (text.isInside · .endOp))) = false := by
  induction pcs generalizing flags with
  | nil => simpa using single
  | cons address rest ih =>
    rw [List.foldlM_cons] at scanned
    obtain ⟨after, first, tail⟩ := Option.bind_eq_some_iff.mp scanned
    obtain ⟨rfl, single⟩ := scanHistoryFrame_flags apart first
    have behind := ih single tail
    simpa [Bool.or_assoc] using behind

theorem scanFunctionCallHistory_of_chdirEnds (apart : Apart text)
    (both : ChdirEnds text pcs) : scanFunctionCallHistory text pcs = false := by
  unfold scanFunctionCallHistory
  cases scanned : pcs.foldlM (scanHistoryFrame text) (false, false) with
  | none => rfl
  | some next =>
    have single := foldlM_scanHistoryFrame apart rfl scanned
    simp [any_of_calls both.1, any_of_calls both.2] at single

/-! ## The scan of `recovery_handler_log` -/

/-- A frame of `fileclose` at or behind a frame of `begin_op`; `begun` says that one has
been met before. -/
def ClosesInOperation (text : Text) (begun : Prop) (pcs : List Nat) : Prop :=
  ∃ before address behind, pcs = before ++ address :: behind ∧
    text.isInside address .fileclose = true ∧
    (begun ∨ Calls text (before ++ [address]) .beginOp)

/-- The frames on which `recovery_handler_log` stops in the conservative mode. -/
def Conserved (text : Text) (begun : Prop) (pcs : List Nat) : Prop :=
  Calls text pcs .logWrite ∨ Calls text pcs .create ∨ Calls text pcs .sysWrite ∨
    ClosesInOperation text begun pcs

theorem calls_cons {rest : List Nat} {routine : Routine} : Calls text (address :: rest) routine ↔
      text.isInside address routine = true ∨ Calls text rest routine := by
  simp [Calls]

theorem closesInOperation_cons {begun : Prop} {rest : List Nat} :
    ClosesInOperation text begun (address :: rest) ↔ text.isInside address .fileclose = true ∧
          (begun ∨ text.isInside address .beginOp = true) ∨
        ClosesInOperation text (begun ∨ text.isInside address .beginOp = true) rest := by
  constructor
  · rintro ⟨before, found, behind, split, closes, begins⟩
    rcases List.cons_eq_append_iff.mp split with ⟨rfl, same⟩ | ⟨before, rfl, rfl⟩
    · obtain ⟨rfl, rfl⟩ := List.cons.inj same
      left
      refine ⟨closes, begins.imp_right fun calls => ?_⟩
      simpa [Calls] using calls
    · right
      refine ⟨before, found, behind, rfl, closes, ?_⟩
      rw [List.cons_append, calls_cons, ← or_assoc] at begins
      exact begins
  · rintro (⟨closes, begins⟩ | ⟨before, found, behind, rfl, closes, begins⟩)
    · refine ⟨[], address, rest, rfl, closes, begins.imp_right fun inside => ?_⟩
      simpa [Calls] using inside
    · refine ⟨address :: before, found, behind, rfl, closes, ?_⟩
      rw [List.cons_append, calls_cons, ← or_assoc]
      exact begins

/-- The first chain of tests stops at a frame of `log_write` only: an address in
`end_op` has passed an earlier test before it meets the one for `is_chdir`. -/
theorem logFrame_eq_none {flags : LogFlags} : logFrame text mode flags address = none ↔
      mode = .conservative ∧ text.isInside address .logWrite = true := by
  cases writes : text.isInside address .logWrite <;>
    cases begins : text.isInside address .beginOp <;>
      cases ends : text.isInside address .endOp <;>
        cases chdir : text.isInside address .sysChdir <;>
          simp [logFrame, writes, begins, ends, chdir]

theorem logFrame_isBeginOp {flags next : LogFlags} (other : text.isInside address .logWrite = false)
    (scanned : logFrame text mode flags address = some next) :
    next.isBeginOp = (flags.isBeginOp || text.isInside address .beginOp) := by
  unfold logFrame at scanned
  simp only [other, Bool.false_eq_true, if_false] at scanned
  split_ifs at scanned with begins ends chdir dead
  · cases scanned
    simp [begins]
  · cases scanned
    simp [begins]
  · cases scanned
    simp [begins]
  · cases scanned
    simp [begins]

theorem foldlM_scanLogFrame_aggressive (flags : LogFlags) (pcs : List Nat) :
    pcs.foldlM (scanLogFrame text .aggressive) flags ≠ none := by
  induction pcs generalizing flags with
  | nil => simp
  | cons address rest ih =>
    cases chained : logFrame text .aggressive flags address with
    | none => exact absurd (logFrame_eq_none.mp chained).1 (by simp)
    | some next =>
      have scanned : scanLogFrame text .aggressive flags address = some next := by
        simp [scanLogFrame, chained]
      rw [List.foldlM_cons, scanned]
      exact ih next

/-- The conservative scan stops at the frames of `Conserved`. -/
theorem foldlM_scanLogFrame_conservative {flags : LogFlags} :
    pcs.foldlM (scanLogFrame text .conservative) flags = none ↔
      Conserved text (flags.isBeginOp = true) pcs := by
  induction pcs generalizing flags with
  | nil => simp [Conserved, Calls, ClosesInOperation]
  | cons address rest ih =>
    rw [List.foldlM_cons]
    unfold Conserved
    rw [calls_cons, calls_cons, calls_cons, closesInOperation_cons]
    cases chained : logFrame text .conservative flags address with
    | none =>
      have writes := (logFrame_eq_none.mp chained).2
      simp [scanLogFrame, chained, writes]
    | some next =>
      have other : text.isInside address .logWrite = false := by
        by_contra writes
        have stopped : logFrame text .conservative flags address = none :=
          logFrame_eq_none.mpr ⟨rfl, by simpa using writes⟩
        rw [chained] at stopped
        cases stopped
      have begun := logFrame_isBeginOp other chained
      have begun : next.isBeginOp = true ↔
          flags.isBeginOp = true ∨ text.isInside address .beginOp = true := by
        rw [begun, Bool.or_eq_true]
      by_cases stops : text.isInside address .create = true ∨
          text.isInside address .fileclose = true ∧ next.isBeginOp = true ∨
          text.isInside address .sysWrite = true
      · have scanned : scanLogFrame text .conservative flags address = none := by
          simp only [scanLogFrame, chained, Option.bind_some]
          exact if_pos ⟨trivial, stops⟩
        rw [scanned]
        refine iff_of_true rfl ?_
        rw [begun] at stops
        rcases stops with creates | closes | system
        · exact .inr (.inl (.inl creates))
        · exact .inr (.inr (.inr (.inl closes)))
        · exact .inr (.inr (.inl (.inl system)))
      · have scanned : scanLogFrame text .conservative flags address = some next := by
          simp only [scanLogFrame, chained, Option.bind_some]
          exact if_neg fun both => stops both.2
        rw [scanned]
        have tail := @ih next
        rw [begun] at stops
        obtain ⟨creates, behind⟩ := not_or.mp stops
        obtain ⟨closes, system⟩ := not_or.mp behind
        simp only [begun, Conserved] at tail
        simp only [Option.bind_eq_bind, Option.bind_some, tail, other, creates, closes, system,
          Bool.false_eq_true, false_or]

/-- The stack on which `recovery_handler_log` keeps to the rule: the mode is
conservative and the scan meets one of the frames it stops at. -/
def LogScanStops (text : Text) (mode : RecoveryMode) (pcs : List Nat) : Prop :=
  mode = .conservative ∧ Conserved text False pcs

theorem scanLog_eq_none : scanLog text mode pcs = none ↔ LogScanStops text mode pcs := by
  cases mode with
  | aggressive =>
    refine iff_of_false (foldlM_scanLogFrame_aggressive _ _) ?_
    rintro ⟨other, -⟩
    cases other
  | conservative =>
    refine foldlM_scanLogFrame_conservative.trans ?_
    simp [LogScanStops, LogFlags.start]

/-- `recovery_handler_log` returns FAIL_STOP when its scan stops or another process is
inside the section of the log, and for no other reason. -/
theorem recoveryHandlerLog_eq_none {num : Int} {trans : TransState}
    {pid nlog : Nat} {page : LogHeader} {dup : LogReplica} :
    recoveryHandlerLog text mode pcs num trans pid nlog page dup = none ↔
      LogScanStops text mode pcs ∨ num > 1 := by
  unfold recoveryHandlerLog
  cases scanned : scanLog text mode pcs with
  | none => simp [scanLog_eq_none.mp scanned]
  | some flags =>
    have goes : ¬ LogScanStops text mode pcs := by
      intro stops
      rw [scanLog_eq_none.mpr stops] at scanned
      cases scanned
    simp [goes]

/-- The three scans agree on the rule: each of them stops for a call stack with a frame
of `sys_chdir` and a frame of `end_op`. -/
def AgreeOnChdir (text : Text) (mode : RecoveryMode) (pcs : List Nat) (num : Int)
    (trans : TransState) (pid nlog : Nat) (page : LogHeader) (dup : LogReplica) : Prop :=
  ChdirEnds text pcs →
    recoveryHandlerLog text mode pcs num trans pid nlog page dup = none ∧
      checkFailStopCases text mode pcs = true ∧ scanFunctionCallHistory text pcs = false

end

/-- The buffer handler and the tracker always keep to the rule, so the three agree
exactly on the stacks on which `recovery_handler_log` stops for another reason. -/
theorem agreeOnChdir_iff {text : Text} (apart : Apart text) (mode : RecoveryMode)
    (pcs : List Nat) (num : Int) (trans : TransState) (pid nlog : Nat) (page : LogHeader)
    (dup : LogReplica) :
    AgreeOnChdir text mode pcs num trans pid nlog page dup ↔
      (ChdirEnds text pcs → LogScanStops text mode pcs ∨ num > 1) := by
  unfold AgreeOnChdir
  rw [recoveryHandlerLog_eq_none]
  constructor
  · intro agree both
    exact (agree both).1
  · intro stops both
    exact ⟨stops both, checkFailStopCases_of_chdirEnds apart both,
      scanFunctionCallHistory_of_chdirEnds apart both⟩

/-- A text section in which every function has a hundred addresses of its own. -/
def spacedText : Text
  | .sysChdir => (0x80000100, 0x80000163)
  | .endOp => (0x80000200, 0x80000263)
  | .create => (0x80000300, 0x80000363)
  | _ => (0x80000400, 0x80000463)

theorem spacedText_apart : Apart spacedText := by
  intro address chdir
  have chdir : 0x80000100 ≤ address ∧ address ≤ 0x80000163 := of_decide_eq_true chdir
  refine decide_eq_false fun ends => ?_
  have ends : 0x80000200 ≤ address ∧ address ≤ 0x80000263 := ends
  omega

/-- The frames of `sys_chdir` and `end_op`, on a stack with nothing else. -/
def chdirStack : List Nat := [0x80000210, 0x80000110] ++ List.replicate 28 0

/-- The duplicates of a log with one operation and no block. -/
def quietReplica : LogReplica := ⟨⟨0, fun _ => 0⟩, 1⟩

/-- No transaction is open. -/
def quietTrans : TransState := ⟨1, fun _ => ⟨0, 0, 0, 0⟩, quietReplica.lhdr, -1, 0⟩

theorem chdirStack_chdirEnds : ChdirEnds spacedText chdirStack :=
  ⟨⟨0x80000110, by decide, by decide⟩, ⟨0x80000210, by decide, by decide⟩⟩

theorem agreeOnChdir_iff_crowded :
    Apart spacedText ∧
      AgreeOnChdir spacedText .aggressive chdirStack 2 quietTrans 1 30 quietReplica.lhdr
        quietReplica :=
  ⟨spacedText_apart, (agreeOnChdir_iff spacedText_apart .aggressive chdirStack 2 quietTrans 1 30
    quietReplica.lhdr quietReplica).mpr fun _ => .inr (by decide)⟩

/-- In the aggressive mode `recovery_handler_log` recovers the log for a process in
`end_op` called by `sys_chdir`. -/
theorem chdir_log_recovered :
    ¬ ∀ (text : Text), Apart text → ∀ mode pcs num trans pid nlog page dup,
      pcs.length = depth → AgreeOnChdir text mode pcs num trans pid nlog page dup := by
  intro claimed
  have stopped := (claimed spacedText spacedText_apart .aggressive chdirStack 1 quietTrans 1 30
    quietReplica.lhdr quietReplica (by decide) chdirStack_chdirEnds).1
  rcases recoveryHandlerLog_eq_none.mp stopped with ⟨other, -⟩ | crowded
  · cases other
  · omega

end Ev6.StackTrace
