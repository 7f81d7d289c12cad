import Ev6.Kernel.Param
import Ev6.Support.Bytes
import Mathlib.Tactic.SplitIfs

/-!
# Copies between kernel and user space

`copyin` and `copyout` go through a user range page by page and stop at the
first page that is not mapped. What they have moved before that stays moved;
a copy succeeds exactly when every byte of its range is mapped.
-/

namespace Ev6.FileSystem

open Nat (mod_le mod_lt)
open Support

/-- `MAXVA`: one beyond the highest user virtual address. -/
def maxva : Nat := 2 ^ 38

theorem maxva_eq : maxva = 0x4000000000 := rfl

/-- The valid user pages of a page table: the physical address of each by page
number. -/
abbrev UserPages := Nat → Option Nat

/-- `walkaddr`; addresses are `uint64`. -/
def walkaddr (pagetable : UserPages) (va : Nat) : Option Nat :=
  if maxva ≤ va % 2 ^ 64 then none else pagetable (va % 2 ^ 64 / pgsize)

/-- What a copy from user space has moved, and whether it came to its end. -/
structure CopyIn where
  bytes : List UInt8
  ok : Bool

/-- The memory after a copy to user space, how many bytes it has moved, and
whether it came to its end. -/
structure CopyOut where
  memory : Nat → UInt8
  moved : Nat
  ok : Bool

/-- `copyin`. -/
def copyin (pagetable : UserPages) (memory : Nat → UInt8) (srcva len : Nat) : CopyIn :=
  if len = 0 then ⟨[], true⟩
  else
    match walkaddr pagetable (srcva - srcva % pgsize) with
    | none => ⟨[], false⟩
    | some pa0 =>
      let n := min (pgsize - srcva % pgsize) len
      let rest := copyin pagetable memory (srcva - srcva % pgsize + pgsize) (len - n)
      ⟨extract memory (pa0 + srcva % pgsize) n ++ rest.bytes, rest.ok⟩
termination_by len
decreasing_by
  have inside := mod_lt srcva (show 0 < pgsize by decide)
  omega

/-- `copyout`. -/
def copyout (pagetable : UserPages) (memory : Nat → UInt8) (dstva : Nat) (src : List UInt8) :
    CopyOut :=
  if src.length = 0 then ⟨memory, 0, true⟩
  else
    match walkaddr pagetable (dstva - dstva % pgsize) with
    | none => ⟨memory, 0, false⟩
    | some pa0 =>
      let n := min (pgsize - dstva % pgsize) src.length
      let rest := copyout pagetable (patch memory (pa0 + dstva % pgsize) (src.take n))
        (dstva - dstva % pgsize + pgsize) (src.drop n)
      ⟨rest.memory, n + rest.moved, rest.ok⟩
termination_by src.length
decreasing_by
  have inside := mod_lt dstva (show 0 < pgsize by decide)
  rw [List.length_drop]
  omega

/-- `either_copyin`: a kernel address names its byte directly. -/
def eitherCopyin (pagetable : UserPages) (memory : Nat → UInt8) (user_src : Bool)
    (src len : Nat) : CopyIn :=
  if user_src then copyin pagetable memory src len else ⟨extract memory src len, true⟩

/-- `either_copyout`. -/
def eitherCopyout (pagetable : UserPages) (memory : Nat → UInt8) (user_dst : Bool) (dst : Nat)
    (src : List UInt8) : CopyOut :=
  if user_dst then copyout pagetable memory dst src else ⟨patch memory dst src, src.length, true⟩

/-! ## Mapped ranges -/

/-- Every byte of a user range lies in a mapped page. -/
def MappedRange (pagetable : UserPages) (va len : Nat) : Prop :=
  ∀ index < len, (walkaddr pagetable (va + index)).isSome = true

instance (pagetable : UserPages) (va len : Nat) : Decidable (MappedRange pagetable va len) := by
  unfold MappedRange
  infer_instance

/-- The whole of a range that either space may hold is within reach. -/
def Reachable (pagetable : UserPages) (user : Bool) (va len : Nat) : Prop :=
  user = true → MappedRange pagetable va len

/-- The byte at a mapped user address. -/
def userByte (pagetable : UserPages) (memory : Nat → UInt8) (va : Nat) : UInt8 :=
  memory ((walkaddr pagetable (va - va % pgsize)).getD 0 + va % pgsize)

/-- The byte at an address of the space that a copy reads from. -/
def sourceByte (pagetable : UserPages) (memory : Nat → UInt8) (user : Bool) : Nat → UInt8 :=
  if user then userByte pagetable memory else memory

variable {pagetable : UserPages} {memory : Nat → UInt8}

theorem walkaddr_page (va index : Nat) (inside : va % pgsize + index < pgsize) :
    walkaddr pagetable (va + index) = walkaddr pagetable (va - va % pgsize) := by
  rw [pgsize_eq] at inside
  have page : (va + index) % 2 ^ 64 / pgsize = (va - va % pgsize) % 2 ^ 64 / pgsize := by
    rw [pgsize_eq]
    omega
  have limit : maxva ≤ (va + index) % 2 ^ 64 ↔ maxva ≤ (va - va % pgsize) % 2 ^ 64 := by
    rw [maxva_eq, pgsize_eq]
    omega
  unfold walkaddr
  rw [page]
  simp only [limit]

theorem userByte_page {va index pa0 : Nat} (page : walkaddr pagetable (va - va % pgsize) = some pa0)
    (inside : va % pgsize + index < pgsize) :
    userByte pagetable memory (va + index) = memory (pa0 + va % pgsize + index) := by
  have below := mod_le va pgsize
  have offset : (va + index) % pgsize = va % pgsize + index := by
    rw [Nat.add_mod, Nat.mod_eq_of_lt (show index < pgsize by omega), Nat.mod_eq_of_lt inside]
  have start : va + index - (va % pgsize + index) = va - va % pgsize := by omega
  rw [userByte, offset, start, page, Option.getD_some, ← Nat.add_assoc]

theorem MappedRange.zero (pagetable : UserPages) (va : Nat) : MappedRange pagetable va 0 :=
  fun _ low => absurd low (Nat.not_lt_zero _)

theorem MappedRange.add {va first second : Nat} :
    MappedRange pagetable va (first + second) ↔
      MappedRange pagetable va first ∧ MappedRange pagetable (va + first) second := by
  constructor
  · intro mapped
    refine ⟨fun index low => mapped index (by omega), fun index low => ?_⟩
    rw [Nat.add_assoc]
    exact mapped (first + index) (by omega)
  · rintro ⟨low, high⟩ index inside
    by_cases early : index < first
    · exact low index early
    · have late := high (index - first) (by omega)
      rwa [Nat.add_assoc, Nat.add_sub_cancel' (Nat.not_lt.mp early)] at late

theorem MappedRange.mono {va len less : Nat} (mapped : MappedRange pagetable va len)
    (fewer : less ≤ len) : MappedRange pagetable va less :=
  fun index low => mapped index (Nat.lt_of_lt_of_le low fewer)

/-- A range within one page is mapped with the page. -/
theorem MappedRange.page {va len : Nat} (inside : va % pgsize + len ≤ pgsize)
    (page : (walkaddr pagetable (va - va % pgsize)).isSome = true) :
    MappedRange pagetable va len := by
  intro index low
  rw [walkaddr_page va index (by omega)]
  exact page

/-- A copy to its next page, when the first page is mapped. -/
theorem MappedRange.step {va len : Nat}
    (page : (walkaddr pagetable (va - va % pgsize)).isSome = true) :
    MappedRange pagetable va len ↔
      MappedRange pagetable (va - va % pgsize + pgsize) (len - min (pgsize - va % pgsize) len) := by
  have low := mod_lt va (show 0 < pgsize by decide)
  have below := mod_le va pgsize
  obtain ⟨count, split⟩ : ∃ count, min (pgsize - va % pgsize) len = count := ⟨_, rfl⟩
  have here : MappedRange pagetable va count := .page (by omega) page
  rw [split]
  by_cases rest : len - count = 0
  · have whole : len = count := by omega
    subst whole
    rw [rest]
    exact iff_of_true here (.zero _ _)
  · have next : va + count = va - va % pgsize + pgsize := by omega
    have total : len = count + (len - count) := by omega
    rw [← next]
    conv_lhs => rw [total, MappedRange.add]
    exact and_iff_right here

/-- A copy from a range that is not empty fails at once on an unmapped page. -/
theorem MappedRange.not_of_page {va len : Nat} (positive : len ≠ 0)
    (page : walkaddr pagetable (va - va % pgsize) = none) : ¬MappedRange pagetable va len := by
  intro mapped
  have first := mapped 0 (Nat.pos_of_ne_zero positive)
  rw [walkaddr_page va 0 (mod_lt va (show 0 < pgsize by decide)), page] at first
  cases first

/-! ## What the copies move -/

/-- `copyin` comes to its end exactly when its range is mapped. -/
theorem copyin_ok (pagetable : UserPages) (memory : Nat → UInt8) (srcva len : Nat) :
    (copyin pagetable memory srcva len).ok = true ↔ MappedRange pagetable srcva len := by
  fun_induction copyin pagetable memory srcva len with
  | case1 srcva => exact iff_of_true rfl (.zero _ _)
  | case2 srcva len positive page =>
    exact iff_of_false Bool.false_ne_true (MappedRange.not_of_page positive page)
  | case3 srcva len positive pa0 page n rest ih =>
    rw [MappedRange.step (by rw [page]; rfl)]
    exact ih

/-- `copyin` moves its whole range exactly when it comes to its end. -/
theorem copyin_length (pagetable : UserPages) (memory : Nat → UInt8) (srcva len : Nat) :
    (copyin pagetable memory srcva len).bytes.length ≤ len ∧
      ((copyin pagetable memory srcva len).bytes.length = len ↔
        (copyin pagetable memory srcva len).ok = true) := by
  fun_induction copyin pagetable memory srcva len with
  | case1 srcva => simp
  | case2 srcva len positive page => simpa using Ne.symm positive
  | case3 srcva len positive pa0 page n rest ih =>
    have most : n ≤ len := Nat.min_le_right _ _
    change rest.bytes.length ≤ len - n ∧ (rest.bytes.length = len - n ↔ rest.ok = true) at ih
    obtain ⟨short, whole⟩ := ih
    simp only [List.length_append, length_extract]
    refine ⟨by omega, ?_⟩
    rw [← whole]
    omega

theorem copyin_bytes {srcva len : Nat} (mapped : MappedRange pagetable srcva len) :
    (copyin pagetable memory srcva len).bytes = extract (userByte pagetable memory) srcva len := by
  fun_induction copyin pagetable memory srcva len with
  | case1 srcva => rfl
  | case2 srcva len positive page => exact absurd mapped (MappedRange.not_of_page positive page)
  | case3 srcva len positive pa0 page n rest ih =>
    have low := mod_lt srcva (show 0 < pgsize by decide)
    have below := mod_le srcva pgsize
    have behind := ih ((MappedRange.step (by rw [page]; rfl)).mp mapped)
    have split : extract (userByte pagetable memory) srcva len =
        extract (userByte pagetable memory) srcva n ++
          extract (userByte pagetable memory) (srcva + n) (len - n) := by
      rw [← extract_add]
      congr 1
      omega
    have first : extract (userByte pagetable memory) srcva n =
        extract memory (pa0 + srcva % pgsize) n :=
      extract_shift fun index within => userByte_page page (by omega)
    rw [split, first]
    show extract memory (pa0 + srcva % pgsize) n ++ rest.bytes = _
    rw [behind]
    by_cases short : len ≤ pgsize - srcva % pgsize
    · have none : len - n = 0 := by omega
      rw [none]
      rfl
    · have next : srcva - srcva % pgsize + pgsize = srcva + n := by omega
      rw [next]

theorem copyout_ok (pagetable : UserPages) (memory : Nat → UInt8) (dstva : Nat) (src : List UInt8) :
    (copyout pagetable memory dstva src).ok = true ↔ MappedRange pagetable dstva src.length := by
  fun_induction copyout pagetable memory dstva src with
  | case1 memory dstva src empty =>
    rw [empty]
    exact iff_of_true rfl (.zero _ _)
  | case2 memory dstva src positive page =>
    exact iff_of_false Bool.false_ne_true (MappedRange.not_of_page positive page)
  | case3 memory dstva src positive pa0 page n rest ih =>
    rw [MappedRange.step (by rw [page]; rfl)]
    rw [List.length_drop] at ih
    exact ih

theorem copyout_moved (pagetable : UserPages) (memory : Nat → UInt8) (dstva : Nat)
    (src : List UInt8) : (copyout pagetable memory dstva src).moved ≤ src.length ∧
      ((copyout pagetable memory dstva src).moved = src.length ↔
        (copyout pagetable memory dstva src).ok = true) := by
  fun_induction copyout pagetable memory dstva src with
  | case1 memory dstva src empty => simp [empty]
  | case2 memory dstva src positive page => simpa using Ne.symm positive
  | case3 memory dstva src positive pa0 page n rest ih =>
    have most : n ≤ src.length := Nat.min_le_right _ _
    rw [List.length_drop] at ih
    change rest.moved ≤ src.length - n ∧ (rest.moved = src.length - n ↔ rest.ok = true) at ih
    obtain ⟨short, whole⟩ := ih
    refine ⟨by dsimp only; omega, ?_⟩
    rw [← whole]
    dsimp only
    omega

section Either

variable {user : Bool} {va : Nat}

theorem eitherCopyin_ok (pagetable : UserPages) (memory : Nat → UInt8) (user : Bool)
    (src len : Nat) :
    (eitherCopyin pagetable memory user src len).ok = true ↔ Reachable pagetable user src len := by
  cases user with
  | false => simp [eitherCopyin, Reachable]
  | true => simpa [eitherCopyin, Reachable] using copyin_ok pagetable memory src len

theorem eitherCopyin_length (pagetable : UserPages) (memory : Nat → UInt8) (user : Bool)
    (src len : Nat) : (eitherCopyin pagetable memory user src len).bytes.length ≤ len ∧
      ((eitherCopyin pagetable memory user src len).bytes.length = len ↔
        (eitherCopyin pagetable memory user src len).ok = true) := by
  cases user with
  | false => simp [eitherCopyin]
  | true => simpa [eitherCopyin] using copyin_length pagetable memory src len

/-- A copy from a range within reach moves its bytes. -/
theorem eitherCopyin_bytes {src len : Nat} (reach : Reachable pagetable user src len) :
    (eitherCopyin pagetable memory user src len).bytes =
      extract (sourceByte pagetable memory user) src len := by
  cases user with
  | false => rfl
  | true => exact copyin_bytes (reach rfl)

theorem eitherCopyout_ok (pagetable : UserPages) (memory : Nat → UInt8) (user : Bool) (dst : Nat)
    (src : List UInt8) : (eitherCopyout pagetable memory user dst src).ok = true ↔
      Reachable pagetable user dst src.length := by
  cases user with
  | false => simp [eitherCopyout, Reachable]
  | true => simpa [eitherCopyout, Reachable] using copyout_ok pagetable memory dst src

theorem eitherCopyout_moved (pagetable : UserPages) (memory : Nat → UInt8) (user : Bool)
    (dst : Nat) (src : List UInt8) :
    (eitherCopyout pagetable memory user dst src).moved ≤ src.length ∧
      ((eitherCopyout pagetable memory user dst src).moved = src.length ↔
        (eitherCopyout pagetable memory user dst src).ok = true) := by
  cases user with
  | false => simp [eitherCopyout]
  | true => simpa [eitherCopyout] using copyout_moved pagetable memory dst src

theorem Reachable.add {first second : Nat} :
    Reachable pagetable user va (first + second) ↔
      Reachable pagetable user va first ∧ Reachable pagetable user (va + first) second := by
  unfold Reachable
  rw [MappedRange.add]
  tauto

theorem Reachable.zero (pagetable : UserPages) (user : Bool) (va : Nat) :
    Reachable pagetable user va 0 :=
  fun _ => .zero pagetable va

end Either

end Ev6.FileSystem
