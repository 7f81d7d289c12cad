import Mathlib.Algebra.Group.Int.Defs
import Mathlib.Algebra.Group.Nat.Defs
import Mathlib.Logic.Function.Basic

/-!
# The allocator of user programs

`free`, `morecore` and `malloc` of `umalloc.c`, and the `sbrk` that they call. Memory is
seen as an array of `Header`s: a `Header*` is the number of the header-sized unit that it
points to, which is exact because a program starts with its break at a page and `malloc`
moves the break by whole headers. A loop takes a bound on its passes and gives `none` when
the bound is too small.
-/

namespace Ev6.UserHeap

/-- `union header`. -/
structure Header where
  ptr : Nat
  size : Nat
deriving DecidableEq

/-- `sizeof(Header)`. -/
def headerSize : Nat := 16

/-- The memory of a program, `freep` with 0 for null, and the break in bytes. -/
structure Memory where
  header : Nat → Header
  freep : Nat
  brk : Nat

/-- A 64-bit number passed as an `int`. -/
def int (value : Nat) : Int := (BitVec.ofNat 32 value).toInt

/-- The units that `morecore` asks for. -/
def request (nu : Nat) : Nat := if nu < 4096 then 4096 else nu

/-- `nunits` for a request. -/
def nunits (nbytes : Nat) : Nat := (nbytes + headerSize - 1) / headerSize + 1

namespace Memory

/-- `p->s.ptr`. -/
def ptr (memory : Memory) (p : Nat) : Nat := (memory.header p).ptr

/-- `p->s.size`. -/
def size (memory : Memory) (p : Nat) : Nat := (memory.header p).size

/-- `p->s.ptr = q`. -/
def setPtr (memory : Memory) (p q : Nat) : Memory :=
  { memory with header := Function.update memory.header p ⟨q, memory.size p⟩ }

/-- `p->s.size = n`. -/
def setSize (memory : Memory) (p n : Nat) : Memory :=
  { memory with header := Function.update memory.header p ⟨memory.ptr p, n⟩ }

/-- `freep = p`. -/
def setFreep (memory : Memory) (p : Nat) : Memory := { memory with freep := p }

/-! ## `free` -/

/-- The loop of `free`: the node behind which `bp` belongs. -/
def place (memory : Memory) (bp : Nat) : Nat → Nat → Option Nat
  | 0, _ => none
  | fuel + 1, p =>
    if p < bp ∧ bp < memory.ptr p then some p
    else if memory.ptr p ≤ p ∧ (p < bp ∨ bp < memory.ptr p) then some p
    else place memory bp fuel (memory.ptr p)

/-- `free` behind its loop: `bp` and the node behind it. -/
def joinUpper (memory : Memory) (bp p : Nat) : Memory :=
  let next := memory.ptr p
  if bp + memory.size bp = next then
    (memory.setSize bp ((memory.size bp + memory.size next) % 2 ^ 32)).setPtr bp (memory.ptr next)
  else memory.setPtr bp next

/-- `free` behind its loop: `bp` and the node in front of it. -/
def joinLower (memory : Memory) (bp p : Nat) : Memory :=
  if p + memory.size p = bp then
    (memory.setSize p ((memory.size p + memory.size bp) % 2 ^ 32)).setPtr p (memory.ptr bp)
  else memory.setPtr p bp

/-- `free`. -/
def free (memory : Memory) (fuel ap : Nat) : Option Memory :=
  let bp := ap - 1
  (memory.place bp fuel memory.freep).map fun p =>
    ((memory.joinUpper bp p).joinLower bp p).setFreep p

/-! ## `malloc` -/

/-- `sbrk` of `n` bytes: the old break, or none for -1. The kernel grants the call or
refuses it; `sys_sbrk` returns the break as an `int`. -/
def sbrk (memory : Memory) (granted : Bool) (n : Int) : Option (Nat × Memory) :=
  if granted = true ∧ 0 ≤ memory.brk + n ∧ memory.brk + n < 2 ^ 31 then
    some (memory.brk, { memory with brk := (memory.brk + n).toNat })
  else none

/-- `morecore`, with 0 for null. -/
def morecore (memory : Memory) (granted : Bool) (fuel nu : Nat) : Option (Nat × Memory) :=
  match memory.sbrk granted (int (request nu * headerSize)) with
  | none => some (0, memory)
  | some (p, memory) =>
    let hp := p / headerSize
    ((memory.setSize hp (request nu)).free fuel (hp + 1)).map fun memory =>
      (memory.freep, memory)

/-- `malloc` with a node that is large enough, and the one in front of it. -/
def take (memory : Memory) (prevp p units : Nat) : Nat × Memory :=
  if memory.size p = units then (p + 1, (memory.setPtr prevp (memory.ptr p)).setFreep prevp)
  else
    let rest := memory.setSize p (memory.size p - units)
    let tail := p + rest.size p
    (tail + 1, (rest.setSize tail units).setFreep prevp)

/-- The loop of `malloc`: the pointer that it returns, with none for 0. -/
def mallocLoop (granted : Bool) (units : Nat) :
    Nat → Memory → Nat → Nat → Option (Option Nat × Memory)
  | 0, _, _, _ => none
  | fuel + 1, memory, prevp, p =>
    if units ≤ memory.size p then
      let taken := memory.take prevp p units
      some (some taken.1, taken.2)
    else if p = memory.freep then
      (memory.morecore granted fuel units).bind fun more =>
        if more.1 = 0 then some (none, more.2)
        else mallocLoop granted units fuel more.2 more.1 (more.2.ptr more.1)
    else mallocLoop granted units fuel memory p (memory.ptr p)

/-- The first lines of `malloc`: the list with `base` alone. -/
def start (memory : Memory) (base : Nat) : Memory :=
  if memory.freep = 0 then ((memory.setPtr base base).setFreep base).setSize base 0
  else memory

/-- `malloc`. -/
def malloc (memory : Memory) (base : Nat) (granted : Bool) (fuel nbytes : Nat) :
    Option (Option Nat × Memory) :=
  let memory := memory.start base
  mallocLoop granted (nunits nbytes) fuel memory memory.freep (memory.ptr memory.freep)

/-! ## More passes change nothing -/

theorem place_mono {memory : Memory} {bp fuel more p node : Nat} (less : fuel ≤ more)
    (found : memory.place bp fuel p = some node) : memory.place bp more p = some node := by
  induction fuel generalizing more p with
  | zero => cases found
  | succ fuel ih =>
    obtain ⟨left, rfl⟩ : ∃ left, more = left + 1 := ⟨more - 1, by omega⟩
    rw [place] at found ⊢
    by_cases between : p < bp ∧ bp < memory.ptr p
    · rw [if_pos between] at found ⊢
      exact found
    · rw [if_neg between] at found ⊢
      by_cases wrap : memory.ptr p ≤ p ∧ (p < bp ∨ bp < memory.ptr p)
      · rw [if_pos wrap] at found ⊢
        exact found
      · rw [if_neg wrap] at found ⊢
        exact ih (by omega) found

theorem free_mono {memory after : Memory} {fuel more ap : Nat} (less : fuel ≤ more)
    (returned : memory.free fuel ap = some after) : memory.free more ap = some after := by
  obtain ⟨node, found, rfl⟩ := Option.map_eq_some_iff.mp returned
  exact Option.map_eq_some_iff.mpr ⟨node, place_mono less found, rfl⟩

theorem morecore_mono {memory : Memory} {granted : Bool} {fuel more nu : Nat}
    {result : Nat × Memory} (less : fuel ≤ more)
    (returned : memory.morecore granted fuel nu = some result) :
    memory.morecore granted more nu = some result := by
  unfold morecore at returned ⊢
  cases grown : memory.sbrk granted (int (request nu * headerSize)) with
  | none =>
    rw [grown] at returned
    exact returned
  | some pair =>
    rw [grown] at returned
    obtain ⟨after, freed, rfl⟩ := Option.map_eq_some_iff.mp returned
    exact Option.map_eq_some_iff.mpr ⟨after, free_mono less freed, rfl⟩

theorem mallocLoop_mono {memory : Memory} {granted : Bool} {units fuel more prevp p : Nat}
    {result : Option Nat × Memory} (less : fuel ≤ more)
    (returned : mallocLoop granted units fuel memory prevp p = some result) :
    mallocLoop granted units more memory prevp p = some result := by
  induction fuel generalizing more memory prevp p with
  | zero => cases returned
  | succ fuel ih =>
    obtain ⟨left, rfl⟩ : ∃ left, more = left + 1 := ⟨more - 1, by omega⟩
    rw [mallocLoop] at returned ⊢
    by_cases large : units ≤ memory.size p
    · rw [if_pos large] at returned ⊢
      exact returned
    · rw [if_neg large] at returned ⊢
      by_cases last : p = memory.freep
      · rw [if_pos last] at returned ⊢
        obtain ⟨got, taken, rest⟩ := Option.bind_eq_some_iff.mp returned
        refine Option.bind_eq_some_iff.mpr ⟨got, morecore_mono (by omega) taken, ?_⟩
        by_cases null : got.1 = 0
        · rw [if_pos null] at rest ⊢
          exact rest
        · rw [if_neg null] at rest ⊢
          exact ih (by omega) rest
      · rw [if_neg last] at returned ⊢
        exact ih (by omega) returned

/-! ## Fields -/

variable (memory : Memory) (p q n r : Nat)

@[simp] theorem ptr_setPtr : (memory.setPtr p q).ptr r = if r = p then q else memory.ptr r := by
  by_cases same : r = p
  · subst same
    simp [ptr, setPtr]
  · simp [ptr, setPtr, same]

@[simp] theorem size_setPtr : (memory.setPtr p q).size r = memory.size r := by
  by_cases same : r = p
  · subst same
    simp [size, setPtr]
  · simp [size, setPtr, same]

@[simp] theorem ptr_setSize : (memory.setSize p n).ptr r = memory.ptr r := by
  by_cases same : r = p
  · subst same
    simp [ptr, setSize]
  · simp [ptr, setSize, same]

@[simp] theorem size_setSize :
    (memory.setSize p n).size r = if r = p then n else memory.size r := by
  by_cases same : r = p
  · subst same
    simp [size, setSize]
  · simp [size, setSize, same]

@[simp] theorem ptr_setFreep : (memory.setFreep p).ptr r = memory.ptr r := rfl

@[simp] theorem size_setFreep : (memory.setFreep p).size r = memory.size r := rfl

@[simp] theorem brk_setFreep : (memory.setFreep p).brk = memory.brk := rfl

end Memory

end Ev6.UserHeap
