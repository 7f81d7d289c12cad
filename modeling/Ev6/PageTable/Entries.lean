import Ev6.Kernel.Memory
import Ev6.Support.Bits

/-!
# Page table entries and their duplicates

The macros of `riscv.h` that take page table entries and virtual addresses apart, and
those of `ptdup.h` for the packed entries: a PTDS is a run of pages whose virtual and
physical addresses go up or down together, a PTED is a single page.
-/

namespace Ev6.PageTable

open Support

/-- `PTE_V`. -/
def pteV : Nat := 1

/-- `PTE_R`. -/
def pteR : Nat := 2

/-- `PTE_W`. -/
def pteW : Nat := 4

/-- `PTE_X`. -/
def pteX : Nat := 8

/-- `PTE_U`. -/
def pteU : Nat := 0x10

/-- `PTE_D`. -/
def pteD : Nat := 0x80

/-- `MAXVA`: one above the highest virtual address. -/
def maxva : Nat := 2 ^ 38

/-- `PA2PTE`. -/
def pa2pte (pa : Nat) : Nat := (pa >>> 12) <<< 10

/-- `PTE2PA`. -/
def pte2pa (pte : Nat) : Nat := ((pte >>> 10) <<< 12) % 2 ^ 64

/-- `PTE_FLAGS`. -/
def pteFlags (pte : Nat) : Nat := pte &&& 0x3FF

/-- The test `pte & PTE_V`. -/
def isValid (pte : Nat) : Bool := pte &&& pteV ≠ 0

/-- `PX`: the index into the page table of one level. -/
def px (level va : Nat) : Nat := (va >>> (12 + 9 * level)) &&& 0x1FF

/-- `PGROUNDDOWN`. -/
def pgrounddown (address : Nat) : Nat := address &&& (2 ^ 64 - 2 ^ 12)

/-- `PGROUNDUP`. -/
def pgroundup (size : Nat) : Nat := pgrounddown ((size + pgsize - 1) % 2 ^ 64)

/-- `PTE_W|PTE_X|PTE_R|PTE_U`. -/
def userPerm : Nat := pteW ||| pteX ||| pteR ||| pteU

/-- `PTDS2VA`, and `PTED2VA`. -/
def ptds2va (entry : Nat) : Nat := (entry >>> 26) &&& (2 ^ 64 - 2 ^ 12)

/-- `VA2PTDS`, and `VA2PTED`. -/
def va2ptds (va : Nat) : Nat := (va <<< 26) % 2 ^ 64

/-- `PTDS2PPN`, and `PTED2PPN`. -/
def ptds2ppn (entry : Nat) : Nat := (entry &&& 0x3FFFFFF800) >>> 2

/-- `PPN2PTDS`, and `PPN2PTED`. -/
def ppn2ptds (ppn : Nat) : Nat := ((ppn &&& (2 ^ 64 - 2 ^ 10)) <<< 2) % 2 ^ 64

/-- `UB2PTDS`. -/
def ub2ptds (perm : Nat) : Nat := (perm &&& 0x10) <<< 5

/-- `PTDS2UB`. -/
def ptds2ub (entry : Nat) : Nat := (entry >>> 5) &&& 0x10

/-- `ORDER2PTDS`. -/
def order2ptds (order : Nat) : Nat := order <<< 10

/-- `PTDS2SIZE`. -/
def ptds2size (entry : Nat) : Nat := entry &&& 0x1FF

/-- `PTDS2ORDER`. -/
def ptds2order (entry : Nat) : Nat := (entry >>> 10) &&& 1

/-- `PTED2FLAGS`. -/
def pted2flags (entry : Nat) : Nat := entry &&& 0x1FF

/-- The difference of two words. -/
def subWord (first second : Nat) : Nat := (first + 2 ^ 64 - second % 2 ^ 64) % 2 ^ 64

/-- A 32-bit `int` as a word. -/
def signExtend (value : Nat) : Nat :=
  let low := value % 2 ^ 32
  if low < 2 ^ 31 then low else low + (2 ^ 64 - 2 ^ 32)

/-- The physical page number, shifted as in an entry, of one page of a PTDS: the pages go
up, or down, from the first one. -/
def runPpn (entry j : Nat) : Nat :=
  if ptds2order entry ≠ 0 then (ptds2ppn entry + j * 0x400) % 2 ^ 64
  else subWord (ptds2ppn entry) (j * 0x400)

theorem pgrounddown_eq {address : Nat} (bound : address < 2 ^ 64) :
    pgrounddown address = address / 2 ^ 12 * 2 ^ 12 :=
  and_highMask bound (by decide)

/-! ## The fields of a word -/

section Fields

variable {word : Nat}

theorem ptds2va_eq (bound : word < 2 ^ 64) : ptds2va word = word / 2 ^ 38 * 2 ^ 12 := by
  have small : word >>> 26 < 2 ^ 64 := Nat.lt_of_le_of_lt (Nat.shiftRight_le word 26) bound
  rw [ptds2va, and_highMask small (by decide), Nat.shiftRight_eq_div_pow, Nat.div_div_eq_div_mul,
    ← pow_add]

theorem ptds2size_eq (word : Nat) : ptds2size word = word % 512 :=
  Nat.and_two_pow_sub_one_eq_mod word 9

theorem ptds2size_lt (word : Nat) : ptds2size word < 512 := by
  rw [ptds2size_eq]
  exact Nat.mod_lt word (by decide)

/-- The virtual address of a record is that of a page below `MAXVA`. -/
theorem ptds2va_bounds (bound : word < 2 ^ 64) :
    ptds2va word % 4096 = 0 ∧ ptds2va word < 0x4000000000 := by
  have high : word / 2 ^ 38 < 2 ^ 26 := Nat.div_lt_of_lt_mul (by simpa [← pow_add] using bound)
  rw [ptds2va_eq bound]
  omega

theorem ptds2ub_ne_zero (word : Nat) : ptds2ub word ≠ 0 ↔ word / 512 % 2 = 1 := by
  rw [ptds2ub, show (0x10 : Nat) = 2 ^ 4 from rfl, Nat.and_two_pow, Nat.testBit_shiftRight,
    Nat.testBit_eq_decide_div_mod_eq]
  by_cases set : word / 512 % 2 = 1 <;> simp [set]

/-- Words that differ in their sizes only name the same pages. -/
theorem fields_congr {first second : Nat} (same : first / 512 = second / 512) :
    ptds2va first = ptds2va second ∧ ptds2ub first = ptds2ub second ∧
      ∀ j, runPpn first j = runPpn second j := by
  have high : first >>> 9 = second >>> 9 := by
    rw [Nat.shiftRight_eq_div_pow, Nat.shiftRight_eq_div_pow]
    exact same
  have shifted (more : Nat) : first >>> (9 + more) = second >>> (9 + more) := by
    rw [Nat.shiftRight_add, Nat.shiftRight_add, high]
  have ppn : ptds2ppn first = ptds2ppn second := by
    rw [ptds2ppn, ptds2ppn, and_congr_high high (by decide)]
  have order : ptds2order first = ptds2order second := by
    rw [ptds2order, ptds2order, shifted 1]
  refine ⟨?_, ?_, fun j => ?_⟩
  · rw [ptds2va, ptds2va, shifted 17]
  · have low : first >>> 5 >>> 4 = second >>> 5 >>> 4 := by
      rw [← Nat.shiftRight_add, ← Nat.shiftRight_add]
      exact high
    rw [ptds2ub, ptds2ub, and_congr_high low (by decide)]
  · rw [runPpn, runPpn, order, ppn]

end Fields

end Ev6.PageTable
