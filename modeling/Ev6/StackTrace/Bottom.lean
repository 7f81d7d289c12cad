import Ev6.Kernel.CallStack
import Mathlib.Data.List.GetD
import Mathlib.Logic.Function.Basic
import Mathlib.Tactic.SplitIfs

/-!
# The call stack read from its bottom

`getcallerpcs_bottom` of `mlist.c`: the doublewords of a kernel stack are read from
the oldest one on, those that lie in section `.text` are collected in `tmp`, and
`tmp` is copied to `pcs` in the opposite order. A pointer to a doubleword is its index
here: the kernel stack is aligned, so every address the scan reads is eight times one.
-/

namespace Ev6.StackTrace

open List (filter_append getElem_map getElem_range length_cons length_map length_range
  length_reverse)

/-- `TEXT_TOP`: the start of section `.text`. -/
def textTop : Nat := 0x80000000

/-- `TEXT_END`: the end of section `.text`. -/
def textEnd : Nat := 0x8000a10e

/-- The test of the scan: a value lies inside section `.text`. -/
def isText (value : Nat) : Bool := decide (textTop < value ∧ value < textEnd)

/-- What stops `getcallerpcs_bottom` before it returns. -/
inductive Fault where
  /-- "getcallerpcs_bottom: Invalid sp was passed". -/
  | invalidSp
  /-- An assignment to an element behind the last one of `tmp`. -/
  | outsideTmp
deriving DecidableEq

/-- `p->kstack`: the lowest address of the page of a kernel stack. -/
structure Kstack where
  bottom : Nat
  aligned : bottom % 4096 = 0

/-- The doubleword that the scan reads first, at `bottom + 0xff8`. -/
def Kstack.oldest (kstack : Kstack) : Nat := (kstack.bottom + 0xff8) / 8

/-- `tmp[i] = value`. -/
def store (tmp : Nat → Nat) (i value : Nat) : Except Fault (Nat → Nat) :=
  if i < depth then .ok (Function.update tmp i value) else .error .outsideTmp

/-- The scan from one doubleword on towards `endline`: `memory` is the content of each
address, and `i` counts the values collected. -/
def scanFrom (memory : Nat → Nat) (endline size : Nat) :
    Nat → Nat → (Nat → Nat) → Except Fault (Nat × (Nat → Nat))
  | 0, i, tmp => .ok (i, tmp)
  | word + 1, i, tmp =>
    if endline < 8 * (word + 1) then
      let value := memory (8 * (word + 1))
      if isText value then
        (store tmp i value).bind fun tmp =>
          if i + 1 > size then .ok (i + 1, tmp)
          else scanFrom memory endline size word (i + 1) tmp
      else if i > size then .ok (i, tmp)
      else scanFrom memory endline size word i tmp
    else .ok (i, tmp)

/-- `for(; i < size; i++) tmp[i] = 0`. -/
def fillZero (size i : Nat) (tmp : Nat → Nat) : Nat → Nat :=
  fun j => if i ≤ j ∧ j < size then 0 else tmp j

/-- The copy from `tmp` to `pcs`. -/
def reorder (size : Nat) (tmp : Nat → Nat) : List Nat :=
  (List.range size).map fun i => tmp (depth - 1 - i)

/-- `getcallerpcs_bottom`. The local array `tmp` holds anything at first; the result is
the content of `pcs[0..size)`. -/
def getcallerpcsBottom (memory : Nat → Nat) (tmp : Nat → Nat) (endline : Nat) (kstack : Kstack)
    (size : Nat) : Except Fault (List Nat) :=
  if endline = 0 then .error .invalidSp
  else
    (scanFrom memory endline size kstack.oldest 0 tmp).map fun (i, tmp) =>
      reorder size (fillZero size i tmp)

/-! ## The addresses on the stack -/

/-- The text addresses between `endline` and the bottom of the stack. The stack grows
down, so the newest one comes first. -/
def textAddresses (memory : Nat → Nat) (endline : Nat) (kstack : Kstack) : List Nat :=
  (((List.range (kstack.oldest + 1)).filter fun word => endline < 8 * word).map
    fun word => memory (8 * word)).filter isText

/-- The entries of `pcs` that are not filled up. -/
def entries (pcs : List Nat) : List Nat := pcs.filter (· ≠ 0)

/-- What the caller relies on: `pcs` has `size` entries, and they are the newest
text addresses of the stack, the newest one first. -/
def KeepsNewest (memory : Nat → Nat) (endline : Nat) (kstack : Kstack) (size : Nat)
    (result : Except Fault (List Nat)) : Prop :=
  ∃ pcs, result = .ok pcs ∧ pcs.length = size ∧
    entries pcs = (textAddresses memory endline kstack).take size

/-- The text addresses from one doubleword on towards `endline`, the oldest one first. -/
def olderFirst (memory : Nat → Nat) (endline : Nat) : Nat → List Nat
  | 0 => []
  | word + 1 =>
    if endline < 8 * (word + 1) then
      if isText (memory (8 * (word + 1))) then
        memory (8 * (word + 1)) :: olderFirst memory endline word
      else olderFirst memory endline word
    else []

variable {endline : Nat} {memory : Nat → Nat}

theorem olderFirst_eq_nil {word : Nat}
    (above : 8 * word ≤ endline) : olderFirst memory endline word = [] := by
  cases word with
  | zero => rfl
  | succ word => rw [olderFirst, if_neg (by omega)]

/-- The scan meets the text addresses in the opposite order. -/
theorem filter_range_eq_reverse_olderFirst (memory : Nat → Nat) (endline word : Nat) :
    (((List.range (word + 1)).filter fun word => endline < 8 * word).map
      fun word => memory (8 * word)).filter isText =
      (olderFirst memory endline word).reverse := by
  induction word with
  | zero => simp [olderFirst]
  | succ word ih =>
    rw [List.range_succ, filter_append, List.map_append, filter_append, ih]
    by_cases inside : endline < 8 * (word + 1)
    · by_cases text : isText (memory (8 * (word + 1))) = true <;>
        simp [olderFirst, inside, text]
    · have above : 8 * word ≤ endline := by omega
      rw [olderFirst_eq_nil above, olderFirst_eq_nil (by omega)]
      simp [inside]

theorem textAddresses_eq (memory : Nat → Nat) (endline : Nat) (kstack : Kstack) :
    textAddresses memory endline kstack = (olderFirst memory endline kstack.oldest).reverse :=
  filter_range_eq_reverse_olderFirst memory endline kstack.oldest

theorem ne_zero_of_isText {value : Nat} (text : isText value = true) : value ≠ 0 := by
  have range : textTop < value ∧ value < textEnd := of_decide_eq_true text
  omega

variable {values : List Nat}

/-- Nothing is dropped from a list of text addresses. -/
theorem entries_eq_self (text : ∀ value ∈ values, isText value = true) :
    entries values = values := by
  refine List.filter_eq_self.mpr fun value mem => ?_
  simpa using ne_zero_of_isText (text value mem)

/-! ## The scan -/

/-- Assign some values to `tmp` from index `i` on. -/
def storeAll : List Nat → Nat → (Nat → Nat) → Except Fault (Nat → Nat)
  | [], _, tmp => .ok tmp
  | value :: rest, i, tmp => (store tmp i value).bind fun tmp => storeAll rest (i + 1) tmp

/-- `tmp` with some values from index `i` on. -/
def written (tmp : Nat → Nat) (i : Nat) (values : List Nat) : Nat → Nat :=
  fun j => if i ≤ j ∧ j < i + values.length then values.getD (j - i) 0 else tmp j

theorem written_update (tmp : Nat → Nat) (i value : Nat) (rest : List Nat) :
    written (Function.update tmp i value) (i + 1) rest = written tmp i (value :: rest) := by
  funext j
  rcases Nat.lt_trichotomy j i with below | rfl | behind
  · have other : j ≠ i := by omega
    simp [written, other, Nat.not_le.mpr below, show ¬ i + 1 ≤ j by omega]
  · have past : ¬ j + 1 ≤ j := by omega
    simp [written, past]
  · have other : j ≠ i := by omega
    obtain ⟨offset, rfl⟩ : ∃ offset, j = i + 1 + offset := ⟨j - (i + 1), by omega⟩
    have shifted : i + 1 + offset - i = offset + 1 := by omega
    simp only [written, length_cons, shifted, List.getD_cons_succ,
      Nat.add_sub_cancel_left, Function.update_of_ne other]
    by_cases inside : offset < rest.length
    · rw [if_pos (by omega), if_pos (by omega)]
    · rw [if_neg (by omega), if_neg (by omega)]

/-- The assignments stay inside `tmp` exactly when the values fit. -/
theorem storeAll_eq {i : Nat} (tmp : Nat → Nat) (inside : i ≤ depth) : storeAll values i tmp =
      if i + values.length ≤ depth then .ok (written tmp i values) else .error .outsideTmp := by
  induction values generalizing i tmp with
  | nil =>
    have nothing : written tmp i [] = tmp := by
      funext j
      simp only [written, List.length_nil]
      exact if_neg (by omega)
    simp [storeAll, inside, nothing]
  | cons value rest ih =>
    by_cases room : i < depth
    · simp only [storeAll, store, if_pos room, Except.bind]
      rw [ih _ room, written_update, length_cons]
      congr 1
      apply propext
      omega
    · have full : ¬ i + (value :: rest).length ≤ depth := by
        simp only [length_cons]
        omega
      simp only [storeAll, store, if_neg room, if_neg full, Except.bind]

variable {size : Nat}

/-- The scan assigns the oldest text addresses, one more than `size` at most. -/
theorem scanFrom_eq {word i : Nat} (tmp : Nat → Nat) (counted : i ≤ size) :
    scanFrom memory endline size word i tmp =
      (storeAll ((olderFirst memory endline word).take (size + 1 - i)) i tmp).map fun tmp =>
        (i + ((olderFirst memory endline word).take (size + 1 - i)).length, tmp) := by
  induction word generalizing i tmp with
  | zero => simp [scanFrom, olderFirst, storeAll, Except.map]
  | succ word ih =>
    have more : size + 1 - i = size - i + 1 := by omega
    unfold scanFrom olderFirst
    by_cases inside : endline < 8 * (word + 1)
    · simp only [if_pos inside]
      by_cases text : isText (memory (8 * (word + 1))) = true
      · simp only [if_pos text, more, List.take_succ_cons, storeAll]
        cases stored : store tmp i (memory (8 * (word + 1))) with
        | error fault => rfl
        | ok tmp =>
          simp only [Except.bind]
          by_cases last : i + 1 > size
          · have rest : size - i = 0 := by omega
            rw [if_pos last, rest]
            rfl
          · have left : size + 1 - (i + 1) = size - i := by omega
            rw [if_neg last, ih tmp (by omega), left]
            simp only [length_cons]
            congr 1
            funext tmp
            rw [Nat.add_right_comm, Nat.add_assoc]
      · simp only [if_neg text, if_neg (show ¬ i > size by omega)]
        exact ih tmp counted
    · simp [if_neg inside, storeAll, Except.map]

/-! ## The copy to `pcs` -/

theorem length_reorder (size : Nat) (tmp : Nat → Nat) : (reorder size tmp).length = size := by
  simp [reorder]

theorem depth_eq : depth = 30 := rfl

/-- `pcs` is the end of `tmp` in the opposite order. -/
theorem reorder_eq (bounded : size ≤ depth) (tmp : Nat → Nat) :
    reorder size tmp = ((List.range size).map fun i => tmp (depth - size + i)).reverse := by
  apply List.ext_getElem
  · simp [reorder]
  · intro i inside _
    rw [length_reorder] at inside
    simp only [reorder, getElem_map, getElem_range, List.getElem_reverse,
      length_map, length_range]
    congr 1
    omega

/-- The content of `tmp` behind the scan and the filling up. -/
theorem fillZero_written (tmp : Nat → Nat) (size : Nat) (values : List Nat) (j : Nat) :
    fillZero size values.length (written tmp 0 values) j =
      if j < values.length then values.getD j 0 else if j < size then 0 else tmp j := by
  unfold fillZero written
  by_cases stored : j < values.length
  · simp [stored, Nat.not_le.mpr stored]
  · by_cases filled : j < size <;> simp [stored, filled, Nat.le_of_not_lt stored]

/-- With as many entries as `tmp` has, the zeros come first and the newest text address
behind them. -/
theorem reorder_full (tmp : Nat → Nat) (fits : values.length ≤ depth) :
    reorder depth (fillZero depth values.length (written tmp 0 values)) =
      List.replicate (depth - values.length) 0 ++ values.reverse := by
  rw [reorder_eq (Nat.le_refl depth), ← List.reverse_replicate, ← List.reverse_append]
  congr 1
  apply List.ext_getElem
  · simp only [length_map, length_range, List.length_append, List.length_replicate]
    omega
  · intro i inside _
    have inside : i < depth := by simpa using inside
    simp only [getElem_map, getElem_range, Nat.sub_self, Nat.zero_add, fillZero_written,
      List.getElem_append, List.getElem_replicate, if_pos inside]
    split_ifs with stored
    · exact List.getD_eq_getElem _ _ stored
    · rfl

/-- With one entry less than `tmp` has, and `tmp` full, the oldest of its values is left
out. -/
theorem reorder_short (tmp : Nat → Nat) (short : size + 1 = depth) (full : values.length = depth) :
    reorder size (fillZero size values.length (written tmp 0 values)) =
      values.reverse.take size := by
  rw [reorder_eq (by omega), List.take_reverse]
  congr 1
  apply List.ext_getElem
  · simp only [length_map, length_range, List.length_drop]
    omega
  · intro i inside _
    have inside : i < size := by simpa using inside
    simp only [getElem_map, getElem_range, fillZero_written, List.getElem_drop]
    rw [if_pos (by omega), List.getD_eq_getElem _ _ (by omega)]
    congr 1
    omega

/-- The first entry of `pcs` is the last one of `tmp`. -/
theorem reorder_head (some : 0 < size) (tmp : Nat → Nat) :
    (reorder size tmp).head? = .some (tmp (depth - 1)) := by
  obtain ⟨rest, rfl⟩ : ∃ rest, size = rest + 1 := ⟨size - 1, by omega⟩
  simp [reorder, List.range_succ_eq_map]

/-! ## What the caller gets -/

/-- The result of `getcallerpcs_bottom` for a stack pointer that is not zero. -/
theorem getcallerpcsBottom_eq {tmp : Nat → Nat} {kstack : Kstack}
    (valid : endline ≠ 0) {scanned : List Nat}
    (taken : (olderFirst memory endline kstack.oldest).take (size + 1) = scanned) :
    getcallerpcsBottom memory tmp endline kstack size = if scanned.length ≤ depth then
        .ok (reorder size (fillZero size scanned.length (written tmp 0 scanned)))
      else .error .outsideTmp := by
  simp only [getcallerpcsBottom, if_neg valid, scanFrom_eq tmp (Nat.zero_le size), Nat.sub_zero,
    taken, storeAll_eq tmp (Nat.zero_le depth), Nat.zero_add]
  split_ifs <;> rfl

/-- The condition on the stack under which `pcs` gets the newest text addresses,
whatever `tmp` holds at first. -/
def Fits (memory : Nat → Nat) (endline : Nat) (kstack : Kstack) (size : Nat) : Prop :=
  endline ≠ 0 ∧
    (size = 0 ∨
      size = depth ∧ (textAddresses memory endline kstack).length ≤ depth ∨
      size + 1 = depth ∧ depth ≤ (textAddresses memory endline kstack).length ∧
        ((textAddresses memory endline kstack).drop
            ((textAddresses memory endline kstack).length - depth)).take size =
          (textAddresses memory endline kstack).take size)

section

variable {memory : Nat → Nat} {endline size : Nat} {kstack : Kstack}

theorem isText_of_mem_textAddresses {value : Nat}
    (mem : value ∈ textAddresses memory endline kstack) : isText value = true :=
  (List.mem_filter.mp mem).2

/-- The addresses scanned are the oldest ones, `size + 1` at most. -/
theorem length_scanned (memory : Nat → Nat) (endline size : Nat) (kstack : Kstack) :
    ((olderFirst memory endline kstack.oldest).take (size + 1)).length =
      min (size + 1) (textAddresses memory endline kstack).length := by
  rw [List.length_take, textAddresses_eq, length_reverse]

/-- An entry of `pcs` that the scan has not assigned may be anything. -/
theorem not_keepsNewest_of_sparse (some : 0 < size) (short : size < depth)
    (sparse : ((olderFirst memory endline kstack.oldest).take (size + 1)).length < depth) :
    ¬ KeepsNewest memory endline kstack size
      (getcallerpcsBottom memory (fun _ => 1) endline kstack size) := by
  rintro ⟨pcs, result, -, newest⟩
  by_cases valid : endline = 0
  · simp [getcallerpcsBottom, valid] at result
  · rw [getcallerpcsBottom_eq valid rfl, if_pos (Nat.le_of_lt sparse)] at result
    obtain rfl := Except.ok.inj result
    have head := reorder_head some (fillZero size
      ((olderFirst memory endline kstack.oldest).take (size + 1)).length
      (written (fun _ => 1) 0 ((olderFirst memory endline kstack.oldest).take (size + 1))))
    rw [fillZero_written, if_neg (by omega), if_neg (by omega)] at head
    obtain ⟨rest, split⟩ := List.head?_eq_some_iff.mp head
    rw [split] at newest
    have mem : 1 ∈ (textAddresses memory endline kstack).take size := by
      rw [← newest]
      simp [entries]
    have text := isText_of_mem_textAddresses (List.mem_of_mem_take mem)
    revert text
    decide

/-- `getcallerpcs_bottom` with `pcs` as long as `tmp`. -/
theorem keepsNewest_full_iff (valid : endline ≠ 0) (tmp : Nat → Nat) :
    KeepsNewest memory endline kstack depth
        (getcallerpcsBottom memory tmp endline kstack depth) ↔
      (textAddresses memory endline kstack).length ≤ depth := by
  have length := length_scanned memory endline depth kstack
  rw [getcallerpcsBottom_eq valid rfl]
  constructor
  · rintro ⟨pcs, result, -, -⟩
    by_contra many
    rw [if_neg (by omega)] at result
    cases result
  · intro few
    rw [if_pos (by omega)]
    refine ⟨_, rfl, length_reorder _ _, ?_⟩
    have all : (olderFirst memory endline kstack.oldest).take (depth + 1) =
        olderFirst memory endline kstack.oldest := by
      apply List.take_of_length_le
      rw [textAddresses_eq, length_reverse] at few
      omega
    rw [all, reorder_full tmp (by rw [← all]; omega), ← textAddresses_eq,
      List.take_of_length_le few]
    have zeros : entries (List.replicate (depth - (olderFirst memory endline
        kstack.oldest).length) 0) = [] := by
      simp [entries]
    have texts : entries (textAddresses memory endline kstack) =
        textAddresses memory endline kstack :=
      entries_eq_self fun _ mem => isText_of_mem_textAddresses mem
    unfold entries at zeros texts ⊢
    rw [filter_append, zeros, texts, List.nil_append]

/-- `getcallerpcs_bottom` with one entry less, on a stack that fills `tmp`. -/
theorem keepsNewest_short_iff (valid : endline ≠ 0) (short : size + 1 = depth)
    (many : depth ≤ (textAddresses memory endline kstack).length) (tmp : Nat → Nat) :
    KeepsNewest memory endline kstack size
        (getcallerpcsBottom memory tmp endline kstack size) ↔
      ((textAddresses memory endline kstack).drop
          ((textAddresses memory endline kstack).length - depth)).take size =
        (textAddresses memory endline kstack).take size := by
  have length := length_scanned memory endline size kstack
  have full : ((olderFirst memory endline kstack.oldest).take (size + 1)).length = depth := by
    omega
  have scanned : ((olderFirst memory endline kstack.oldest).take (size + 1)).reverse =
      (textAddresses memory endline kstack).drop
        ((textAddresses memory endline kstack).length - depth) := by
    rw [List.reverse_take, short, textAddresses_eq, length_reverse]
  rw [getcallerpcsBottom_eq valid rfl, if_pos (Nat.le_of_eq full), reorder_short tmp short full,
    scanned]
  have texts : entries (((textAddresses memory endline kstack).drop
      ((textAddresses memory endline kstack).length - depth)).take size) =
      ((textAddresses memory endline kstack).drop
        ((textAddresses memory endline kstack).length - depth)).take size :=
    entries_eq_self fun _ mem =>
      isText_of_mem_textAddresses (List.mem_of_mem_drop (List.mem_of_mem_take mem))
  constructor
  · rintro ⟨pcs, result, -, newest⟩
    obtain rfl := Except.ok.inj result
    rw [← newest, texts]
  · intro same
    refine ⟨_, rfl, ?_, ?_⟩
    · rw [List.length_take, List.length_drop]
      omega
    · rw [texts, same]

/-- `getcallerpcs_bottom` returns the newest text addresses on the stack, whatever its
local array holds at first, exactly when they fit. -/
theorem keepsNewest_iff_fits (memory : Nat → Nat) (endline : Nat) (kstack : Kstack)
    {size : Nat} (bounded : size ≤ depth) : (∀ tmp, KeepsNewest memory endline kstack size
      (getcallerpcsBottom memory tmp endline kstack size)) ↔
        Fits memory endline kstack size := by
  by_cases valid : endline = 0
  · constructor
    · intro keeps
      obtain ⟨pcs, result, -, -⟩ := keeps fun _ => 0
      simp [getcallerpcsBottom, valid] at result
    · rintro ⟨nonzero, -⟩
      exact absurd valid nonzero
  · have length := length_scanned memory endline size kstack
    unfold Fits
    rcases Nat.lt_or_ge size depth with short | full
    · rcases Nat.eq_zero_or_pos size with rfl | some
      · -- nothing is asked for: the scan stops at the first text address
        have room : ((olderFirst memory endline kstack.oldest).take (0 + 1)).length ≤ depth := by
          rw [length, depth_eq]
          omega
        refine ⟨fun _ => ⟨valid, .inl rfl⟩, fun _ tmp => ?_⟩
        rw [getcallerpcsBottom_eq valid rfl, if_pos room]
        exact ⟨_, rfl, length_reorder _ _, by simp [reorder, entries]⟩
      · by_cases sparse : ((olderFirst memory endline kstack.oldest).take (size + 1)).length < depth
        · constructor
          · intro keeps
            exact absurd (keeps fun _ => 1) (not_keepsNewest_of_sparse some short sparse)
          · rintro ⟨-, rfl | ⟨rfl, -⟩ | ⟨last, many, -⟩⟩ <;> omega
        · have last : size + 1 = depth := by omega
          have many : depth ≤ (textAddresses memory endline kstack).length := by omega
          constructor
          · intro keeps
            exact ⟨valid, .inr (.inr
              ⟨last, many, (keepsNewest_short_iff valid last many fun _ => 0).mp (keeps _)⟩)⟩
          · rintro ⟨-, rfl | ⟨rfl, -⟩ | ⟨-, -, same⟩⟩ tmp
            · omega
            · omega
            · exact (keepsNewest_short_iff valid last many tmp).mpr same
    · obtain rfl : size = depth := Nat.le_antisymm bounded full
      constructor
      · intro keeps
        exact ⟨valid, .inr (.inl ⟨rfl, (keepsNewest_full_iff valid fun _ => 0).mp (keeps _)⟩)⟩
      · rintro ⟨-, none | ⟨-, few⟩ | ⟨last, -⟩⟩ tmp
        · cases none
        · exact (keepsNewest_full_iff valid tmp).mpr few
        · omega

end

/-- The kernel stack of the first process. -/
def firstKstack : Kstack := ⟨0x3fffffd000, by decide⟩

/-- Every doubleword of the stack is a text address. -/
def crowdedStack (address : Nat) : Nat := textTop + 8 + address % 4096

theorem keepsNewest_iff_fits_shallow :
    depth ≤ depth ∧
      ∀ tmp, KeepsNewest crowdedStack 0x3fffffdf88 firstKstack depth
        (getcallerpcsBottom crowdedStack tmp 0x3fffffdf88 firstKstack depth) := by
  have few : (textAddresses crowdedStack 0x3fffffdf88 firstKstack).length ≤ depth := by
    rw [textAddresses_eq, length_reverse]
    decide +kernel
  exact ⟨Nat.le_refl depth, (keepsNewest_iff_fits crowdedStack 0x3fffffdf88 firstKstack
    (Nat.le_refl depth)).mpr ⟨by decide, .inr (.inl ⟨rfl, few⟩)⟩⟩

/-- On a stack with one text address more than `tmp` has elements, the scan assigns the
element behind the last one. -/
theorem deep_stack_overruns :
    ¬ ∀ memory endline kstack size, size ≤ depth → ∀ tmp,
      KeepsNewest memory endline kstack size
        (getcallerpcsBottom memory tmp endline kstack size) := by
  intro claimed
  have few := (keepsNewest_full_iff (by decide) fun _ => 0).mp
    (claimed crowdedStack 0x3fffffdf00 firstKstack depth (Nat.le_refl depth) fun _ => 0)
  rw [textAddresses_eq, length_reverse] at few
  revert few
  decide +kernel

end Ev6.StackTrace
