import Ev6.Logging.Handlers

/-!
# The blocks that are lost with a broken buffer

`solve_inconsistency_buf` looks for every block of the log in the list of the buffers,
to evict the ones that only the broken buffer had. Both branches of the inner loop leave
it, so the search ends at the first buffer, and evicting a block moves the next one to
an index that the outer loop has passed. This module has the two loops with the bounds
of the arrays, and says exactly for which logs and lists the outcome is the blocks that
are still cached.
-/

namespace Ev6.Logging

open List (drop_of_length_le filter_cons_of_pos mem_append mem_cons_self)
open Transactions

/-- The blocks in the header, in order. -/
def logged (header : LogHeader) : List Nat := (List.range header.n).map header.block

/-! ## The loops -/

/-- Store in `block`. `none` is a store outside `block[0..LOGSIZE)`. -/
def storeBlock (header : LogHeader) (index value : Nat) : Option LogHeader :=
  if index < logsize then
    some { header with block := Function.update header.block index value }
  else none

/-- The loop over `j` that slides the other blocks. -/
def slideBlocks : Nat → Nat → LogHeader → Option LogHeader
  | 0, _, header => some header
  | rounds + 1, j, header =>
    (storeBlock header j (header.block (j + 1))).bind (slideBlocks rounds (j + 1))

/-- Evict the block at `nonum` from a header; `n` is `log->lh.n`. -/
def evict (n nonum : Nat) (header : LogHeader) : Option LogHeader :=
  (slideBlocks (n - nonum) nonum header).bind fun header =>
    (storeBlock header n 0).map fun header => { header with n := header.n - 1 }

/-- The loop over the buffers, whose block numbers are in `ring`: `nonum` after it, with
`none` for -1. Both branches break. -/
def searchRing (ring : List Nat) (block i : Nat) (nonum : Option Nat) : Option Nat :=
  match ring with
  | [] => nonum
  | blockno :: _ => if blockno = block then none else some i

/-- The loop over the blocks of the log, from index `i` on. The index grows in every
round and the header does not, so its length at the start bounds the rounds. -/
def evictBlocks (ring : List Nat) :
    Nat → Nat → Option Nat → LogHeader × LogHeader → Option (LogHeader × LogHeader)
  | 0, _, _, headers => some headers
  | rounds + 1, i, nonum, (lh, dup) =>
    if i < lh.n then
      match searchRing ring (lh.block i) i nonum with
      | none => evictBlocks ring rounds (i + 1) none (lh, dup)
      | some nonum =>
        (evict lh.n nonum lh).bind fun lh' =>
          (evict lh.n nonum dup).bind fun dup' =>
            evictBlocks ring rounds (i + 1) none (lh', dup')
    else some (lh, dup)

/-- Evict the blocks that are lost, starting with `nonum = 0`. -/
def evictHeaders (ring : List Nat) (state : LogState) : Option LogState :=
  (evictBlocks ring state.log.lh.n 0 (some 0) (state.log.lh, state.dup.lhdr)).map fun headers =>
    { state with
      log := { state.log with lh := headers.1 }
      dup := { state.dup with lhdr := headers.2 } }

/-- `solve_inconsistency_buf` on the log, with the bounds of the headers: `disk` is the
header on the disk and `ring` has the blocks of the buffers from `bcache.head.next` on. -/
def BufRing.solveInconsistencyBuf (fault : Fault) (disk : LogHeader) (ring : List Nat)
    (state : LogState) : Option LogState :=
  (redoCommit fault disk state).bind fun state =>
    (evictHeaders ring state).map fun state => rollBackLog fault.pid (lowerBoth state)

/-! ## What the loops compute -/

theorem length_logged (header : LogHeader) : (logged header).length = header.n := by
  simp [logged]

theorem getElem_logged {header : LogHeader} {i : Nat} (inside : i < (logged header).length) :
    (logged header)[i] = header.block i := by
  simp [logged]

theorem Same.logged_eq {header other : LogHeader} (same : Same header other) :
    logged header = logged other := by
  apply List.ext_getElem
  · rw [length_logged, length_logged, same.1]
  · intro i inside _
    rw [getElem_logged, getElem_logged]
    exact same.2 i (length_logged header ▸ inside)

/-- The slide is one move of all blocks, when its last store is inside the array. -/
theorem slideBlocks_eq (rounds j : Nat) (header : LogHeader) (inside : j + rounds ≤ logsize) :
    slideBlocks rounds j header = some { header with
      block := fun k => if j ≤ k ∧ k < j + rounds then header.block (k + 1) else header.block k } := by
  induction rounds generalizing j header with
  | zero =>
    have empty : ∀ k, ¬(j ≤ k ∧ k < j + 0) := by omega
    simp only [slideBlocks, empty, if_false]
  | succ rounds ih =>
    have here : j < logsize := by omega
    rw [slideBlocks, storeBlock, if_pos here, Option.bind_some, ih (j + 1) _ (by omega)]
    congr 2
    funext k
    by_cases first : k = j
    · subst first
      have before : ¬(k + 1 ≤ k ∧ k < k + 1 + rounds) := by omega
      have now : k ≤ k ∧ k < k + (rounds + 1) := by omega
      rw [if_neg before, if_pos now]
      exact Function.update_self k _ header.block
    · have next : k + 1 ≠ j ∨ ¬(j + 1 ≤ k) := by omega
      by_cases within : j + 1 ≤ k ∧ k < j + 1 + rounds
      · have now : j ≤ k ∧ k < j + (rounds + 1) := by omega
        have other : k + 1 ≠ j := by omega
        rw [if_pos within, if_pos now]
        exact Function.update_of_ne other _ header.block
      · have never : ¬(j ≤ k ∧ k < j + (rounds + 1)) := by omega
        rw [if_neg within, if_neg never]
        exact Function.update_of_ne first _ header.block

theorem evict_of_full {n : Nat} (full : logsize ≤ n) (nonum : Nat) (header : LogHeader) :
    evict n nonum header = none := by
  unfold evict
  cases slideBlocks (n - nonum) nonum header with
  | none => rfl
  | some slid =>
    have outside : ¬n < logsize := Nat.not_lt.mpr full
    rw [Option.bind_some, storeBlock, if_neg outside]
    rfl

theorem evict_of_lt {n nonum : Nat} (short : n < logsize) (inside : nonum ≤ n)
    (header : LogHeader) : evict n nonum header = some (evictBlock header nonum n) := by
  have bound : nonum + (n - nonum) = n := by omega
  rw [evict, slideBlocks_eq _ _ _ (by omega), Option.bind_some, storeBlock, if_pos short,
    Option.map_some, evictBlock, bound]
  congr 2
  funext k
  by_cases last : k = n
  · subst last
    have behind : ¬(nonum ≤ k ∧ k < k) := by omega
    rw [if_neg behind, if_pos rfl]
    exact Function.update_self k 0 _
  · rw [if_neg last]
    exact Function.update_of_ne last 0 _

theorem logged_evictBlock {header : LogHeader} {i : Nat} (inside : i < header.n) :
    logged (evictBlock header i header.n) = (logged header).eraseIdx i := by
  apply List.ext_getElem
  · rw [length_logged, List.length_eraseIdx_of_lt (by rw [length_logged]; exact inside),
      length_logged]
    rfl
  · intro k short _
    have bound : k < header.n - 1 := by
      rw [length_logged] at short
      exact short
    rw [getElem_logged, List.getElem_eraseIdx]
    by_cases before : k < i
    · have stays : ¬(i ≤ k ∧ k < header.n) := by omega
      have other : k ≠ header.n := by omega
      simp only [evictBlock, if_neg stays, if_neg other, dif_pos before, getElem_logged]
    · have moves : i ≤ k ∧ k < header.n := by omega
      simp only [evictBlock, if_pos moves, dif_neg before, getElem_logged]

theorem Same.evictBlock {lh dup : LogHeader} (same : Same dup lh) {i : Nat} (inside : i < lh.n) :
    Same (evictBlock dup i lh.n) (evictBlock lh i lh.n) := by
  refine ⟨congrArg (· - 1) same.1, fun k below => ?_⟩
  have bound : k < lh.n - 1 := by
    have less : k < dup.n - 1 := below
    rw [same.1] at less
    exact less
  by_cases before : k < i
  · have stays : ¬(i ≤ k ∧ k < lh.n) := by omega
    have other : k ≠ lh.n := by omega
    simp only [Logging.evictBlock, if_neg stays, if_neg other]
    exact same.2 k (by rw [same.1]; omega)
  · have moves : i ≤ k ∧ k < lh.n := by omega
    simp only [Logging.evictBlock, if_pos moves]
    exact same.2 (k + 1) (by rw [same.1]; omega)

/-! ## The blocks that stay -/

/-- What the loop leaves of the blocks, when the first buffer has block `first`. -/
def evicted (first : Nat) : List Nat → List Nat
  | [] => []
  | [block] => if block = first then [block] else []
  | block :: next :: rest =>
    if block = first then block :: evicted first (next :: rest) else next :: evicted first rest

theorem evicted_cons_self (first : Nat) (rest : List Nat) :
    evicted first (first :: rest) = first :: evicted first rest := by
  cases rest <;> simp [evicted]

/-- Behind an evicted block, one block is passed over. -/
theorem evicted_cons_of_ne {first block : Nat} (other : block ≠ first) (rest : List Nat) :
    evicted first (block :: rest) = rest.take 1 ++ evicted first (rest.drop 1) := by
  cases rest <;> simp [evicted, other]

/-- The block is in the list of the first buffer only, or the log is not full: no store
is outside the arrays. -/
def Fits (ring : List Nat) (header : LogHeader) : Prop :=
  header.n < logsize ∨ ∀ block ∈ logged header, ring.head? = some block

/-- Which blocks the loop over a list that is not empty leaves, from index `i` on. -/
theorem evictBlocks_cons {first : Nat} {buffers : List Nat} {rounds i : Nat}
    {nonum : Option Nat} {lh dup : LogHeader} (enough : lh.n ≤ i + rounds)
    (fits : lh.n < logsize ∨ ∀ block ∈ (logged lh).drop i, block = first) :
    ∃ lh' dup', evictBlocks (first :: buffers) rounds i nonum (lh, dup) = some (lh', dup') ∧
      (Same dup lh → Same dup' lh') ∧
      logged lh' = (logged lh).take i ++ evicted first ((logged lh).drop i) := by
  induction rounds generalizing i nonum lh dup with
  | zero =>
    have all : (logged lh).length ≤ i := by
      rw [length_logged]
      exact enough
    refine ⟨lh, dup, rfl, id, ?_⟩
    rw [List.take_of_length_le all, drop_of_length_le all, evicted, List.append_nil]
  | succ rounds ih =>
    by_cases inside : i < lh.n
    · have here : i < (logged lh).length := by
        rw [length_logged]
        exact inside
      rw [evictBlocks, if_pos inside]
      have split := List.drop_eq_getElem_cons here
      rw [getElem_logged] at split
      by_cases found : first = lh.block i
      · -- The first buffer has the block.
        have tail : lh.n < logsize ∨ ∀ block ∈ (logged lh).drop (i + 1), block = first := by
          refine fits.imp_right fun alike block mem => alike block ?_
          rw [split]
          exact List.mem_cons_of_mem _ mem
        obtain ⟨lh', dup', ran, same, left⟩ := @ih (i + 1) none lh dup (by omega) tail
        refine ⟨lh', dup', ?_, same, ?_⟩
        · rw [searchRing, if_pos found]
          exact ran
        · rw [left, split, ← found, evicted_cons_self, List.take_succ_eq_append_getElem here,
            getElem_logged, ← found, List.append_assoc, List.singleton_append]
      · -- The block is evicted, and the next one takes its index.
        have short : lh.n < logsize := by
          refine fits.resolve_right fun alike => found ?_
          refine (alike _ ?_).symm
          rw [split]
          exact mem_cons_self
        have erased := logged_evictBlock inside
        have fewer : (evictBlock lh i lh.n).n = lh.n - 1 := rfl
        obtain ⟨lh', dup', ran, same, left⟩ :=
          @ih (i + 1) none (evictBlock lh i lh.n) (evictBlock dup i lh.n) (by omega)
            (.inl (by omega))
        refine ⟨lh', dup', ?_, fun equal => same (equal.evictBlock inside), ?_⟩
        · rw [searchRing, if_neg found]
          show (evict lh.n i lh).bind _ = _
          rw [evict_of_lt short inside.le, Option.bind_some, evict_of_lt short inside.le,
            Option.bind_some]
          exact ran
        · rw [left, erased, split, evicted_cons_of_ne (Ne.symm found),
            List.eraseIdx_eq_take_drop_succ, List.take_append, List.drop_append]
          have front : ((logged lh).take i).length = i := List.length_take_of_le here.le
          have gone : ((logged lh).take i).drop (i + 1) = [] :=
            drop_of_length_le (by omega)
          rw [front, gone]
          simp [List.take_take]
    · have all : (logged lh).length ≤ i := by
        rw [length_logged]
        omega
      refine ⟨lh, dup, by rw [evictBlocks, if_neg inside], id, ?_⟩
      rw [List.take_of_length_le all, drop_of_length_le all, evicted, List.append_nil]

/-- In a full log, a block that the first buffer does not have leads outside the arrays. -/
theorem evictBlocks_overruns {first : Nat} {buffers : List Nat} {rounds i : Nat}
    {nonum : Option Nat} {lh dup : LogHeader} (enough : lh.n ≤ i + rounds)
    (full : logsize ≤ lh.n) (differs : ∃ block ∈ (logged lh).drop i, block ≠ first) :
    evictBlocks (first :: buffers) rounds i nonum (lh, dup) = none := by
  obtain ⟨block, mem, differs⟩ := differs
  induction rounds generalizing i nonum with
  | zero =>
    have all : (logged lh).length ≤ i := by
      rw [length_logged]
      exact enough
    rw [drop_of_length_le all] at mem
    cases mem
  | succ rounds ih =>
    have inside : i < lh.n := by
      by_contra beyond
      have all : (logged lh).length ≤ i := by
        rw [length_logged]
        omega
      rw [drop_of_length_le all] at mem
      cases mem
    have here : i < (logged lh).length := by
      rw [length_logged]
      exact inside
    rw [List.drop_eq_getElem_cons here, getElem_logged] at mem
    rw [evictBlocks, if_pos inside, searchRing]
    by_cases found : first = lh.block i
    · rw [if_pos found]
      rcases List.mem_cons.mp mem with rfl | mem
      · exact absurd found.symm differs
      · exact ih (by omega) mem
    · rw [if_neg found]
      show (evict lh.n i lh).bind _ = none
      rw [evict_of_full full, Option.bind_none]

section Blocks

variable {ring : List Nat} {first : Nat}

/-- The loop keeps too few blocks to make up for one that it has dropped wrongly. -/
theorem evicted_ne_append_filter (cached : first ∈ ring) (blocks : List Nat) {kept : List Nat}
    (some : kept ≠ []) (inRing : ∀ block ∈ kept, block ∈ ring) :
    evicted first blocks ≠ kept ++ blocks.filter (· ∈ ring) := by
  induction blocks using evicted.induct first generalizing kept with
  | case1 => exact fun same => some (List.append_eq_nil_iff.mp same.symm).1
  | case2 => 
    intro same
    rw [evicted, if_pos rfl, filter_cons_of_pos (by simpa using cached)] at same
    have lengths := congrArg List.length same
    have positive := List.length_pos_iff.mpr some
    simp only [List.length_append, List.length_cons, List.filter_nil, List.length_nil] at lengths
    omega
  | case3 block other =>
    intro same
    rw [evicted, if_neg other] at same
    exact some (List.append_eq_nil_iff.mp same.symm).1
  | case4 next rest ih =>
    intro same
    obtain ⟨head, tail, rfl⟩ := List.exists_cons_of_ne_nil some
    rw [evicted, if_pos rfl, filter_cons_of_pos (by simpa using cached), List.cons_append,
      List.cons.injEq, List.append_cons] at same
    refine ih (by simp) (fun block mem => ?_) same.2
    rcases mem_append.mp mem with mem | mem
    · exact inRing block (List.mem_cons_of_mem head mem)
    · rw [List.mem_singleton.mp mem]
      exact cached
  | case5 block next rest other ih =>
    intro same
    obtain ⟨head, tail, rfl⟩ := List.exists_cons_of_ne_nil some
    rw [evicted, if_neg other, List.cons_append, List.cons.injEq] at same
    obtain ⟨rfl, same⟩ := same
    -- The block that is passed over is cached, so it is kept a second time.
    have again : next ∈ ring := inRing next mem_cons_self
    have split : (block :: next :: rest).filter (· ∈ ring) =
        [block].filter (· ∈ ring) ++ next :: rest.filter (· ∈ ring) := by
      rw [← filter_cons_of_pos (by simpa using again), ← List.filter_append,
        List.singleton_append]
    rw [split, ← List.append_assoc, List.append_cons] at same
    refine ih (by simp) (fun block mem => ?_) same
    rcases mem_append.mp mem with mem | mem
    · rcases mem_append.mp mem with mem | mem
      · exact inRing block (List.mem_cons_of_mem next mem)
      · simpa using (List.mem_filter.mp mem).2
    · rw [List.mem_singleton.mp mem]
      exact again

/-- A log from which the loop evicts the right blocks, when the first buffer has block
`first`: no two blocks in a row are lost, and a cached block other than `first` comes
right behind a lost one. -/
def Spared (ring : List Nat) (first : Nat) (blocks : List Nat) : Prop :=
  (∀ block ∈ blocks.head?, block ∈ ring → block = first) ∧
    blocks.IsChain fun block next =>
      (block ∈ ring ∨ next ∈ ring) ∧ (next ∈ ring → next = first ∨ block ∉ ring)

/-- Behind a lost block and a cached one, the condition starts again. -/
theorem spared_cons_cons {block next : Nat} {rest : List Nat} (lost : block ∉ ring)
    (kept : next ∈ ring) :
    Spared ring first (block :: next :: rest) ↔ Spared ring first rest := by
  cases rest with
  | nil => simp [Spared, lost, kept]
  | cons third rest => simp [Spared, lost, kept]

theorem evicted_eq_filter_iff (cached : first ∈ ring) (blocks : List Nat) :
    evicted first blocks = blocks.filter (· ∈ ring) ↔ Spared ring first blocks := by
  induction blocks using evicted.induct first with
  | case1 => simp [evicted, Spared]
  | case2 => simp [evicted, Spared, cached]
  | case3 block other =>
    simp [evicted, Spared, other]
  | case4 next rest ih =>
    rw [evicted, if_pos rfl, filter_cons_of_pos (by simpa using cached),
      List.cons_inj_right, ih]
    simp [Spared, cached]
  | case5 block next rest other ih =>
    rw [evicted, if_neg other]
    constructor
    · intro same
      have lost : block ∉ ring := by
        intro wrong
        rw [filter_cons_of_pos (by simpa using wrong)] at same
        obtain ⟨alike, tails⟩ := List.cons.inj same
        rw [filter_cons_of_pos (by simpa [alike] using wrong),
          ← List.singleton_append] at tails
        exact evicted_ne_append_filter cached rest (List.cons_ne_nil next [])
          (by simpa [alike] using wrong) tails
      rw [List.filter_cons_of_neg (by simpa using lost)] at same
      have kept : next ∈ ring := by
        have mem : next ∈ (next :: rest).filter (· ∈ ring) := by
          rw [← same]
          exact mem_cons_self
        simpa using (List.mem_filter.mp mem).2
      rw [filter_cons_of_pos (by simpa using kept), List.cons_inj_right, ih] at same
      exact (spared_cons_cons lost kept).mpr same
    · intro spared
      have lost : block ∉ ring := fun wrong => other (spared.1 block rfl wrong)
      have kept : next ∈ ring :=
        ((List.isChain_cons_cons.mp spared.2).1.1).resolve_left lost
      rw [List.filter_cons_of_neg (by simpa using lost),
        filter_cons_of_pos (by simpa using kept), List.cons_inj_right, ih]
      exact (spared_cons_cons lost kept).mp spared

end Blocks

/-! ## The handler -/

/-- What the loops leave of the blocks. Without any buffer, the first block goes. -/
def remaining (ring blocks : List Nat) : List Nat :=
  match ring with
  | [] => blocks.eraseIdx 0
  | first :: _ => evicted first blocks

/-- A log from which the loops evict the right blocks. -/
def Recoverable (ring blocks : List Nat) : Prop :=
  match ring with
  | [] => blocks.length ≤ 1
  | first :: _ => Spared ring first blocks

theorem remaining_eq_filter_iff (ring blocks : List Nat) :
    remaining ring blocks = blocks.filter (· ∈ ring) ↔ Recoverable ring blocks := by
  cases ring with
  | nil =>
    simp only [remaining, Recoverable, List.not_mem_nil, decide_false, List.filter_false]
    rw [← List.length_eq_zero_iff]
    cases blocks <;> simp
  | cons first buffers => exact evicted_eq_filter_iff mem_cons_self blocks

/-- Without a buffer, nothing happens once `nonum` is -1. -/
theorem evictBlocks_nil (rounds i : Nat) (headers : LogHeader × LogHeader) :
    evictBlocks [] rounds i none headers = some headers := by
  induction rounds generalizing i with
  | zero => rfl
  | succ rounds ih =>
    obtain ⟨lh, dup⟩ := headers
    rw [evictBlocks]
    split
    · exact ih (i + 1)
    · rfl

section State

variable {ring : List Nat} {fault : Fault} {disk : LogHeader} {state begun : LogState}

theorem evictHeaders_of_fits (fits : Fits ring state.log.lh) :
    ∃ after, evictHeaders ring state = some after ∧
      (Same state.dup.lhdr state.log.lh → Same after.dup.lhdr after.log.lh) ∧
      logged after.log.lh = remaining ring (logged state.log.lh) ∧ after.trans = state.trans := by
  have loops : ∃ lh dup,
      evictBlocks ring state.log.lh.n 0 (some 0) (state.log.lh, state.dup.lhdr) = some (lh, dup) ∧
        (Same state.dup.lhdr state.log.lh → Same dup lh) ∧
        logged lh = remaining ring (logged state.log.lh) := by
    cases ring with
    | nil =>
      cases count : state.log.lh.n with
      | zero =>
        refine ⟨_, _, rfl, id, ?_⟩
        simp [logged, remaining, count]
      | succ n =>
        have inside : 0 < state.log.lh.n := by omega
        have short : state.log.lh.n < logsize := by
          refine fits.resolve_right fun never => ?_
          have first : state.log.lh.block 0 ∈ logged state.log.lh :=
            List.mem_map_of_mem (List.mem_range.mpr inside)
          cases never _ first
        refine ⟨_, _, ?_, fun same => same.evictBlock inside, logged_evictBlock inside⟩
        rw [evictBlocks, if_pos inside]
        show (evict state.log.lh.n 0 state.log.lh).bind _ = _
        rw [evict_of_lt short (Nat.zero_le _), Option.bind_some,
          evict_of_lt short (Nat.zero_le _), Option.bind_some, evictBlocks_nil]
    | cons first buffers =>
      have alike : state.log.lh.n < logsize ∨
          ∀ block ∈ (logged state.log.lh).drop 0, block = first := by
        refine fits.imp_right fun all block mem => ?_
        exact (Option.some.inj (all block mem)).symm
      obtain ⟨lh, dup, ran, same, left⟩ := @evictBlocks_cons first buffers state.log.lh.n 0
        (some 0) state.log.lh state.dup.lhdr (by omega) alike
      exact ⟨lh, dup, ran, same, left⟩
  obtain ⟨lh, dup, ran, same, left⟩ := loops
  exact ⟨_, congrArg (Option.map _) ran, same, left, rfl⟩

theorem evictHeaders_of_not_fits (overruns : ¬Fits ring state.log.lh) :
    evictHeaders ring state = none := by
  obtain ⟨full, differs⟩ := not_or.mp overruns
  have full : logsize ≤ state.log.lh.n := Nat.not_lt.mp full
  cases ring with
  | nil =>
    have inside : 0 < state.log.lh.n := Nat.lt_of_lt_of_le (by decide) full
    obtain ⟨n, count⟩ := Nat.exists_eq_succ_of_ne_zero (Nat.ne_of_gt inside)
    have loops : evictBlocks [] state.log.lh.n 0 (some 0) (state.log.lh, state.dup.lhdr) =
        none := by
      rw [count, evictBlocks, if_pos inside]
      show (evict state.log.lh.n 0 state.log.lh).bind _ = _
      rw [evict_of_full full, Option.bind_none]
    exact congrArg (Option.map _) loops
  | cons first buffers =>
    have other : ∃ block ∈ (logged state.log.lh).drop 0, block ≠ first := by
      by_contra never
      refine differs fun block mem => ?_
      by_contra wrong
      exact never ⟨block, mem, fun alike => wrong (congrArg some alike.symm)⟩
    exact congrArg (Option.map _) (@evictBlocks_overruns first buffers state.log.lh.n 0 (some 0)
      state.log.lh state.dup.lhdr (by omega) full other)

/-- Within the bounds, the loops are the ones over headers without bounds. -/
theorem evictBlocks_eq_evictLost {first : Nat} {buffers : List Nat} {rounds i : Nat}
    {nonum : Option Nat} {lh dup : LogHeader} (short : lh.n < logsize) :
    evictBlocks (first :: buffers) rounds i nonum (lh, dup) =
      some (evictLost first rounds i (lh, dup)) := by
  induction rounds generalizing i nonum lh dup with
  | zero => rfl
  | succ rounds ih =>
    rw [evictBlocks, evictLost]
    by_cases inside : i < lh.n
    · rw [if_pos inside, if_pos inside, searchRing]
      by_cases found : first = lh.block i
      · rw [if_pos found, if_pos found]
        exact ih short
      · rw [if_neg found, if_neg found]
        show (evict lh.n i lh).bind _ = _
        rw [evict_of_lt short inside.le, Option.bind_some, evict_of_lt short inside.le,
          Option.bind_some]
        exact ih (Nat.lt_of_le_of_lt (Nat.sub_le lh.n 1) short)
    · rw [if_neg inside, if_neg inside]

theorem bufRing_solveInconsistencyBuf {first : Nat} {buffers : List Nat}
    (redone : redoCommit fault disk state = some begun) (short : begun.log.lh.n < logsize) :
    BufRing.solveInconsistencyBuf fault disk (first :: buffers) state =
      solveInconsistencyBuf fault disk first state := by
  rw [BufRing.solveInconsistencyBuf, solveInconsistencyBuf, redone, Option.bind_some,
    Option.map_some, evictHeaders, evictBlocks_eq_evictLost short]
  rfl

theorem redoCommit_same (same : Same state.dup.lhdr state.log.lh)
    (redone : redoCommit fault disk state = some begun) : Same begun.dup.lhdr begun.log.lh := by
  have empty : ∀ {header other : LogHeader}, header.n = 0 → other.n = 0 → Same header other := by
    intro header other none none'
    exact ⟨none.trans none'.symm, fun i inside => by omega⟩
  unfold redoCommit at redone
  split at redone
  · split at redone
    · obtain ⟨after, recovered, rfl⟩ := Option.map_eq_some_iff.mp redone
      obtain ⟨entered, -, rest⟩ := Option.bind_eq_some_iff.mp recovered
      obtain ⟨left, -, rfl⟩ := Option.map_eq_some_iff.mp rest
      exact empty rfl rfl
    · cases redone
      unfold commitHeader
      split
      · exact empty rfl rfl
      · exact same
    · cases redone
      exact same
  · cases redone
    exact same

/-- The log and its duplicate have exactly the blocks that a buffer still has, in order. -/
def KeepsCached (ring : List Nat) (header : LogHeader) (after : Option LogState) : Prop :=
  ∃ state, after = some state ∧ logged state.log.lh = (logged header).filter (· ∈ ring) ∧
    logged state.dup.lhdr = (logged header).filter (· ∈ ring)

/-- The log keeps exactly the cached blocks when no store is outside the arrays and the
loops evict the right blocks. Inside a log transaction the snapshot replaces the outcome
of the loops. `begun` is the state in which the loops begin. -/
theorem keepsCached_iff_recoverable
    (agree : checkInsideTrans state.trans .log fault.pid ≤ 0 →
      Same state.dup.lhdr state.log.lh)
    (redone : redoCommit fault disk state = some begun) :
    KeepsCached ring begun.log.lh (BufRing.solveInconsistencyBuf fault disk ring state) ↔
      Fits ring begun.log.lh ∧
        if checkInsideTrans state.trans .log fault.pid > 0 then
          logged begun.trans.logLogheader = (logged begun.log.lh).filter (· ∈ ring)
        else Recoverable ring (logged begun.log.lh) := by
  obtain ⟨-, -, inside, -⟩ := redoCommit_kept redone
  rw [BufRing.solveInconsistencyBuf, redone, Option.bind_some]
  by_cases fits : Fits ring begun.log.lh
  · obtain ⟨after, evicts, same, left, trans⟩ := evictHeaders_of_fits fits
    have kept : (lowerBoth after).log.lh = after.log.lh ∧
        (lowerBoth after).dup.lhdr = after.dup.lhdr ∧ (lowerBoth after).trans = after.trans := by
      unfold lowerBoth
      split <;> exact ⟨rfl, rfl, rfl⟩
    rw [evicts, Option.map_some, and_iff_right fits, rollBackLog, checkAndHandleTransLog, kept.2.2,
      trans, inside]
    split
    · constructor
      · rintro ⟨final, ran, blocks, -⟩
        cases ran
        exact blocks
      · intro blocks
        exact ⟨_, rfl, blocks, blocks⟩
    · rename_i outside
      have equal := same (redoCommit_same (agree (Int.not_lt.mp outside)) redone)
      rw [← remaining_eq_filter_iff, ← left]
      constructor
      · rintro ⟨final, ran, blocks, -⟩
        cases ran
        exact (congrArg logged kept.1).symm.trans blocks
      · intro blocks
        refine ⟨_, rfl, (congrArg logged kept.1).trans blocks, ?_⟩
        exact ((congrArg logged kept.2.1).trans equal.logged_eq).trans blocks
  · rw [evictHeaders_of_not_fits fits, Option.map_none]
    constructor
    · rintro ⟨final, ⟨⟩, -⟩
    · rintro ⟨wrong, -⟩
      exact absurd wrong fits

end State

/-- Two blocks in the log, outside of a log transaction. -/
def twoLogged (block next : Nat) : LogState where
  log := ⟨30, 1, false, 2, fun i => if i = 0 then block else next⟩
  dup := ⟨⟨2, fun i => if i = 0 then block else next⟩, 1⟩
  trans :=
    { nextpid := 3
      array := fun index =>
        if index = 0 then ⟨1, 0, 0, 0⟩ else if index = 1 then ⟨2, 0, 0, 0⟩ else ⟨0, 0, 0, 0⟩
      logLogheader := ⟨0, fun _ => 0⟩
      logOutstanding := 1
      logRun := 0 }

/-- Block 33 was in the broken buffer, and 34 is in the first one. -/
theorem keepsCached_iff_recoverable_first : KeepsCached [34, 45] (twoLogged 33 34).log.lh
    (BufRing.solveInconsistencyBuf sampleFault ⟨0, fun _ => 0⟩ [34, 45] (twoLogged 33 34)) := by
  have fits : Fits [34, 45] (twoLogged 33 34).log.lh := .inl (by decide)
  have recoverable : Recoverable [34, 45] (logged (twoLogged 33 34).log.lh) := by
    simp [Recoverable, Spared, logged, twoLogged, List.range_succ]
  have outside : ¬checkInsideTrans (twoLogged 33 34).trans .log sampleFault.pid > 0 := by decide
  refine (keepsCached_iff_recoverable (fun _ => Same.refl _) rfl).mpr ⟨fits, ?_⟩
  rw [if_neg outside]
  exact recoverable

/-- Both blocks of the log are cached, the second one in the first buffer: the first one
is evicted. -/
theorem cached_block_evicted : ¬∀ fault disk ring state, ring ≠ [] →
    state.log.committing = false → state.log.lh.n ≤ logsize →
    checkInsideTrans state.trans .log fault.pid = 0 → Same state.dup.lhdr state.log.lh →
    KeepsCached ring state.log.lh (BufRing.solveInconsistencyBuf fault disk ring state) := by
  intro always
  obtain ⟨final, ran, blocks, -⟩ := always sampleFault ⟨0, fun _ => 0⟩ [34, 33] (twoLogged 33 34)
    (by simp) rfl (by decide) (by decide) (Same.refl _)
  have found : ((BufRing.solveInconsistencyBuf sampleFault ⟨0, fun _ => 0⟩ [34, 33]
      (twoLogged 33 34)).any fun after => decide (logged after.log.lh = [34])) = true := by
    decide +kernel
  rw [ran, Option.any_some] at found
  rw [of_decide_eq_true found] at blocks
  revert blocks
  decide

end Ev6.Logging
