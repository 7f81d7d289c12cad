import Ev6.PageTable.TreeWalk
import Ev6.Support.RangeMap

/-!
# Leaves of the tree

`mappages` and `uvmunmap` change what one range of pages is mapped to. Each round of their
loops changes one page, and the tables that are entered on the way map nothing.
-/

namespace Ev6.PageTable

open Nat (mod_eq_of_lt succ_lt_succ succ_mul zero_mul)
open Support

/-! ## Pages and paths -/

section Paths

variable {a b : Nat}

theorem px_eq (level va : Nat) : px level va = va / 2 ^ (12 + 9 * level) % 512 := by
  rw [px, Nat.shiftRight_eq_div_pow]
  exact Nat.and_two_pow_sub_one_eq_mod _ 9

/-- Two addresses lie in one page exactly when their paths are the same. -/
theorem path_eq_iff (lowA : a < maxva) (lowB : b < maxva) :
    (px 0 a = px 0 b ∧ [px 1 a, px 2 a] = [px 1 b, px 2 b]) ↔ a / pgsize = b / pgsize := by
  have boundA : a < 2 ^ 38 := lowA
  have boundB : b < 2 ^ 38 := lowB
  simp only [px_eq, List.cons.injEq, and_true, pgsize_eq]
  omega

theorem path_page (va : Nat) :
    px 0 (va / pgsize * pgsize) = px 0 va ∧ px 1 (va / pgsize * pgsize) = px 1 va ∧
      px 2 (va / pgsize * pgsize) = px 2 va := by
  simp only [px_eq, pgsize_eq]
  omega

end Paths

/-- What the pages of a table are mapped to, by number. -/
def World.space (world : World) (pagetable : Nat) (page : Nat) : Option Nat :=
  world.translation pagetable (page * pgsize)

/-- The entry that `mappages` stores. -/
def leaf (pa perm : Nat) : Nat := pa2pte pa ||| perm ||| pteV

theorem isValid_leaf (pa perm : Nat) : isValid (leaf pa perm) = true := by
  have odd : leaf pa perm &&& 1 = 1 := by
    rw [leaf, pteV, Nat.and_or_distrib_right, Nat.and_self, Nat.and_one_is_mod]
    have low := Nat.mod_two_eq_zero_or_one (pa2pte pa ||| perm)
    rcases low with zero | one
    · rw [zero]
      rfl
    · rw [one]
      rfl
  rw [isValid, pteV, odd]
  rfl

section Space

variable {world after : World} {root : Page} {tree : NodeTree Page}

theorem Rooted.translation_page (rooted : Rooted world root tree) (va : Nat) :
    world.translation root va = world.space root (va / pgsize) := by
  obtain ⟨zero, one, two⟩ := path_page va
  have whole : va / pgsize * pgsize ≤ va := Nat.div_mul_le_self va pgsize
  by_cases low : va < maxva
  · rw [World.space, rooted.translation_eq low,
      rooted.translation_eq (Nat.lt_of_le_of_lt whole low), zero, one, two]
  · have high : maxva ≤ va / pgsize * pgsize := by
      have numbers : maxva = 2 ^ 38 := rfl
      rw [pgsize_eq]
      omega
    rw [World.space, translation_high _ _ _ (Nat.not_lt.mp low), translation_high _ _ _ high]

theorem Rooted.space_eq (rooted : Rooted world root tree) {n : Nat} (low : n * pgsize < maxva) :
    world.space root n = (tree [px 1 (n * pgsize), px 2 (n * pgsize)]).bind fun l0 =>
      (some (world.words l0 (px 0 (n * pgsize)))).filter isValid :=
  rooted.translation_eq low

theorem Grows.space {grown : NodeTree Page} (grows : Grows world after root tree grown)
    (rooted : Rooted world root tree) : after.space root = world.space root :=
  funext fun n => grows.translation rooted (n * pgsize)

theorem Keeps.space (keeps : Keeps world after root tree) (rooted : Rooted world root tree) :
    after.space root = world.space root :=
  ((Grows.refl rooted).keeps keeps).space rooted

theorem Rooted.store_leaf (rooted : Rooted world root tree) {va : Nat} {l0 : Page}
    (there : tree [px 1 va, px 2 va] = some l0) (value : Nat) :
    Rooted (world.write l0 (px 0 va) value) root tree ∧
      ∀ before idx, Covered world root before idx →
        Covered (world.write l0 (px 0 va) value) root before idx := by
  have same (address : Nat) (different : address ≠ l0) :
      (world.write l0 (px 0 va) value).tables.memory address = world.tables.memory address :=
    PageMemory.write_of_page_ne _ _ _ different
  have copies (address : Nat) (member : address ∈ world.duplicatePages root) :
      (world.write l0 (px 0 va) value).tables.memory address = world.tables.memory address :=
    same address (rooted.beside.apart address member _ l0 there).symm
  refine ⟨⟨rooted.top, rooted.holds.frame ?_, rooted.once, rooted.free, ?_⟩, ?_⟩
  · intro path node found inner
    refine same node fun equal => ?_
    obtain rfl := rooted.holds.apart found (Subtype.ext equal ▸ there)
    exact absurd inner (Nat.lt_irrefl 2)
  · exact rooted.beside.transfer (steady_write _ _ _ _) copies rooted.beside.apart
      rooted.beside.taken
  · intro before idx covered
    have heads {address : Nat} := @mem_duplicatePages world root idx covered.index address
    refine ⟨covered.index, fun i low => ?_, fun i isSome equal => ?_⟩
    · rw [← covered.copied i low]
      exact congrFun (copies _ (heads.mpr (.inl rfl))) i
    · have word := congrFun (copies _ (heads.mpr (.inr (.inl rfl)))) i
      exact covered.listed i isSome (word.symm.trans equal)

theorem Rooted.space_store (rooted : Rooted world root tree) {n : Nat} (low : n * pgsize < maxva)
    {l0 : Page} (there : tree [px 1 (n * pgsize), px 2 (n * pgsize)] = some l0) (value : Nat) :
    (world.write l0 (px 0 (n * pgsize)) value).space root =
      Function.update (world.space root) n ((some value).filter isValid) := by
  have stored := (rooted.store_leaf there value).1
  have positive : 0 < pgsize := by decide
  funext m
  by_cases high : m * pgsize < maxva
  · by_cases here : m = n
    · subst here
      rw [stored.space_eq low, there, Function.update_self, Option.bind_some]
      simp [World.words, World.write]
    · rw [Function.update_of_ne here, stored.space_eq high, rooted.space_eq high]
      cases found : tree [px 1 (m * pgsize), px 2 (m * pgsize)] with
      | none => rfl
      | some other =>
        have apart : ¬(other.val = l0 ∧ px 0 (m * pgsize) = px 0 (n * pgsize)) := by
          rintro ⟨equal, slot⟩
          have path := rooted.holds.apart found (Subtype.ext equal ▸ there)
          have pages := (path_eq_iff high low).mp ⟨slot, path⟩
          rw [Nat.mul_div_cancel m positive, Nat.mul_div_cancel n positive] at pages
          exact here pages
        simp only [Option.bind_some, World.words, World.write, PageMemory.write_apply]
        rw [if_neg apart]
  · have different : m ≠ n := by
      rintro rfl
      exact high low
    rw [Function.update_of_ne different, World.space, World.space,
      translation_high _ _ _ (Nat.not_lt.mp high), translation_high _ _ _ (Nat.not_lt.mp high)]

end Space

/-! ## `mappages` -/

section Map

variable {world after : World} {root : Page} {tree : NodeTree Page}

/-- The tree of a table is there after a step, and the duplicate is still complete. -/
structure Carries (world after : World) (root : Page) (tree grown : NodeTree Page) : Prop where
  rooted : Rooted after root grown
  steady : Steady world after
  covered : ∀ idx, 2 < world.nextpid → Covered world root tree idx → Covered after root grown idx

theorem Carries.trans {between : World} {middle grown : NodeTree Page}
    (first : Carries world between root tree middle)
    (second : Carries between after root middle grown) : Carries world after root tree grown where
  rooted := second.rooted
  steady := first.steady.trans second.steady
  covered idx late before :=
    second.covered idx (first.steady.nextpid ▸ late) (first.covered idx late before)

/-- The ways in which the loop of `mappages` ends that maps `count` pages, from the page
numbered `first` on, to the entries `value`. -/
inductive Mapped (world : World) (root : Page) (tree : NodeTree Page) (first count : Nat)
    (value : Nat → Nat) (need : Nat) : Except Panic (Int × World) → Prop
  | done {after : World} {grown : NodeTree Page} (carries : Carries world after root tree grown)
      (low : (first + count) * pgsize ≤ maxva)
      (space : after.space root = setRange (world.space root) first count value)
      (spent : world.free.length ≤ after.free.length + need) :
      Mapped world root tree first count value need (.ok (0, after))
  | dry {after : World} {grown : NodeTree Page} (carries : Carries world after root tree grown)
      (passed : Nat) (few : passed ≤ count)
      (space : after.space root = setRange (world.space root) first passed value)
      (empty : after.free = []) (short : world.free.length < need) :
      Mapped world root tree first count value need (.ok (-1, after))
  | panicked {panic : Panic} (ptdup : panic.OfPtdup) (late : 2 < world.nextpid)
      (short : ∀ idx, Covered world root tree idx →
        panic = .ptdupCreateL1Kalloc ∧ world.free.length < need) :
      Mapped world root tree first count value need (.error panic)
  | remap (n : Nat) (inside : first ≤ n ∧ n < first + count)
      (mapped : (world.space root n).isSome) :
      Mapped world root tree first count value need (.error .remap)
  | high (above : maxva < (first + count) * pgsize) :
      Mapped world root tree first count value need (.error .walk)

theorem Rooted.mapPage (rooted : Rooted world root tree) (n pa perm : Nat) :
    Mapped world root tree n 1 (fun _ => leaf pa perm) 5
      (world.mapPage root (n * pgsize) pa perm) := by
  rw [World.mapPage]
  by_cases low : n * pgsize < maxva
  · obtain ⟨result, walked, same⟩ := rooted.walked low
    rw [same]
    cases walked with
    | dry grows covered empty short =>
      exact .dry ⟨grows.rooted, grows.steady, covered⟩ 0 (Nat.zero_le 1)
        ((grows.space rooted).trans (setRange_zero _ _ _).symm) empty short
    | panicked ptdup late short => exact .panicked ptdup late short
    | @found l0 between middle grows there covered spent =>
      have space := grows.space rooted
      have word := grows.rooted.space_eq low
      rw [there, Option.bind_some, space] at word
      simp only [Except.map, Except.bind, Option.map_some]
      by_cases valid : isValid (between.tables.memory l0 (px 0 (n * pgsize))) = true
      · rw [if_pos valid]
        refine .remap n ⟨Nat.le_refl n, Nat.lt_succ_self n⟩ ?_
        rw [word]
        exact congrArg Option.isSome (Option.filter_some_pos valid)
      · rw [if_neg valid]
        obtain ⟨stored, still⟩ := grows.rooted.store_leaf there (leaf pa perm)
        refine .done ⟨stored, grows.steady.trans (steady_write _ _ _ _), ?_⟩ ?_ ?_ spent
        · exact fun idx late before => still _ idx (covered idx late before)
        · have numbers : maxva = 2 ^ 38 := rfl
          rw [pgsize_eq] at low ⊢
          omega
        · rw [setRange_one, ← space]
          have filled := grows.rooted.space_store low there (leaf pa perm)
          rw [Option.filter_some_pos (isValid_leaf pa perm)] at filled
          exact filled
  · have high := Nat.not_lt.mp low
    rw [World.walk, if_pos high]
    refine .high ?_
    have numbers : maxva = 2 ^ 38 := rfl
    rw [pgsize_eq] at high ⊢
    omega

theorem Mapped.congr {first count need : Nat} {value other : Nat → Nat}
    {answer : Except Panic (Int × World)} (mapped : Mapped world root tree first count value need answer)
    (same : ∀ k < count, value k = other k) :
    Mapped world root tree first count other need answer := by
  cases mapped with
  | done carries low space spent =>
    exact .done carries low (space.trans (setRange_congr _ _ same)) spent
  | dry carries passed few space empty short =>
    have fewer : ∀ k < passed, value k = other k := fun k inside =>
      same k (Nat.lt_of_lt_of_le inside few)
    exact .dry carries passed few (space.trans (setRange_congr _ _ fewer)) empty short
  | panicked ptdup late short => exact .panicked ptdup late short
  | remap n inside mapped => exact .remap n inside mapped
  | high above => exact .high above

/-- The entries that the loop stores. -/
def leafAt (pa perm k : Nat) : Nat := leaf ((pa + k * pgsize) % 2 ^ 64) perm

/-- The loop of `mappages`, by induction on the pages that are left. -/
theorem Rooted.mapPages (rooted : Rooted world root tree) (steps : Nat) (n perm : Nat) {pa : Nat}
    (word : pa < 2 ^ 64) :
    Mapped world root tree n (steps + 1) (leafAt pa perm) (5 * (steps + 1))
      (World.mapPages root perm steps (n * pgsize) pa world) := by
  induction steps generalizing world tree n pa with
  | zero =>
    refine (rooted.mapPage n pa perm).congr fun k low => ?_
    obtain rfl : k = 0 := Nat.lt_one_iff.mp low
    rw [leafAt, zero_mul, Nat.add_zero, mod_eq_of_lt word]
  | succ steps ih =>
    have first := rooted.mapPage n pa perm
    rw [World.mapPages]
    generalize world.mapPage root (n * pgsize) pa perm = answer at first
    cases first with
    | dry carries passed few space empty short =>
      refine .dry carries passed (by omega) (space.trans (setRange_congr _ _ ?_)) empty (by omega)
      intro k inside
      obtain rfl : k = 0 := by omega
      rw [leafAt, zero_mul, Nat.add_zero, mod_eq_of_lt word]
    | panicked ptdup late short =>
      refine .panicked ptdup late fun idx covered => ?_
      obtain ⟨same, few⟩ := short idx covered
      exact ⟨same, by omega⟩
    | remap m inside mapped => exact .remap m (by omega) mapped
    | high above => exact .high (Nat.lt_of_lt_of_le above (Nat.mul_le_mul_right _ (by omega)))
    | @done between middle carries low space spent =>
      have next : (n * pgsize + pgsize) % 2 ^ 64 = (n + 1) * pgsize := by
        have numbers : maxva = 2 ^ 38 := rfl
        have sum : n * pgsize + pgsize = (n + 1) * pgsize := (succ_mul n pgsize).symm
        rw [sum]
        exact mod_eq_of_lt (by omega)
      have values (k : Nat) : leafAt ((pa + pgsize) % 2 ^ 64) perm k = leafAt pa perm (k + 1) := by
        rw [leafAt, leafAt, Nat.mod_add_mod, succ_mul, Nat.add_assoc, Nat.add_comm pgsize]
      have start : leaf pa perm = leafAt pa perm 0 := by
        rw [leafAt, zero_mul, Nat.add_zero, mod_eq_of_lt word]
      have combined (count : Nat) :
          setRange (between.space root) (n + 1) count (leafAt ((pa + pgsize) % 2 ^ 64) perm) =
            setRange (world.space root) n (count + 1) (leafAt pa perm) := by
        rw [space, setRange_one, start, setRange_congr _ _ fun k _ => values k]
        exact setRange_succ _ _ _ _
      have rest := ih carries.rooted (n + 1) (Nat.mod_lt (pa + pgsize) (Nat.two_pow_pos 64))
      simp only [Except.bind, next]
      generalize World.mapPages root perm steps ((n + 1) * pgsize) ((pa + pgsize) % 2 ^ 64)
        between = answer at rest
      have nextpid := carries.steady.nextpid
      rw [if_neg (by decide)]
      cases rest with
      | done further lowAfter spaceAfter spentAfter =>
        refine .done (carries.trans further) ?_ (spaceAfter.trans (combined _)) (by omega)
        rw [Nat.add_right_comm] at lowAfter
        exact lowAfter
      | dry further passed few spaceAfter empty short =>
        exact .dry (carries.trans further) (passed + 1) (by omega)
          (spaceAfter.trans (combined _)) empty (by omega)
      | panicked ptdup late short =>
        refine .panicked ptdup (nextpid ▸ late) fun idx before => ?_
        obtain ⟨same, few⟩ := short idx (carries.covered idx (nextpid ▸ late) before)
        exact ⟨same, by omega⟩
      | remap m inside mapped =>
        refine .remap m (by omega) ?_
        rw [space, setRange_one, Function.update_of_ne (by omega)] at mapped
        exact mapped
      | high above =>
        refine .high ?_
        rw [Nat.add_right_comm] at above
        exact above

end Map

/-! ## `uvmunmap` -/

/-- The pages behind `count` pages from the one numbered `first` on may be given to
`kfree`: they are pages of its own that are used for nothing else. -/
structure Releasable (world : World) (root first count : Nat) : Prop where
  each : ∀ k < count, ∀ pte ∈ world.space root (first + k),
    IsPage (pte2pa pte) ∧ world.kernelEnd ≤ pte2pa pte ∧ world.InUseElsewhere root (pte2pa pte)
  once : ∀ j < count, ∀ k < count, ∀ pte ∈ world.space root (first + j),
    ∀ other ∈ world.space root (first + k), pte2pa pte = pte2pa other → j = k

instance (world : World) (root first count : Nat) : Decidable (Releasable world root first count) :=
  decidable_of_iff
    ((∀ k < count, ∀ pte ∈ world.space root (first + k),
        IsPage (pte2pa pte) ∧ world.kernelEnd ≤ pte2pa pte ∧
          world.InUseElsewhere root (pte2pa pte)) ∧
      ∀ j < count, ∀ k < count, ∀ pte ∈ world.space root (first + j),
        ∀ other ∈ world.space root (first + k), pte2pa pte = pte2pa other → j = k)
    ⟨fun both => ⟨both.1, both.2⟩, fun releasable => ⟨releasable.each, releasable.once⟩⟩

section Unmap

variable {world after : World} {root : Page} {tree : NodeTree Page} {doFree : Bool}

theorem Rooted.not_owns (rooted : Rooted world root tree) {address : Nat}
    (elsewhere : world.InUseElsewhere root address) : ¬Owns world root tree address := by
  rintro (held | copy)
  · exact elsewhere.1 (rooted.mem_tablePages.mpr held)
  · exact elsewhere.2.1 copy

/-- The ways in which the loop of `uvmunmap` ends over `count` pages from the one numbered
`first` on. -/
inductive Unmapped (world : World) (root : Page) (tree : NodeTree Page) (doFree : Bool)
    (first count : Nat) : Except Panic World → Prop
  | done {after : World} (carries : Carries world after root tree tree)
      (space : after.space root = clearRange (world.space root) first count)
      (duplicate : after.duplicatePages root = world.duplicatePages root)
      (kernelEnd : after.kernelEnd = world.kernelEnd)
      (released : ∀ page ∈ after.free, page ∈ world.free ∨
        doFree = true ∧ ∃ k < count, ∃ pte, world.space root (first + k) = some pte ∧
          page.val = pte2pa pte) :
      Unmapped world root tree doFree first count (.ok after)
  | missing {panic : Panic} (n : Nat) (inside : first ≤ n ∧ n < first + count)
      (empty : world.space root n = none) :
      Unmapped world root tree doFree first count (.error panic)
  | notALeaf (n pte : Nat) (inside : first ≤ n ∧ n < first + count)
      (mapped : world.space root n = some pte) (bare : pteFlags pte = pteV) :
      Unmapped world root tree doFree first count (.error .uvmunmapNotALeaf)

theorem Rooted.release (rooted : Rooted world root tree) {n pte : Nat}
    (mapped : world.space root n = some pte)
    (releasable : doFree = true → Releasable world root n 1) :
    ∃ freed, (if doFree = true then world.kfree (pte2pa pte) else .ok world) = .ok freed ∧
      Aloof world freed root tree ∧ freed.kernelEnd = world.kernelEnd ∧
      ∀ page ∈ freed.free, page ∈ world.free ∨ doFree = true ∧ page.val = pte2pa pte := by
  cases doFree with
  | false => exact ⟨world, rfl, .refl rooted, rfl, fun page member => .inl member⟩
  | true =>
    obtain ⟨physical, above, elsewhere⟩ := (releasable rfl).each 0 Nat.zero_lt_one pte mapped
    obtain ⟨freed, done, kernelEnd⟩ : ∃ freed, world.kfree (pte2pa pte) = .ok freed ∧
        freed.kernelEnd = world.kernelEnd := by
      unfold World.kfree
      rw [dif_pos ⟨physical, above⟩]
      exact ⟨_, rfl, rfl⟩
    obtain ⟨aloof, page, same, free⟩ :=
      kfree_aloof rooted (rooted.not_owns elsewhere) elsewhere.2.2 done
    refine ⟨freed, done, aloof, kernelEnd, fun other member => ?_⟩
    rw [free] at member
    rcases List.mem_cons.mp member with rfl | behind
    · exact .inr ⟨rfl, same⟩
    · exact .inl behind

theorem Rooted.unmapPage (rooted : Rooted world root tree) (n : Nat)
    (releasable : doFree = true → Releasable world root n 1) :
    Unmapped world root tree doFree n 1 (world.unmapPage root (n * pgsize) doFree) := by
  have here : n ≤ n ∧ n < n + 1 := ⟨Nat.le_refl n, Nat.lt_succ_self n⟩
  rw [World.unmapPage]
  by_cases low : n * pgsize < maxva
  · have space := rooted.space_eq low
    rw [rooted.walk_eq low]
    cases there : tree [px 1 (n * pgsize), px 2 (n * pgsize)] with
    | none =>
      rw [there] at space
      exact .missing n here space
    | some l0 =>
      rw [there, Option.bind_some] at space
      simp only [Except.bind, Option.map_some]
      by_cases valid : isValid (world.tables.memory l0 (px 0 (n * pgsize))) = true
      · have mapped : world.space root n = some (world.tables.memory l0 (px 0 (n * pgsize))) :=
          space.trans (Option.filter_some_pos valid)
        rw [if_neg (by simp [valid])]
        by_cases bare : pteFlags (world.tables.memory l0 (px 0 (n * pgsize))) = pteV
        · rw [if_pos bare]
          exact .notALeaf n _ here mapped bare
        · rw [if_neg bare]
          obtain ⟨freed, done, aloof, kernelEnd, released⟩ := rooted.release mapped releasable
          have rootedFreed := aloof.rooted rooted
          obtain ⟨stored, still⟩ := rootedFreed.store_leaf there 0
          rw [done]
          refine .done ⟨stored, aloof.steady.trans (steady_write _ _ _ _), ?_⟩ ?_ ?_ kernelEnd ?_
          · exact fun idx _ before => still _ idx (aloof.covered before)
          · rw [clearRange_one, ← (aloof.keeps rooted).space rooted]
            exact rootedFreed.space_store low there 0
          · have beside (address : Nat) (member : address ∈ freed.duplicatePages root) :
                address ≠ l0 := (rootedFreed.beside.apart address member _ l0 there).symm
            refine (duplicatePages_congr (steady_write _ _ _ _) fun address member => ?_).trans
              aloof.duplicatePages
            exact PageMemory.write_of_page_ne _ _ _ (beside address member)
          · intro page member
            refine (released page member).imp_right fun freed => ?_
            exact ⟨freed.1, 0, Nat.zero_lt_one, _, mapped, freed.2⟩
      · rw [if_pos (by simpa using valid)]
        exact .missing n here
          (space.trans (Option.filter_some_neg (Bool.eq_false_of_not_eq_true valid)))
  · have high := Nat.not_lt.mp low
    rw [World.walk, if_pos high]
    exact .missing n here (translation_high _ _ _ high)

/-- What is left to be released after the first page. -/
theorem Releasable.rest {first count : Nat} (releasable : Releasable world root first (count + 1))
    (rooted : Rooted world root tree) (carries : Carries world after root tree tree)
    (space : after.space root = clearRange (world.space root) first 1)
    (duplicate : after.duplicatePages root = world.duplicatePages root)
    (kernelEnd : after.kernelEnd = world.kernelEnd)
    (released : ∀ page ∈ after.free, page ∈ world.free ∨
      doFree = true ∧ ∃ k < 1, ∃ pte, world.space root (first + k) = some pte ∧
        page.val = pte2pa pte) : Releasable after root (first + 1) count := by
  have same (k : Nat) : after.space root (first + 1 + k) = world.space root (first + (k + 1)) := by
    rw [space, clearRange_one, Function.update_of_ne (by omega), Nat.add_right_comm, Nat.add_assoc]
  constructor
  · intro k low pte mapped
    rw [same] at mapped
    obtain ⟨physical, above, apart, copies, taken⟩ :=
      releasable.each (k + 1) (succ_lt_succ low) pte mapped
    refine ⟨physical, kernelEnd ▸ above, ?_, duplicate ▸ copies, ?_⟩
    · rw [carries.rooted.mem_tablePages, ← rooted.mem_tablePages]
      exact apart
    · intro page member equal
      rcases released page member with before | ⟨-, j, first', other, there, value⟩
      · exact taken page before equal
      · obtain rfl : j = 0 := Nat.lt_one_iff.mp first'
        have clash := releasable.once 0 (Nat.succ_pos count) (k + 1) (succ_lt_succ low) other
          there pte mapped (value.symm.trans equal)
        exact absurd clash (Nat.succ_ne_zero k).symm
  · intro j lowJ k lowK pte mapped other there value
    rw [same] at mapped there
    exact Nat.succ.inj (releasable.once (j + 1) (succ_lt_succ lowJ) (k + 1)
      (succ_lt_succ lowK) pte mapped other there value)

/-- The loop of `uvmunmap`, by induction on the pages that are left. -/
theorem Rooted.unmapPages (rooted : Rooted world root tree) (steps n : Nat)
    (releasable : doFree = true → Releasable world root n (steps + 1)) :
    Unmapped world root tree doFree n (steps + 1)
      (World.unmapPages root doFree steps (n * pgsize) world) := by
  induction steps generalizing world n with
  | zero => exact rooted.unmapPage n releasable
  | succ steps ih =>
    have one : doFree = true → Releasable world root n 1 := fun frees =>
      ⟨fun k low => (releasable frees).each k (by omega),
        fun j lowJ k lowK => (releasable frees).once j (by omega) k (by omega)⟩
    have first := rooted.unmapPage n one
    rw [World.unmapPages]
    by_cases low : n * pgsize < maxva
    · generalize world.unmapPage root (n * pgsize) doFree = answer at first
      cases first with
      | missing m inside empty => exact .missing m (by omega) empty
      | notALeaf m pte inside mapped bare => exact .notALeaf m pte (by omega) mapped bare
      | @done between carries space duplicate kernelEnd released =>
        have next : (n * pgsize + pgsize) % 2 ^ 64 = (n + 1) * pgsize := by
          have numbers : maxva = 2 ^ 38 := rfl
          have size : pgsize = 4096 := rfl
          have sum : n * pgsize + pgsize = (n + 1) * pgsize := (succ_mul n pgsize).symm
          rw [← sum]
          exact mod_eq_of_lt (by omega)
        have combined : clearRange (between.space root) (n + 1) (steps + 1) =
            clearRange (world.space root) n (steps + 1 + 1) := by
          rw [space, clearRange_one]
          exact clearRange_succ _ _ _
        have other (m : Nat) (behind : n + 1 ≤ m) : between.space root m = world.space root m := by
          rw [space, clearRange_one, Function.update_of_ne (by omega)]
        have rest := ih carries.rooted (n + 1) fun frees =>
          (releasable frees).rest rooted carries space duplicate kernelEnd released
        simp only [Except.bind, next]
        generalize World.unmapPages root doFree steps ((n + 1) * pgsize) between = answer at rest
        cases rest with
        | missing m inside empty =>
          exact .missing m (by omega) (other m inside.1 ▸ empty)
        | notALeaf m pte inside mapped bare =>
          exact .notALeaf m pte (by omega) (other m inside.1 ▸ mapped) bare
        | done further spaceAfter duplicateAfter kernelEndAfter releasedAfter =>
          refine .done (carries.trans further) (spaceAfter.trans combined)
            (duplicateAfter.trans duplicate) (kernelEndAfter.trans kernelEnd) ?_
          intro page member
          rcases releasedAfter page member with before | ⟨frees, k, inside, pte, mapped, value⟩
          · refine (released page before).imp_right fun freed => ?_
            obtain ⟨frees, k, inside, rest⟩ := freed
            exact ⟨frees, k, by omega, rest⟩
          · rw [other _ (Nat.le_add_right _ _), Nat.add_right_comm, Nat.add_assoc] at mapped
            exact .inr ⟨frees, k + 1, by omega, pte, mapped, value⟩
    · have high := Nat.not_lt.mp low
      have stopped : world.unmapPage root (n * pgsize) doFree = .error .walk := by
        rw [World.unmapPage, World.walk, if_pos high]
        rfl
      rw [stopped]
      exact .missing n (by omega) (translation_high _ _ _ high)

end Unmap

end Ev6.PageTable
