import Ev6.Allocator.MirrorRun

/-!
# What `init_run_list` leaves out

The loop ends at the page whose link is 0 and registers the pages before it only,
so that the run list never holds the whole free list.
-/

namespace Ev6.Allocator

open Support MList

/-- `init_run_list` from its first statement on. Without a free page the test of the
loop reads `r->next` at address 0, and the kernel faults. -/
def bootRunList (passes : Nat) (booting : State) : Option State :=
  if booting.heap.freelist = 0 then none else initRunList passes booting

/-- The run list holds the free pages, each once and in their order, and the last
node of each of its full pages leads to the next page. -/
structure AllRegistered (init : State) : Prop where
  order : ∃ pages, walkList (init.passes init.runList) init.heap init.runList = some pages ∧
    (∃ passes, walkFree passes init.heap = some pages) ∧ pages.Nodup
  linked : Threaded init.heap (init.lists init.runList)

/-- `init_run_list` returns and has registered every free page. -/
def Registers (booting : State) : Prop :=
  ∃ passes init, bootRunList passes booting = some init ∧ AllRegistered init

/-- `init_run_list` registers the free pages in their order, the last one excepted,
and links its node pages. -/
theorem bootRunList_spec {booting : State} {free : List Nat} (sound : Booting booting free) :
    ∃ init registered last, bootRunList free.length booting = some init ∧
      free.getLast? = some last ∧
      walkList (init.passes init.runList) init.heap init.runList = some registered ∧
      FreeList init.heap (registered ++ [last]) ∧
      Threaded init.heap (init.lists init.runList) := by
  obtain ⟨init, nodes, built, mirror, tail, -⟩ := initRunList_spec sound
  obtain ⟨last, final⟩ : ∃ last, free.getLast? = some last :=
    ⟨_, List.getLast?_eq_some_getLast sound.filled⟩
  have started : booting.heap.freelist ≠ 0 := by
    obtain ⟨first, rest, rfl⟩ := List.exists_cons_of_ne_nil sound.filled
    rw [sound.list.first]
    exact (sound.list.physical first List.mem_cons_self).ne_zero
  rw [final] at tail
  have list := mirror.free
  rw [tail] at list
  refine ⟨init, nodes.map init.heap.addr, last, ?_, final,
    mirror.run.walk (length_nodeSlots_lt _), list, mirror.run.layout.threaded⟩
  rw [bootRunList, if_neg started]
  exact built

/-- A last page that is not registered is missing from the run list. -/
theorem not_allRegistered {init : State} {registered : List Nat} {last : Nat}
    (walked : walkList (init.passes init.runList) init.heap init.runList = some registered)
    (list : FreeList init.heap (registered ++ [last])) : ¬ AllRegistered init := by
  rintro ⟨⟨pages, same, ⟨passes, free⟩, -⟩, -⟩
  obtain rfl : registered = pages := Option.some.inj (walked.symm.trans same)
  have short := congrArg List.length (walk_of_trail list.trail list.physical free)
  rw [List.length_append, List.length_singleton] at short
  omega

/-- Two results of `init_run_list` are the same state. -/
theorem bootRunList_unique {booting first second : State} {passes more : Nat}
    (left : bootRunList passes booting = some first)
    (right : bootRunList more booting = some second) : first = second := by
  obtain ⟨-, left⟩ := Option.ite_none_left_eq_some.mp left
  obtain ⟨-, right⟩ := Option.ite_none_left_eq_some.mp right
  exact initRunList_unique left right

/-- Whatever the free list at boot, `init_run_list` does not register all of it. It
faults on an empty one, and of any other it registers the pages but the last. -/
theorem not_registers {booting : State} {free : List Nat} (list : FreeList booting.heap free)
    (sound : free ≠ [] → Booting booting free) :
    ¬ Registers booting ∧
      (free = [] → ∀ passes, bootRunList passes booting = none) ∧
      (free ≠ [] → ∃ init registered last, bootRunList free.length booting = some init ∧
        free.getLast? = some last ∧
        walkList (init.passes init.runList) init.heap init.runList = some registered ∧
        walkFree (registered.length + 2) init.heap = some (registered ++ [last]) ∧
        (registered ++ [last]).Nodup ∧
        Threaded init.heap (init.lists init.runList)) := by
  have fault : free = [] → ∀ passes, bootRunList passes booting = none := by
    rintro rfl passes
    have empty : booting.heap.freelist = 0 := list.trail
    rw [bootRunList, if_pos empty]
  refine ⟨?_, fault, ?_⟩
  · rintro ⟨passes, init, built, all⟩
    by_cases empty : free = []
    · rw [fault empty passes] at built
      cases built
    · obtain ⟨other, registered, last, result, -, walked, left, -⟩ := bootRunList_spec (sound empty)
      obtain rfl := bootRunList_unique result built
      exact not_allRegistered walked left all
  · intro filled
    obtain ⟨init, registered, last, result, final, walked, left, linked⟩ :=
      bootRunList_spec (sound filled)
    refine ⟨init, registered, last, result, final, walked, ?_, left.once, linked⟩
    exact loop_freePass left.trail left.physical [] (by simp)

/-- Two free pages at boot. -/
theorem not_registers_sample :
    FreeList sampleBooting.heap [samplePage 2, samplePage 3] ∧ ¬ Registers sampleBooting :=
  ⟨booting_sample.list, (not_registers booting_sample.list fun _ => booting_sample).1⟩

/-- With two free pages the second is not on the run list. -/
theorem second_page_missing :
    ∃ init, bootRunList 2 sampleBooting = some init ∧
      walkList (init.passes init.runList) init.heap init.runList = some [samplePage 2] ∧
      walkFree 3 init.heap = some [samplePage 2, samplePage 3] ∧ ¬ Registers sampleBooting := by
  have found : ((bootRunList 2 sampleBooting).any fun init =>
      walkList (init.passes init.runList) init.heap init.runList = some [samplePage 2] ∧
        walkFree 3 init.heap = some [samplePage 2, samplePage 3]) = true := by
    decide +kernel
  obtain ⟨init, built, facts⟩ := (Option.any_eq_true _ _).mp found
  obtain ⟨registered, free⟩ := of_decide_eq_true facts
  refine ⟨init, built, registered, free, ?_⟩
  rintro ⟨passes, other, result, ⟨pages, walked, ⟨more, all⟩, -⟩, -⟩
  obtain rfl := bootRunList_unique built result
  obtain rfl : [samplePage 2] = pages := Option.some.inj (registered.symm.trans walked)
  cases loop_unique free all

end Ev6.Allocator
