import Ev6.BufferCache.Basic

/-!
# The ring of buffers over a run

Traffic moves buffers within the ring, and a recovery whose search finds the two
neighbours of the broken buffer replaces it. The search finds them only among the
static buffers and the head, so a ring neighbour that is itself a replacement, or a
lost static buffer that still names the broken one, spoils the ring.
-/

namespace Ev6.BufferCache

open List (getLastD_mem_cons mem_append mem_append_left mem_cons mem_cons_self mem_reverse
  nodup_cons nodup_middle)
open Function (update)
open Support

/-! ## Writes to the links -/

section Writes

variable (mem : Memory) (node value b : Node)

@[simp]
theorem setNext_next :
    (setNext mem node value b).next = if b = node then value else (mem b).next := by
  by_cases same : b = node
  · subst same
    simp [setNext]
  · simp [setNext, same]

@[simp]
theorem setNext_prev : (setNext mem node value b).prev = (mem b).prev := by
  by_cases same : b = node
  · subst same
    simp [setNext]
  · simp [setNext, same]

@[simp]
theorem setPrev_prev :
    (setPrev mem node value b).prev = if b = node then value else (mem b).prev := by
  by_cases same : b = node
  · subst same
    simp [setPrev]
  · simp [setPrev, same]

@[simp]
theorem setPrev_next : (setPrev mem node value b).next = (mem b).next := by
  by_cases same : b = node
  · subst same
    simp [setPrev]
  · simp [setPrev, same]

theorem insertFront_next (other : node ≠ .head) :
    (insertFront mem node b).next =
      if b = .head then node else if b = node then (mem .head).next else (mem b).next := by
  simp [insertFront, other.symm]

theorem insertFront_prev (other : node ≠ .head) :
    (insertFront mem node b).prev =
      if b = (mem .head).next then node else if b = node then .head else (mem b).prev := by
  simp [insertFront, other.symm]

theorem insertBack_next (other : node ≠ .head) :
    (insertBack mem node b).next =
      if b = (mem .head).prev then node else if b = node then .head else (mem b).next := by
  simp [insertBack, other.symm]

theorem insertBack_prev (other : node ≠ .head) :
    (insertBack mem node b).prev =
      if b = .head then node else if b = node then (mem .head).prev else (mem b).prev := by
  simp [insertBack, other.symm]

theorem unlink_next (other : node ≠ (mem node).next) :
    (unlink mem node b).next =
      if b = (mem node).prev then (mem node).next else (mem b).next := by
  simp [unlink, other]

theorem unlink_prev :
    (unlink mem node b).prev =
      if b = (mem node).next then (mem node).prev else (mem b).prev := by
  simp [unlink]

end Writes

/-! ## Operations on the ring -/

section Operations

variable {mem after : Memory} {nodes front back : List Node} {b : Node}

theorem Ringed.head_not_mem (ring : Ringed mem nodes) : Node.head ∉ nodes :=
  ring.forward.head_not_mem

/-- The ring depends only on the links of its nodes and of the head. -/
theorem Ringed.congr (ring : Ringed mem nodes)
    (next : ∀ b ∈ Node.head :: nodes, (after b).next = (mem b).next)
    (prev : ∀ b ∈ Node.head :: nodes, (after b).prev = (mem b).prev) : Ringed after nodes := by
  constructor
  · exact ring.forward.congr next
  · apply ring.backward.congr
    intro other member
    exact prev other (by simpa using member)

theorem Ringed.insertFront (ring : Ringed mem nodes) (fresh : b ∉ Node.head :: nodes) :
    Ringed (insertFront mem b) (b :: nodes) := by
  obtain ⟨other, outside⟩ : b ≠ .head ∧ b ∉ nodes := by simpa using fresh
  have first : (mem .head).next = nodes.headD .head := ring.forward.next_head
  have firstMem : nodes.headD .head ∈ Node.head :: nodes := by
    cases nodes <;> simp
  refine DoubleRing.pushFront ring fresh ?_ ?_ ?_ ?_ ?_ ?_
  · intro c member
    have notHead : c ≠ .head := fun same => ring.head_not_mem (same ▸ member)
    have notNew : c ≠ b := fun same => outside (same ▸ member)
    simp [insertFront_next mem b c other, notHead, notNew]
  · intro c member notFirst
    have notNew : c ≠ b := fun same => fresh (same ▸ member)
    rw [← first] at notFirst
    simp [insertFront_prev mem b c other, notFirst, notNew]
  · simp [insertFront_next mem b .head other]
  · simp [insertFront_next mem b b other, other]
  · simp [insertFront_prev mem b _ other, first]
  · have notFirst : b ≠ (mem .head).next := by
      rw [first]
      rintro rfl
      exact fresh firstMem
    simp [insertFront_prev mem b b other, notFirst]

theorem Ringed.insertBack (ring : Ringed mem nodes) (fresh : b ∉ Node.head :: nodes) :
    Ringed (insertBack mem b) (nodes ++ [b]) := by
  obtain ⟨other, outside⟩ : b ≠ .head ∧ b ∉ nodes := by simpa using fresh
  have last : (mem .head).prev = nodes.getLastD .head := by
    rw [← headD_reverse]
    exact ring.backward.next_head
  have lastMem : nodes.getLastD .head ∈ Node.head :: nodes := getLastD_mem_cons
  refine DoubleRing.pushBack ring fresh ?_ ?_ ?_ ?_ ?_ ?_
  · intro c member notLast
    have notNew : c ≠ b := fun same => fresh (same ▸ member)
    rw [← last] at notLast
    simp [insertBack_next mem b c other, notLast, notNew]
  · intro c member
    have notHead : c ≠ .head := fun same => ring.head_not_mem (same ▸ member)
    have notNew : c ≠ b := fun same => outside (same ▸ member)
    simp [insertBack_prev mem b c other, notHead, notNew]
  · rw [← last]
    simp [insertBack_next mem b _ other]
  · have notLast : b ≠ (mem .head).prev := by
      rw [last]
      intro same
      exact fresh (same ▸ lastMem)
    simp [insertBack_next mem b b other, notLast]
  · simp [insertBack_prev mem b .head other]
  · simp [insertBack_prev mem b b other, other]

/-- The neighbours of a buffer of the ring, and that they are not the buffer itself. -/
theorem Ringed.neighbours (ring : Ringed mem (front ++ b :: back)) :
    (mem (front.getLastD .head)).next = b ∧ (mem b).next = back.headD .head ∧
      (mem (back.headD .head)).prev = b ∧ (mem b).prev = front.getLastD .head ∧
      b ≠ front.getLastD .head ∧ b ≠ back.headD .head := by
  obtain ⟨before, next, behind, prev⟩ := DoubleRing.neighbours ring
  have once := ring.forward.once
  rw [← List.cons_append] at once
  have absent := (nodup_cons.mp (nodup_middle.mp once)).1
  refine ⟨before, next, behind, prev, ?_, ?_⟩
  · intro same
    apply absent
    rw [same]
    exact mem_append_left _ getLastD_mem_cons
  · intro same
    apply absent
    rw [same]
    cases back <;> simp

theorem Ringed.unlink (ring : Ringed mem (front ++ b :: back)) :
    Ringed (unlink mem b) (front ++ back) := by
  obtain ⟨-, next, -, prev, -, notNext⟩ := ring.neighbours
  have other : b ≠ (mem b).next := next ▸ notNext
  refine DoubleRing.unlink ring ?_ ?_ ?_ ?_
  · intro c _ notPred
    rw [← prev] at notPred
    simp [unlink_next mem b c other, notPred]
  · intro c _ notSucc
    rw [← next] at notSucc
    simp [unlink_prev mem b c, notSucc]
  · rw [← prev, ← next]
    simp [unlink_next mem b _ other]
  · rw [← prev, ← next]
    simp [unlink_prev mem b]

/-- A write to a buffer that keeps its links keeps the ring. -/
theorem Ringed.written {mem : Memory} {nodes : List Node} (ring : Ringed mem nodes) {b : Node}
    {value : Buf} (next : value.next = (mem b).next) (prev : value.prev = (mem b).prev) :
    Ringed (update mem b value) nodes := by
  refine ring.congr ?_ ?_
  · intro c _
    by_cases same : c = b
    · subst same
      simpa using next
    · simp [same]
  · intro c _
    by_cases same : c = b
    · subst same
      simpa using prev
    · simp [same]

theorem Ringed.brelse (ring : Ringed mem nodes) (member : b ∈ nodes) :
    ∃ moved, Ringed (brelse mem b) moved ∧ moved.Perm nodes := by
  have counted : Ringed
      (update mem b { mem b with refcnt := (mem b).refcnt - 1 }) nodes :=
    ring.written rfl rfl
  unfold BufferCache.brelse
  simp only
  split
  · obtain ⟨front, back, rfl⟩ := List.append_of_mem member
    have absent : b ∉ Node.head :: (front ++ back) := by
      have once := ring.forward.once
      rw [← List.cons_append] at once
      exact (nodup_cons.mp (nodup_middle.mp once)).1
    exact ⟨_, counted.unlink.insertFront absent, List.perm_middle.symm⟩
  · exact ⟨nodes, counted, List.Perm.refl nodes⟩

theorem ringed_binit (mem : Memory) :
    Ringed (binit mem) ((List.finRange nbuf).map Node.buf).reverse := by
  have empty : Ringed (setNext (setPrev mem .head .head) .head .head) [] := by
    constructor <;> constructor <;> simp
  have along : ∀ (entries : List (Fin nbuf)) (mem : Memory) (nodes : List Node),
      Ringed mem nodes → entries.Nodup → (∀ i ∈ entries, Node.buf i ∉ nodes) →
      Ringed (entries.foldl (fun mem i => BufferCache.insertFront mem (.buf i)) mem)
        ((entries.map Node.buf).reverse ++ nodes) := by
    intro entries
    induction entries with
    | nil => intro mem nodes ring _ _; exact ring
    | cons i rest ih =>
      intro mem nodes ring distinct outside
      obtain ⟨notAgain, distinctRest⟩ := nodup_cons.mp distinct
      have pushed : Ringed (BufferCache.insertFront mem (.buf i)) (.buf i :: nodes) := by
        apply ring.insertFront
        simp [outside i mem_cons_self]
      have further := ih _ _ pushed distinctRest ?_
      · simpa using further
      · intro j member
        have different : j ≠ i := fun same => notAgain (same ▸ member)
        simp [different, outside j (List.mem_cons_of_mem i member)]
  simpa [binit] using along (List.finRange nbuf) _ [] empty (List.nodup_finRange nbuf) (by simp)

end Operations

/-! ## The loops of `bget` -/

/-- A loop of `bget` over a ring comes to its end, and finds the first buffer that meets
the test. -/
theorem loop_scanPass {follow : Node → Node} {test : Node → Bool} {nodes : List Node}
    (ring : Ring follow .head nodes) {passes : Nat} (enough : nodes.length < passes) :
    loop (scanPass follow test) passes (follow .head) = some (nodes.find? test) := by
  have along : ∀ (rest : List Node) (first : Node) (passes : Nat),
      Trail follow first rest .head → Node.head ∉ rest → rest.length < passes →
      loop (scanPass follow test) passes first = some (rest.find? test) := by
    intro rest
    induction rest with
    | nil =>
      intro first passes trail _ enough
      obtain rfl : first = .head := trail
      obtain ⟨more, rfl⟩ : ∃ more, passes = more + 1 := ⟨passes - 1, by simp at enough; omega⟩
      exact loop_leave (by simp [scanPass]) more
    | cons b rest ih =>
      intro first passes trail outside enough
      obtain ⟨rfl, behind⟩ := trail
      obtain ⟨notHead, outside⟩ : first ≠ .head ∧ Node.head ∉ rest := by
        simpa [eq_comm] using outside
      obtain ⟨more, rfl⟩ : ∃ more, passes = more + 1 := ⟨passes - 1, by simp at enough; omega⟩
      cases hit : test first
      · have again : scanPass follow test first = .again (follow first) := by
          simp [scanPass, notHead, hit]
        rw [List.find?_cons_of_neg (by simp [hit])]
        exact (loop_again again more).trans (ih (follow first) more behind outside
          (by simpa using enough))
      · have leave : scanPass follow test first = .leave (some first) := by
          simp [scanPass, notHead, hit]
        rw [List.find?_cons_of_pos hit]
        exact loop_leave leave more
  obtain ⟨-, trail⟩ := ring.trail
  exact along nodes (follow .head) passes trail ring.head_not_mem enough

/-- On a ring `bget` returns a buffer that holds the block, or else one that is unused,
or else it panics. -/
theorem Ringed.bget_cases {mem : Memory} {nodes : List Node} (ring : Ringed mem nodes)
    {passes : Nat} (enough : nodes.length < passes) (dev blockno : UInt32) :
    (∃ b ∈ nodes, ((mem b).dev = dev ∧ (mem b).blockno = blockno) ∧
      bget passes mem dev blockno =
        some (some b, update mem b { mem b with refcnt := (mem b).refcnt + 1 })) ∨
      (∀ b ∈ nodes, ¬((mem b).dev = dev ∧ (mem b).blockno = blockno)) ∧
        ((∃ b ∈ nodes, (mem b).refcnt = 0 ∧ bget passes mem dev blockno =
          some (some b, update mem b { mem b with
            dev := dev, blockno := blockno, valid := 0, refcnt := 1 })) ∨
          bget passes mem dev blockno = some (none, mem)) := by
  have forwards := @loop_scanPass _ (fun b => (mem b).dev = dev && (mem b).blockno = blockno) _
    ring.forward _ enough
  have backwards := @loop_scanPass _ (fun b => (mem b).refcnt = 0) _ ring.backward passes
    (by simpa using enough)
  unfold BufferCache.bget
  rw [forwards]
  cases cached : nodes.find? fun b => (mem b).dev = dev && (mem b).blockno = blockno with
  | some b =>
    have holds := List.find?_some cached
    exact .inl ⟨b, List.mem_of_find?_eq_some cached, by simpa using holds, rfl⟩
  | none =>
    have missed := List.find?_eq_none.mp cached
    refine .inr ⟨fun b member => by simpa using missed b member, ?_⟩
    simp only [Option.bind_some, backwards, Option.map_some]
    cases unused : nodes.reverse.find? fun b => (mem b).refcnt = 0 with
    | none => exact .inr rfl
    | some b =>
      have zero := List.find?_some unused
      exact .inl ⟨b, mem_reverse.mp (List.mem_of_find?_eq_some unused),
        by simpa using zero, rfl⟩

/-- On a ring `bget` comes to an end, leaves every link as it is, and returns a buffer
of the ring unless it panics. -/
theorem Ringed.bget {mem : Memory} {nodes : List Node} (ring : Ringed mem nodes) {passes : Nat}
    (enough : nodes.length < passes) (dev blockno : UInt32) :
    ∃ found after, bget passes mem dev blockno = some (found, after) ∧ Ringed after nodes ∧
      ∀ b, found = some b → b ∈ nodes := by
  rcases ring.bget_cases enough dev blockno with
    ⟨b, member, -, done⟩ | ⟨-, ⟨b, member, -, done⟩ | done⟩
  · refine ⟨some b, _, done, ring.written rfl rfl, ?_⟩
    rintro c ⟨⟩
    exact member
  · refine ⟨some b, _, done, ring.written rfl rfl, ?_⟩
    rintro c ⟨⟩
    exact member
  · exact ⟨none, mem, done, ring, by simp⟩

/-! ## The recovery of a broken buffer -/

theorem searchNeighbour_eq_some {field : Node → Node} {broken place : Node} :
    searchNeighbour field broken = some place ↔ NamedBy field broken place := by
  have found := @lastHit_eq_some _ _ (fun i => decide (field (.buf i) = broken)) _
    (List.pairwise_lt_finRange nbuf)
  have missed := @lastHit_eq_none _ (fun i => decide (field (.buf i) = broken))
    (List.finRange nbuf)
  unfold searchNeighbour NamedBy
  cases scanned : lastHit (fun i => decide (field (.buf i) = broken)) (List.finRange nbuf) none with
  | none =>
    have nowhere : ∀ i, field (.buf i) ≠ broken := by simpa using missed.mp scanned
    by_cases atHead : field .head = broken
    · simp [atHead, nowhere, eq_comm]
    · simp [atHead, nowhere]
  | some i =>
    obtain ⟨-, hit, last⟩ := found.mp scanned
    simp only [decide_eq_true_eq, decide_eq_false_iff_not, List.mem_finRange, true_imp_iff]
      at hit last
    simp only [Option.map_some, Option.some_or, Option.some.injEq]
    constructor
    · rintro rfl
      exact .inl ⟨i, rfl, hit, last⟩
    · rintro (⟨j, rfl, hitJ, lastJ⟩ | ⟨-, -, nowhere⟩)
      · rcases lt_trichotomy i j with below | same | above
        · exact absurd hitJ (last j below)
        · rw [same]
        · exact absurd hit (lastJ i above)
      · exact absurd hit (nowhere i)

section

variable {mem : Memory} {broken fresh place : Node} {garbage : Buf} {front back : List Node}

theorem NamedBy.not_page {field : Node → Node} (named : NamedBy field broken place)
    (address : Nat) : place ≠ .page address := by
  rcases named with ⟨i, rfl, -⟩ | ⟨rfl, -⟩ <;> simp

theorem NamedBy.names {field : Node → Node} (named : NamedBy field broken place) :
    field place = broken := by
  rcases named with ⟨i, rfl, names, -⟩ | ⟨rfl, names, -⟩ <;> exact names

/-- The search reads static buffers and the head only, so the new page does not matter. -/
theorem NamedBy.congr {field other : Node → Node}
    (same : ∀ b, (∀ address, b ≠ .page address) → field b = other b) :
    NamedBy field broken place ↔ NamedBy other broken place := by
  have head := same .head (by simp)
  have static : ∀ i, field (.buf i) = other (.buf i) := fun i => same (.buf i) (by simp)
  simp [NamedBy, head, static]

/-- The memory in which the handler works: the broken buffer is garbage and the new one
is filled with 0. -/
def broke (mem : Memory) (broken : Node) (garbage : Buf) (fresh : Node) : Memory :=
  update (update mem broken garbage) fresh Buf.zero

theorem broke_of_ne {b : Node} (other : b ≠ broken) (old : b ≠ fresh) :
    broke mem broken garbage fresh b = mem b := by
  simp [broke, other, old]

/-- What the handler does once the search has found a node on either side. -/
theorem internalSurgery_eq_some {after : Memory} {address : Nat} :
    internalSurgery (update mem broken garbage) broken (.page address) = some after ↔
      ∃ prev next,
        NamedBy (fun b => (update mem broken garbage b).next) broken prev ∧
        NamedBy (fun b => (update mem broken garbage b).prev) broken next ∧
        after = insertBack (setPrev (setNext (broke mem broken garbage (.page address)) prev next)
          next prev) (.page address) := by
  have seen : ∀ b : Node, (∀ page, b ≠ .page page) →
      broke mem broken garbage (.page address) b = update mem broken garbage b := by
    intro b noPage
    simp [broke, noPage address]
  have nexts : ∀ place, searchNeighbour
      (fun b => (broke mem broken garbage (.page address) b).next) broken = some place ↔
        NamedBy (fun b => (update mem broken garbage b).next) broken place := by
    intro place
    rw [searchNeighbour_eq_some]
    exact NamedBy.congr fun b noPage => by rw [seen b noPage]
  have prevs : ∀ place, searchNeighbour
      (fun b => (broke mem broken garbage (.page address) b).prev) broken = some place ↔
        NamedBy (fun b => (update mem broken garbage b).prev) broken place := by
    intro place
    rw [searchNeighbour_eq_some]
    exact NamedBy.congr fun b noPage => by rw [seen b noPage]
  have zeroed : update (update mem broken garbage) (.page address) Buf.zero =
      broke mem broken garbage (.page address) := rfl
  simp only [internalSurgery, zeroed]
  cases first : searchNeighbour
      (fun b => (broke mem broken garbage (.page address) b).next) broken with
  | none =>
    simp only [reduceCtorEq, false_iff]
    rintro ⟨prev, -, named, -, -⟩
    rw [(nexts prev).mpr named] at first
    cases first
  | some prev =>
    cases second : searchNeighbour
        (fun b => (broke mem broken garbage (.page address) b).prev) broken with
    | none =>
      simp only [reduceCtorEq, false_iff]
      rintro ⟨-, next, -, named, -⟩
      rw [(prevs next).mpr named] at second
      cases second
    | some next =>
      constructor
      · intro done
        refine ⟨prev, next, (nexts prev).mp first, (prevs next).mp second, ?_⟩
        exact (Option.some.inj done).symm
      · rintro ⟨prev', next', named, named', rfl⟩
        obtain rfl : prev = prev' := Option.some.inj (first.symm.trans ((nexts _).mpr named))
        obtain rfl : next = next' :=
          Option.some.inj (second.symm.trans ((prevs _).mpr named'))
        rfl

/-- With the two neighbours found, the broken buffer leaves the ring and the new one
comes in at its end. -/
theorem Ringed.replace (ring : Ringed mem (front ++ broken :: back))
    (outside : fresh ∉ Node.head :: (front ++ broken :: back)) :
    Ringed (BufferCache.insertBack (setPrev (setNext (broke mem broken garbage fresh)
      (front.getLastD .head) (back.headD .head)) (back.headD .head) (front.getLastD .head)) fresh)
      (front ++ back ++ [fresh]) := by
  have once := ring.forward.once
  rw [← List.cons_append] at once
  have absent := (nodup_cons.mp (nodup_middle.mp once)).1
  have kept : ∀ b ∈ Node.head :: (front ++ back), broke mem broken garbage fresh b = mem b := by
    intro b member
    refine broke_of_ne ?_ ?_
    · rintro rfl
      exact absent member
    · rintro rfl
      apply outside
      simp only [mem_cons, mem_append] at member ⊢
      tauto
  apply Ringed.insertBack
  · refine DoubleRing.unlink ring ?_ ?_ ?_ ?_
    · intro b member notPred
      simp only [setPrev_next, setNext_next, if_neg notPred, kept b member]
    · intro b member notSucc
      simp only [setPrev_prev, if_neg notSucc, setNext_prev, kept b member]
    · simp
    · simp
  · intro member
    apply outside
    simp only [mem_cons, mem_append] at member ⊢
    tauto

/-- Where the ring is right after a recovery, the search has found the neighbours. -/
theorem Ringed.found_of_replace {prev next : Node} {address : Nat}
    (ring : Ringed mem (front ++ broken :: back))
    (outside : Node.page address ∉ Node.head :: (front ++ broken :: back))
    (named : ∀ page, prev ≠ .page page ∧ next ≠ .page page)
    (replaced : Ringed (BufferCache.insertBack (setPrev (setNext
      (broke mem broken garbage (.page address)) prev next) next prev) (.page address))
      (front ++ back ++ [.page address])) :
    prev = front.getLastD .head ∧ next = back.headD .head := by
  obtain ⟨before, -, behind, -, notPred, notSucc⟩ := ring.neighbours
  have once := ring.forward.once
  rw [← List.cons_append] at once
  have absent := (nodup_cons.mp (nodup_middle.mp once)).1
  have predMem : front.getLastD .head ∈ Node.head :: front := getLastD_mem_cons
  have other : Node.page address ≠ .head := by simp
  have notFresh : ∀ b ∈ Node.head :: (front ++ broken :: back), b ≠ .page address := by
    rintro b member rfl
    exact outside member
  have lost : broken ∉ Node.head :: (front ++ back ++ [.page address]) := by
    have different := notFresh broken (by simp)
    simp only [List.cons_append, mem_cons, mem_append, not_or] at absent
    simp [absent.1, absent.2.1, absent.2.2, different]
  have kept : ∀ b ∈ Node.head :: (front ++ broken :: back), b ≠ broken →
      broke mem broken garbage (.page address) b = mem b :=
    fun b member different => broke_of_ne different (notFresh b member)
  have headKept : broke mem broken garbage (.page address) .head = mem .head := by
    refine kept .head mem_cons_self ?_
    rintro rfl
    exact absent (by simp)
  have predKept : broke mem broken garbage (.page address) (front.getLastD .head) =
      mem (front.getLastD .head) := by
    refine kept _ ?_ notPred.symm
    rw [← List.cons_append]
    exact mem_append_left _ predMem
  -- The node that the head's `prev` leads to when the new buffer comes in.
  have last : (setPrev (setNext (broke mem broken garbage (.page address)) prev next) next prev
      .head).prev = if .head = next then prev else (mem .head).prev := by
    simp [headKept]
  have predFresh : front.getLastD .head ≠ .page address := by
    refine notFresh _ ?_
    rw [← List.cons_append]
    exact mem_append_left _ predMem
  have predLink : front.getLastD .head ≠ (if .head = next then prev else (mem .head).prev) →
      (BufferCache.insertBack (setPrev (setNext (broke mem broken garbage (.page address)) prev next)
        next prev) (.page address) (front.getLastD .head)).next =
          if front.getLastD .head = prev then next else broken := by
    intro notLast
    rw [insertBack_next _ _ _ other, last, if_neg notLast, if_neg predFresh, setPrev_next,
      setNext_next, predKept, before]
  have found : prev = front.getLastD .head := by
    by_contra missed
    have notLast : front.getLastD .head ≠ (if .head = next then prev else (mem .head).prev) := by
      split
      · exact fun same => missed same.symm
      · have lastEq : (mem .head).prev = (broken :: back).getLastD (front.getLastD .head) := by
          have ends := ring.backward.next_head
          rw [headD_reverse] at ends
          rw [ends]
          cases back <;> simp
        rw [lastEq]
        intro same
        have inBack : (broken :: back).getLastD (front.getLastD .head) ∈ broken :: back := by
          rw [List.getLastD_cons]
          exact getLastD_mem_cons
        rw [← same] at inBack
        exact (List.nodup_append.mp once).2.2 _ predMem _ inBack rfl
    have link := predLink notLast
    rw [if_neg fun same => missed same.symm] at link
    apply lost
    have member : front.getLastD .head ∈ Node.head :: (front ++ back ++ [.page address]) := by
      rw [List.append_assoc, ← List.cons_append]
      exact mem_append_left _ predMem
    have inside := replaced.forward.next_mem member
    simpa only [link] using inside
  refine ⟨found, ?_⟩
  by_contra missed
  cases back with
  | cons t back =>
    -- The buffer behind the broken one still names it.
    have tMem : t ∈ Node.head :: (front ++ broken :: t :: back) := by simp
    have notHead : t ≠ .head := by
      rintro rfl
      exact ring.head_not_mem (by simp)
    have link : (BufferCache.insertBack (setPrev (setNext
        (broke mem broken garbage (.page address)) prev next) next prev)
        (.page address) t).prev = broken := by
      rw [insertBack_prev _ _ _ other, if_neg notHead, if_neg (notFresh t tMem), setPrev_prev,
        if_neg fun same => missed same.symm, setNext_prev, kept t tMem (Ne.symm notSucc)]
      exact behind
    apply lost
    have member : t ∈ Node.head :: (front ++ t :: back ++ [Node.page address]).reverse := by simp
    have inside := replaced.backward.next_mem member
    rw [link] at inside
    simpa only [mem_cons, mem_reverse] using inside
  | nil =>
    -- The broken buffer was the last one; its predecessor now leads to the new one.
    have notNext : ¬ Node.head = next := fun same => missed same.symm
    have notLast : front.getLastD .head ≠ (if .head = next then prev else (mem .head).prev) := by
      rw [if_neg notNext]
      intro same
      have lastBroken : (mem .head).prev = broken := behind
      exact notPred (same.trans lastBroken).symm
    have link := predLink notLast
    rw [if_pos found.symm] at link
    rw [List.append_nil] at replaced
    have leads := replaced.neighbours.1
    exact (named address).2 (link.symm.trans leads)

end

/-! ## Runs -/

/-- The ring holds the buffers of the M-List, and whoever holds a buffer holds one of
the ring. -/
structure Shape (state : State) (nodes : List Node) : Prop where
  ring : Ringed state.mem nodes
  length : nodes.length = nbuf
  distinct : state.listed.Nodup
  listed : ∀ b, b ∈ nodes ↔ b ∈ state.listed
  held : ∀ b ∈ state.held, b ∈ nodes

theorem shape_start : Shape start ((List.finRange nbuf).map Node.buf).reverse where
  ring := ringed_binit _
  length := by simp
  distinct := (List.nodup_finRange nbuf).map fun i j same => by simpa using same
  listed b := by simp [start]
  held b member := by cases member

theorem Shape.around {state : State} {nodes : List Node} {broken : Node} {page : Nat}
    (shape : Shape state nodes) (hit : broken ∈ state.listed) (fresh : Fresh state page) :
    ∃ front back, nodes = front ++ broken :: back ∧
      Node.page page ∉ Node.head :: (front ++ broken :: back) := by
  obtain ⟨front, back, split⟩ := List.append_of_mem ((shape.listed broken).mpr hit)
  refine ⟨front, back, split, ?_⟩
  rw [← split]
  have outside := mt (shape.listed (.page page)).mp fresh.2
  simp [outside]

/-- Without a commit that is redone, a recovery is its surgery. -/
theorem recoveryHandlerBuf_eq (mem : Memory) (broken fresh : Node) {interrupted : Interrupted}
    (once : ¬interrupted.Redoes) :
    recoveryHandlerBuf mem broken fresh interrupted = internalSurgery mem broken fresh := by
  have same : solveInconsistencyBuf interrupted = some := funext fun _ => if_neg once
  rw [recoveryHandlerBuf, same, Option.bind_fun_some]

/-- A recovery whose search finds the neighbours, and that redoes no commit, replaces the broken
buffer. -/
theorem Shape.error {state : State} {nodes : List Node} {broken : Node} {garbage : Buf} {page : Nat}
    {interrupted : Interrupted} (shape : Shape state nodes) (hit : broken ∈ state.listed)
    (fresh : Fresh state page) (found : Searchable state broken garbage)
    (once : ¬interrupted.Redoes) :
    ∃ next front back, step state (.error broken garbage page interrupted) = some next ∧
      nodes = front ++ broken :: back ∧ Shape next (front ++ back ++ [.page page]) := by
  obtain ⟨front, back, split, outside⟩ := shape.around hit fresh
  have ring := shape.ring
  rw [split] at ring
  obtain ⟨⟨prev, prevIn, prevOther, prevNamed⟩, next, nextIn, nextOther, nextNamed⟩ := found
  have inside : ∀ b ∈ Node.head :: state.listed, b ∈ Node.head :: (front ++ broken :: back) := by
    intro b member
    rw [← split]
    simpa [shape.listed b] using member
  have prevLink : (state.mem prev).next = broken := by
    simpa [prevOther] using prevNamed.names
  have nextLink : (state.mem next).prev = broken := by
    simpa [nextOther] using nextNamed.names
  obtain rfl : prev = front.getLastD .head :=
    ring.forward.pred_unique (inside prev prevIn) prevLink
  obtain rfl : next = back.headD .head := by
    have backward := ring.backward
    simp only [List.reverse_append, List.reverse_cons, List.append_assoc, List.singleton_append]
      at backward
    have member : next ∈ Node.head :: (back.reverse ++ broken :: front.reverse) := by
      have member := inside next nextIn
      simp only [mem_cons, mem_append, mem_reverse] at member ⊢
      tauto
    rw [← getLastD_reverse]
    exact backward.pred_unique member nextLink
  obtain ⟨after, done, replaced⟩ : ∃ after,
      recoveryHandlerBuf (update state.mem broken garbage) broken (.page page)
        interrupted = some after ∧ Ringed after (front ++ back ++ [.page page]) :=
    ⟨_, (recoveryHandlerBuf_eq _ _ _ once).trans
      (internalSurgery_eq_some.mpr ⟨_, _, prevNamed, nextNamed, rfl⟩), ring.replace outside⟩
  refine ⟨⟨after, state.listed.erase broken ++ [.page page], state.held.filter (· ≠ broken)⟩,
    front, back, ?_, split, ?_⟩
  · simp only [BufferCache.step, if_pos (And.intro hit fresh), done, Option.map_some]
  · have once := ring.forward.once
    have onceNodes := (nodup_cons.mp once).2
    have absent := (nodup_cons.mp (nodup_middle.mp onceNodes)).1
    have members : ∀ b, b ∈ front ++ back ++ [.page page] ↔
        b ∈ state.listed.erase broken ++ [.page page] := by
      intro b
      have listed := shape.listed b
      rw [split] at listed
      simp only [mem_append, shape.distinct.mem_erase_iff, ← listed, mem_cons]
      by_cases same : b = broken
      · subst same
        rw [mem_append, not_or] at absent
        simp [absent.1, absent.2]
      · simp [same]
    constructor
    · exact replaced
    · have length := shape.length
      rw [split] at length
      simp only [List.length_append, List.length_cons, List.length_nil] at length ⊢
      omega
    · have distinct := shape.distinct.erase broken
      refine List.nodup_append.mpr ⟨distinct, List.nodup_singleton _, ?_⟩
      intro b member c single same
      rw [List.mem_singleton.mp single] at same
      subst same
      exact fresh.2 (List.mem_of_mem_erase member)
    · exact members
    · intro b member
      obtain ⟨heldBefore, different⟩ := List.mem_filter.mp member
      have inRing := shape.held b heldBefore
      rw [split] at inRing
      simp only [decide_eq_true_eq] at different
      simp only [mem_append, mem_cons] at inRing ⊢
      tauto

/-- Every step that meets the condition keeps the shape. -/
theorem Shape.step {state next : State} {nodes : List Node} {move : Move}
    (shape : Shape state nodes) (found : Found state move)
    (taken : BufferCache.step state move = some next) : ∃ nodes, Shape next nodes := by
  cases move with
  | bget dev blockno =>
    have enough : nodes.length < nbuf + 1 := by
      rw [shape.length]
      exact Nat.lt_succ_self nbuf
    obtain ⟨result, after, done, ring, inside⟩ := shape.ring.bget enough dev blockno
    cases result with
    | none => simp [BufferCache.step, done] at taken
    | some b =>
      simp only [BufferCache.step, done, Option.some.injEq] at taken
      subst taken
      refine ⟨nodes, ring, shape.length, shape.distinct, shape.listed, ?_⟩
      intro c member
      rcases mem_cons.mp member with rfl | member
      · exact inside c rfl
      · exact shape.held c member
  | brelse b =>
    simp only [BufferCache.step, Option.ite_none_right_eq_some, Option.some.injEq] at taken
    obtain ⟨holds, rfl⟩ := taken
    obtain ⟨moved, ring, same⟩ := shape.ring.brelse (shape.held b holds)
    refine ⟨moved, ring, same.length_eq.trans shape.length, shape.distinct, ?_, ?_⟩
    · intro c
      exact same.mem_iff.trans (shape.listed c)
    · intro c member
      exact same.mem_iff.mpr (shape.held c (List.mem_of_mem_erase member))
  | error broken garbage page interrupted =>
    have reached : broken ∈ state.listed ∧ Fresh state page := by
      by_contra outside
      simp [BufferCache.step, outside] at taken
    obtain ⟨after, front, back, done, -, kept⟩ := shape.error reached.1 reached.2 found.1 found.2
    obtain rfl := Option.some.inj (done.symm.trans taken)
    exact ⟨_, kept⟩

/-- In a run whose recoveries have all found the neighbours of the broken buffer and redone no
commit, the buffers form a doubly linked list, and the next recovery that redoes no commit
replaces the broken buffer by the new one at the end exactly when its search finds them too. -/
theorem ring_kept {moves : List Move} {state : State} (run : (system.guarded Found).Runs moves state) :
    (∃ nodes, Ringed state.mem nodes) ∧
      ∀ broken garbage page interrupted, broken ∈ state.listed → Fresh state page →
        ¬Interrupted.Redoes interrupted →
        ((∃ next, step state (.error broken garbage page interrupted) = some next ∧
          Replaced state.mem next.mem broken (.page page)) ↔ Searchable state broken garbage) := by
  have shaped : ∃ nodes, Shape state nodes := by
    refine run.invariant (fun state => ∃ nodes, Shape state nodes) ?_ ?_
    · rintro state rfl
      exact ⟨_, shape_start⟩
    · rintro state move next ⟨nodes, shape⟩ ⟨found, taken⟩
      exact shape.step found taken
  obtain ⟨nodes, shape⟩ := shaped
  refine ⟨⟨nodes, shape.ring⟩, ?_⟩
  intro broken garbage page interrupted hit fresh once
  constructor
  · rintro ⟨next, taken, front, back, before, after⟩
    simp only [step, if_pos (And.intro hit fresh), Option.map_eq_some_iff] at taken
    obtain ⟨mem, handled, rfl⟩ := taken
    rw [recoveryHandlerBuf_eq _ _ _ once] at handled
    obtain ⟨prev, succ, prevNamed, succNamed, rfl⟩ := internalSurgery_eq_some.mp handled
    obtain rfl : nodes = front ++ broken :: back := shape.ring.forward.unique before.forward
    obtain ⟨-, -, -, -, notPred, notSucc⟩ := before.neighbours
    have outside : Node.page page ∉ Node.head :: (front ++ broken :: back) := by
      have absent := mt (shape.listed (.page page)).mp fresh.2
      simpa using absent
    have inUse : ∀ b ∈ Node.head :: (front ++ broken :: back), b ∈ Node.head :: state.listed := by
      intro b member
      rcases mem_cons.mp member with rfl | member
      · exact mem_cons_self
      · exact List.mem_cons_of_mem _ ((shape.listed b).mp member)
    obtain ⟨rfl, rfl⟩ := before.found_of_replace outside
      (fun address => ⟨prevNamed.not_page address, succNamed.not_page address⟩) after
    have predMem : front.getLastD .head ∈ Node.head :: front := getLastD_mem_cons
    have succMem : back.headD .head ∈ Node.head :: (front ++ broken :: back) := by
      cases back <;> simp
    refine ⟨⟨_, inUse _ ?_, notPred.symm, prevNamed⟩, _, inUse _ succMem, notSucc.symm, succNamed⟩
    rw [← List.cons_append]
    exact mem_append_left _ predMem
  · intro found
    obtain ⟨next, front, back, taken, rfl, kept⟩ := shape.error hit fresh found once
    exact ⟨next, taken, front, back, shape.ring, kept.ring⟩

/-- An error of a process that is in no function of interest, while no commit is running. -/
def idle : Interrupted := ⟨⟨fun _ => (1, 0), .aggressive, [], 1, 1, false⟩, false, []⟩

/-- A block is read and released, the buffer at the end of the list breaks, and then
one in the middle. -/
def twoErrors : List Move :=
  [.bget 1 7, .brelse (.buf 0), .error (.buf 1) Buf.zero 0x87e00000 idle,
    .error (.buf 15) Buf.zero 0x87e01000 idle]

theorem ring_kept_twoErrors :
    ∃ state, (system.guarded Found).Runs twoErrors state ∧
      (∃ nodes, Ringed state.mem nodes) ∧
      ∀ broken garbage page interrupted, broken ∈ state.listed → Fresh state page →
        ¬Interrupted.Redoes interrupted →
        ((∃ next, step state (.error broken garbage page interrupted) = some next ∧
          Replaced state.mem next.mem broken (.page page)) ↔ Searchable state broken garbage) := by
  have found : (LabelledSystem.exec (LabelledSystem.checked Found step) start
      twoErrors).isSome = true := by decide +kernel
  obtain ⟨state, result⟩ := Option.isSome_iff_exists.mp found
  have run : (system.guarded Found).Runs twoErrors state :=
    .of_checked_exec rfl result
  exact ⟨state, run, ring_kept run⟩

/-- The buffer at the end of the list breaks and is replaced by a page at the end; when
its predecessor breaks, the search does not find the page behind it. -/
theorem replacement_not_found :
    ¬ ∀ moves state broken garbage page interrupted, system.Runs moves state →
      broken ∈ state.listed → Fresh state page →
      ∃ next, step state (.error broken garbage page interrupted) = some next ∧
        Replaced state.mem next.mem broken (.page page) := by
  intro claimed
  let moves : List Move := [.error (.buf 0) Buf.zero 0x87e02000 idle]
  have found : (LabelledSystem.exec step start moves).any (fun state =>
      decide (.buf 1 ∈ state.listed ∧ Fresh state 0x87e03000) &&
        (step state (.error (.buf 1) Buf.zero 0x87e03000 idle)).isNone) = true := by decide +kernel
  obtain ⟨state, result, facts⟩ := (Option.any_eq_true _ _).mp found
  rw [Bool.and_eq_true, decide_eq_true_eq, Option.isNone_iff_eq_none] at facts
  obtain ⟨⟨hit, fresh⟩, crash⟩ := facts
  have run : system.Runs moves state := .of_exec rfl result
  obtain ⟨next, taken, -⟩ := claimed moves state (.buf 1) Buf.zero 0x87e03000 idle run hit fresh
  rw [crash] at taken
  cases taken

end Ev6.BufferCache
