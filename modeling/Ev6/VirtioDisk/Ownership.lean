import Ev6.Support.RingBuffer
import Ev6.VirtioDisk.Descriptors
import Mathlib.Data.List.Perm.Subperm

/-!
# Owners of descriptors

A descriptor is taken exactly if it belongs to a request in flight, and no two requests
share one. The heads that the device has not answered, or whose answer has not been
acknowledged, are those of the requests whose buffer still belongs to the disk.
-/

namespace Ev6.VirtioDisk

open Function (update update_of_ne update_self)
open Support

/-! ## Descriptors -/

/-- The requests in flight own the descriptors that are taken. -/
structure Owned (desc : Nat → VRingDesc) (free : Nat → Bool)
    (requests : Fin nproc → Option Request) : Prop where
  chained : ∀ p request, requests p = some request → Chained desc free p request
  apart : ∀ p q request other, requests p = some request → requests q = some other → p ≠ q →
    ∀ i ∈ request.indices, i ∉ other.indices
  owner : ∀ i < num, free i = false → ∃ p request, requests p = some request ∧ i ∈ request.indices

section Owned

variable {desc : Nat → VRingDesc} {free : Nat → Bool} {requests : Fin nproc → Option Request}
  {p : Fin nproc} {request : Request}

theorem Request.head_mem (request : Request) : request.head ∈ request.indices := by
  simp [Request.indices]

variable {left : Nat → Bool} {after : Nat → VRingDesc}

/-- The descriptors of a request depend on its own words only. -/
theorem Chained.congr (chained : Chained desc free p request)
    (same : ∀ i ∈ request.indices, after i = desc i ∧ left i = free i) :
    Chained after left p request where
  low := chained.low
  distinct := chained.distinct
  taken i member := (same i member).2.trans (chained.taken i member)
  head := (same _ (by simp [Request.indices])).1.trans chained.head
  data := (same _ (by simp [Request.indices])).1.trans chained.data
  status := (same _ (by simp [Request.indices])).1.trans chained.status

theorem Owned.congr (owned : Owned desc free requests)
    (same : ∀ i, free i = false → after i = desc i) : Owned after free requests where
  chained p request flies := by
    have chained := owned.chained p request flies
    exact chained.congr fun i member => ⟨same i (chained.taken i member), rfl⟩
  apart := owned.apart
  owner := owned.owner

theorem Owned.add (owned : Owned desc free requests)
    (fresh : requests p = none) (chained : Chained after left p request)
    (idle : ∀ i ∈ request.indices, free i = true)
    (others : ∀ i, i ∉ request.indices → after i = desc i ∧ left i = free i) :
    Owned after left (update requests p (some request)) where
  chained q other flies := by
    by_cases same : q = p
    · subst same
      rw [update_self] at flies
      cases flies
      exact chained
    · rw [update_of_ne same] at flies
      have kept := owned.chained q other flies
      refine kept.congr fun i member => others i fun inside => ?_
      have taken := kept.taken i member
      rw [idle i inside] at taken
      cases taken
  apart first second one two oneFlies twoFlies different i inOne inTwo := by
    -- A descriptor of an earlier request was not free.
    have old : ∀ q other, requests q = some other → i ∈ other.indices → i ∉ request.indices := by
      intro q other flies member inside
      have taken := (owned.chained q other flies).taken i member
      rw [idle i inside] at taken
      cases taken
    by_cases isFirst : first = p
    · subst isFirst
      rw [update_self] at oneFlies
      rw [update_of_ne different.symm] at twoFlies
      cases oneFlies
      exact old second two twoFlies inTwo inOne
    · rw [update_of_ne isFirst] at oneFlies
      by_cases isSecond : second = p
      · subst isSecond
        rw [update_self] at twoFlies
        cases twoFlies
        exact old first one oneFlies inOne inTwo
      · rw [update_of_ne isSecond] at twoFlies
        exact owned.apart first second one two oneFlies twoFlies different i inOne inTwo
  owner i low taken := by
    by_cases inside : i ∈ request.indices
    · exact ⟨p, request, update_self .., inside⟩
    · rw [(others i inside).2] at taken
      obtain ⟨q, other, flies, member⟩ := owned.owner i low taken
      have different : q ≠ p := by
        rintro rfl
        rw [fresh] at flies
        cases flies
      exact ⟨q, other, by rwa [update_of_ne different], member⟩

theorem Owned.remove (owned : Owned desc free requests) (flies : requests p = some request)
    (freed : ∀ i ∈ request.indices, left i = true)
    (others : ∀ i, i ∉ request.indices → after i = desc i ∧ left i = free i) :
    Owned after left (update requests p none) where
  chained q other otherFlies := by
    have different : q ≠ p := by
      rintro rfl
      simp at otherFlies
    rw [update_of_ne different] at otherFlies
    refine (owned.chained q other otherFlies).congr fun i member => others i ?_
    exact owned.apart q p other request otherFlies flies different i member
  apart first second one two oneFlies twoFlies different := by
    have isFirst : first ≠ p := by
      rintro rfl
      simp at oneFlies
    have isSecond : second ≠ p := by
      rintro rfl
      simp at twoFlies
    rw [update_of_ne isFirst] at oneFlies
    rw [update_of_ne isSecond] at twoFlies
    exact owned.apart first second one two oneFlies twoFlies different
  owner i low taken := by
    have outside : i ∉ request.indices := by
      intro inside
      rw [freed i inside] at taken
      cases taken
    rw [(others i outside).2] at taken
    obtain ⟨q, other, otherFlies, member⟩ := owned.owner i low taken
    have different : q ≠ p := by
      rintro rfl
      rw [flies] at otherFlies
      cases otherFlies
      exact outside member
    exact ⟨q, other, by rwa [update_of_ne different], member⟩

end Owned

/-! ## Outstanding requests -/

/-- The heads on their way through the rings and the device, each once, are those of the
requests whose buffer belongs to the disk. -/
structure Outstanding (heads : List Nat) (disk : Nat → Bool)
    (requests : Fin nproc → Option Request) : Prop where
  once : heads.Nodup
  active : ∀ head, head ∈ heads ↔
    ∃ p request, requests p = some request ∧ request.head = head ∧ disk request.call.b = true

section Outstanding

variable {desc : Nat → VRingDesc} {free : Nat → Bool} {heads : List Nat} {disk : Nat → Bool}
  {requests : Fin nproc → Option Request} {p : Fin nproc} {request : Request}

theorem Outstanding.perm {after : List Nat} (out : Outstanding heads disk requests)
    (same : after.Perm heads) : Outstanding after disk requests where
  once := same.nodup_iff.mpr out.once
  active head := same.mem_iff.trans (out.active head)

/-- A new request whose buffer is given to the disk. -/
theorem Outstanding.add (out : Outstanding heads disk requests) (fresh : requests p = none)
    (new : request.head ∉ heads)
    (buffers : ∀ q other, requests q = some other → other.call.b ≠ request.call.b) :
    Outstanding (request.head :: heads) (update disk request.call.b true)
      (update requests p (some request)) where
  once := List.nodup_cons.mpr ⟨new, out.once⟩
  active head := by
    rw [List.mem_cons, out.active]
    constructor
    · rintro (rfl | ⟨q, other, flies, rfl, held⟩)
      · exact ⟨p, request, update_self .., rfl, update_self ..⟩
      · have different : q ≠ p := by
          rintro rfl
          rw [fresh] at flies
          cases flies
        exact ⟨q, other, by rwa [update_of_ne different], rfl,
          by rwa [update_of_ne (buffers q other flies)]⟩
    · rintro ⟨q, other, flies, rfl, held⟩
      by_cases same : q = p
      · subst same
        rw [update_self] at flies
        cases flies
        exact .inl rfl
      · rw [update_of_ne same] at flies
        rw [update_of_ne (buffers q other flies)] at held
        exact .inr ⟨q, other, flies, rfl, held⟩

theorem Outstanding.remove (out : Outstanding heads disk requests)
    (flies : requests p = some request) (done : disk request.call.b = false) :
    Outstanding heads disk (update requests p none) where
  once := out.once
  active head := by
    rw [out.active]
    constructor
    · rintro ⟨q, other, otherFlies, rfl, held⟩
      have different : q ≠ p := by
        rintro rfl
        rw [flies] at otherFlies
        cases otherFlies
        rw [done] at held
        cases held
      exact ⟨q, other, by rwa [update_of_ne different], rfl, held⟩
    · rintro ⟨q, other, otherFlies, rfl, held⟩
      have different : q ≠ p := by
        rintro rfl
        simp at otherFlies
      rw [update_of_ne different] at otherFlies
      exact ⟨q, other, otherFlies, rfl, held⟩

theorem Outstanding.acknowledge (out : Outstanding (request.head :: heads) disk requests)
    (owned : Owned desc free requests) (flies : requests p = some request)
    (buffers : ∀ q other, requests q = some other → q ≠ p → other.call.b ≠ request.call.b) :
    Outstanding heads (update disk request.call.b false) requests where
  once := (List.nodup_cons.mp out.once).2
  active head := by
    have fresh := (List.nodup_cons.mp out.once).1
    constructor
    · intro member
      obtain ⟨q, other, otherFlies, rfl, held⟩ := (out.active head).mp (List.mem_cons_of_mem _ member)
      have different : q ≠ p := by
        rintro rfl
        rw [flies] at otherFlies
        cases otherFlies
        exact fresh member
      exact ⟨q, other, otherFlies, rfl,
        by rwa [update_of_ne (buffers q other otherFlies different)]⟩
    · rintro ⟨q, other, otherFlies, rfl, held⟩
      have different : other.call.b ≠ request.call.b := by
        intro same
        rw [same, update_self] at held
        cases held
      rw [update_of_ne different] at held
      rcases List.mem_cons.mp ((out.active other.head).mpr ⟨q, other, otherFlies, rfl, held⟩) with
        same | member
      · have isOwner : q ≠ p := by
          rintro rfl
          rw [flies] at otherFlies
          cases otherFlies
          exact different rfl
        exact absurd (same ▸ request.head_mem)
          (owned.apart q p other request otherFlies flies isOwner other.head other.head_mem)
      · exact member

/-- A request has descriptors that are no heads, so that not all of them are on their way. -/
theorem Outstanding.length_lt (out : Outstanding heads disk requests)
    (owned : Owned desc free requests) : heads.length < num := by
  by_contra full
  have inside : heads ⊆ List.range num := by
    intro head member
    obtain ⟨p, request, flies, rfl, -⟩ := (out.active head).mp member
    exact List.mem_range.mpr ((owned.chained p request flies).low _ request.head_mem)
  have all : heads.Perm (List.range num) :=
    (out.once.subperm inside).perm_of_length_le (by simpa using full)
  obtain ⟨first, member⟩ : ∃ first, first ∈ heads := ⟨0, all.mem_iff.mpr (by decide)⟩
  obtain ⟨p, request, flies, rfl, -⟩ := (out.active first).mp member
  have chained := owned.chained p request flies
  have second : request.data ∈ request.indices := by simp [Request.indices]
  obtain ⟨q, other, otherFlies, same, -⟩ := (out.active request.data).mp
    (all.mem_iff.mpr (List.mem_range.mpr (chained.low _ second)))
  by_cases isOwner : q = p
  · subst isOwner
    rw [flies] at otherFlies
    cases otherFlies
    have distinct := chained.distinct
    simp [Request.indices, same] at distinct
  · exact owned.apart q p other request otherFlies flies isOwner other.head other.head_mem
      (same ▸ second)

end Outstanding

/-! ## The rings -/

/-- One side has written the stream, and the other side has read the first part of it. -/
structure Queue (cells : Nat → Nat) (count : UInt16) (stream read : List Nat) : Prop where
  window : Window num cells stream read.length
  count : count = UInt16.ofNat stream.length
  order : read = stream.take read.length

section Queue

variable {cells : Nat → Nat} {count : UInt16} {stream read : List Nat}

theorem num_dvd : num ∣ 2 ^ 16 := ⟨8192, rfl⟩

theorem Queue.push (queue : Queue cells count stream read)
    (room : (stream.drop read.length).length < num) (head : Nat) :
    Queue (update cells (count.toNat % num) head) (count + 1) (stream ++ [head]) read where
  window := by
    rw [queue.count, ofNat16_mod num_dvd]
    rw [List.length_drop] at room
    exact queue.window.push (by omega) head
  count := by rw [queue.count, ofNat16_succ, List.length_append, List.length_singleton]
  order := by
    rw [List.take_append_of_le_length queue.window.low]
    exact queue.order

theorem Queue.pop (queue : Queue cells count stream read) (filled : read.length < stream.length) :
    Queue cells count stream (read ++ [cells (read.length % num)]) ∧
      stream.drop read.length =
        cells (read.length % num) :: stream.drop (read ++ [cells (read.length % num)]).length := by
  have next := queue.window.next filled
  have length : (read ++ [cells (read.length % num)]).length = read.length + 1 := by simp
  refine ⟨⟨?_, queue.count, ?_⟩, by rwa [length]⟩
  · rw [length]
    exact queue.window.pop filled
  · have taken : stream.take (read.length + 1) = stream.take read.length ++ [cells (read.length % num)] := by
      rw [List.take_add_one, ← List.head?_drop, next]
      rfl
    rw [length, taken, ← queue.order]

/-- The reader has come to the end exactly if the counters agree in the ring. -/
theorem Queue.mod_eq_iff (queue : Queue cells count stream read)
    (room : (stream.drop read.length).length < num) :
    read.length % num = count.toNat % num ↔ read.length = stream.length := by
  have low := queue.window.low
  rw [List.length_drop] at room
  rw [queue.count, ofNat16_mod num_dvd]
  constructor
  · intro same
    by_contra different
    exact mod_ne_of_window (by omega) (by omega) same
  · intro same
    rw [same]

theorem Queue.read_eq (queue : Queue cells count stream read) :
    read = stream ↔ read.length = stream.length := by
  constructor
  · intro same
    rw [← same]
  · intro same
    have order := queue.order
    rwa [same, List.take_length] at order

end Queue

end Ev6.VirtioDisk
