import Ev6.FileSystem.UserCopy
import Ev6.PageTable.Leaves
import Ev6.Support.Stores

/-!
# User memory

`walkaddr` on a page table in memory, and `copyin`, `copyout` and `copyinstr` as copies of
flat user memory: the byte at a virtual address is the one at the physical address that
the page table maps it to for the user. A byte whose page is not mapped, or mapped to
physical address 0, is not part of user memory. Addresses are `uint64`; those from `MAXVA`
on are not mapped, so a range that runs over the end of the addresses is never copied.
-/

namespace Ev6.PageTable

open Option (filter_some isSome_map)
open Nat (mod_le mod_lt)
open Support FileSystem

/-- `walkaddr`. -/
def World.walkaddr (world : World) (pagetable va : Nat) : Nat :=
  if PageTable.maxva ≤ va then 0
  else
    match world.walk pagetable va false with
    | .ok (some (page, index), _) =>
      let pte := world.tables.memory page index
      if isValid pte = false then 0
      else if pte &&& pteU = 0 then 0
      else pte2pa pte
    | _ => 0

/-- The pages for which `walkaddr` does not return 0. -/
def World.userPages (world : World) (pagetable : Nat) : UserPages := fun page =>
  let pa := world.walkaddr pagetable (page * pgsize)
  if pa = 0 then none else some pa

namespace UserMemory

/-- What `copyinstr` has written to `dst`, and whether it returns 0. -/
structure CopyStr where
  bytes : List UInt8
  ok : Bool

/-- The inner loop of `copyinstr`: what it writes, and `got_null`. -/
def copyinstrPage (memory : Nat → UInt8) : Nat → Nat → List UInt8 × Bool
  | 0, _ => ([], false)
  | n + 1, p =>
    if memory p = 0 then ([0], true)
    else
      let rest := copyinstrPage memory n (p + 1)
      (memory p :: rest.1, rest.2)

/-- `copyinstr`. -/
def copyinstr (pagetable : UserPages) (memory : Nat → UInt8) (srcva max : Nat) : CopyStr :=
  if max = 0 then ⟨[], false⟩
  else
    match FileSystem.walkaddr pagetable (srcva - srcva % pgsize) with
    | none => ⟨[], false⟩
    | some pa0 =>
      let n := min (pgsize - srcva % pgsize) max
      let page := copyinstrPage memory n (pa0 + srcva % pgsize)
      if page.2 then ⟨page.1, true⟩
      else
        let rest := copyinstr pagetable memory (srcva - srcva % pgsize + pgsize) (max - n)
        ⟨page.1 ++ rest.bytes, rest.ok⟩
termination_by max
decreasing_by
  have inside := mod_lt srcva (show 0 < pgsize by decide)
  omega

/-! ## Flat user memory -/

/-- The physical address of a byte that the user may access. -/
def userAddress (world : World) (pagetable va : Nat) : Option Nat :=
  if PageTable.maxva ≤ va then none
  else
    (world.translation pagetable va).bind fun pte =>
      if pte &&& pteU = 0 ∨ pte2pa pte = 0 then none else some (pte2pa pte + va % pgsize)

/-- The address of byte `index` of a range of user memory. -/
def byteAddress (world : World) (pagetable va index : Nat) : Option Nat :=
  userAddress world pagetable ((va + index) % 2 ^ 64)

/-- Byte `index` of a range of user memory. -/
def flatByte (world : World) (pagetable : Nat) (memory : Nat → UInt8) (va index : Nat) : UInt8 :=
  memory ((byteAddress world pagetable va index).getD 0)

/-- The user may access the first bytes of a range. -/
def Accessible (world : World) (pagetable va len : Nat) : Prop :=
  ∀ index < len, (byteAddress world pagetable va index).isSome = true

variable {world : World} {pagetable va : Nat} {memory : Nat → UInt8}

theorem walk_page (world : World) (pagetable : Nat) (low : va < PageTable.maxva) :
    world.walk pagetable (va / pgsize * pgsize) false = world.walk pagetable va false := by
  obtain ⟨zero, one, two⟩ := path_page va
  have below : ¬ PageTable.maxva ≤ va := Nat.not_le.mpr low
  have start : ¬ PageTable.maxva ≤ va / pgsize * pgsize :=
    Nat.not_le.mpr (Nat.lt_of_le_of_lt (Nat.div_mul_le_self va pgsize) low)
  simp only [World.walk, World.walkLevel, if_neg below, if_neg start, zero, one, two]

theorem walkLevel_world {l2 table level : Nat} {res : Option Nat} {after : World}
    (done : world.walkLevel l2 table level va false = .ok (res, after)) : after = world := by
  unfold World.walkLevel at done
  by_cases valid : isValid (world.tables.memory table (px level va)) = true
  · simp only [valid, if_true, Except.ok.injEq, Prod.mk.injEq] at done
    exact done.2.symm
  · simp only [valid, Bool.false_eq_true, if_false, if_true, Except.ok.injEq,
      Prod.mk.injEq] at done
    exact done.2.symm

/-- Without the permission to allocate, `walk` changes nothing. -/
theorem walk_world {res : Option (Nat × Nat)} {after : World}
    (done : world.walk pagetable va false = .ok (res, after)) : after = world := by
  unfold World.walk at done
  split at done
  · cases done
  cases first : world.walkLevel pagetable pagetable 2 va false with
  | error panic => simp [first, Except.bind] at done
  | ok found =>
    obtain ⟨l1, middle⟩ := found
    obtain rfl := walkLevel_world first
    cases l1 with
    | none =>
      simp only [first, Except.bind, Except.ok.injEq, Prod.mk.injEq] at done
      exact done.2.symm
    | some l1 =>
      cases second : middle.walkLevel pagetable l1 1 va false with
      | error panic => simp [first, second, Except.bind, Except.map] at done
      | ok found =>
        obtain ⟨l0, last⟩ := found
        obtain rfl := walkLevel_world second
        simp only [first, second, Except.bind, Except.map, Except.ok.injEq,
          Prod.mk.injEq] at done
        exact done.2.symm

theorem walkaddr_userPages (world : World) (pagetable va : Nat) :
    (FileSystem.walkaddr (world.userPages pagetable) va).map (· + va % pgsize) =
      userAddress world pagetable (va % 2 ^ 64) := by
  have offset : va % 2 ^ 64 % pgsize = va % pgsize := by
    rw [pgsize_eq]
    omega
  have limits : FileSystem.maxva = PageTable.maxva := rfl
  unfold FileSystem.walkaddr userAddress
  rw [limits, offset]
  generalize va % 2 ^ 64 = a
  by_cases high : PageTable.maxva ≤ a
  · simp [high]
  · have low := Nat.not_le.mp high
    have start : ¬ PageTable.maxva ≤ a / pgsize * pgsize :=
      Nat.not_le.mpr (Nat.lt_of_le_of_lt (Nat.div_mul_le_self a pgsize) low)
    simp only [high, if_false, World.userPages, World.walkaddr, start, walk_page world pagetable low,
      World.translation]
    cases walked : world.walk pagetable a false with
    | error panic => simp
    | ok found =>
      obtain ⟨res, after⟩ := found
      obtain rfl := walk_world walked
      cases res with
      | none => simp
      | some place =>
        obtain ⟨page, index⟩ := place
        cases valid : isValid (after.tables.memory page index) with
        | false => simp [valid, filter_some]
        | true =>
          by_cases user : after.tables.memory page index &&& pteU = 0
          · simp [valid, user, filter_some]
          · by_cases zero : pte2pa (after.tables.memory page index) = 0
            · simp [valid, user, zero, filter_some]
            · simp [valid, user, zero, filter_some]

/-- Byte `index` of a range of user addresses, as the copies find it. -/
theorem byteAddress_eq (world : World) (pagetable va index : Nat) :
    byteAddress world pagetable va index =
      (FileSystem.walkaddr (world.userPages pagetable)
        (va + index - (va + index) % pgsize)).map (· + (va + index) % pgsize) := by
  have page : FileSystem.walkaddr (world.userPages pagetable) (va + index + 0) =
      FileSystem.walkaddr (world.userPages pagetable) (va + index - (va + index) % pgsize) :=
    walkaddr_page (va + index) 0 (mod_lt _ (by decide))
  rw [byteAddress, ← walkaddr_userPages, ← page, Nat.add_zero]

theorem accessible_iff (world : World) (pagetable va len : Nat) :
    Accessible world pagetable va len ↔ MappedRange (world.userPages pagetable) va len := by
  refine forall₂_congr fun index _ => ?_
  rw [byteAddress, ← walkaddr_userPages, isSome_map]

/-- Where a byte of user memory stands, as the copies find it. -/
def userPlace (pagetable : UserPages) (va : Nat) : Nat :=
  (FileSystem.walkaddr pagetable (va - va % pgsize)).getD 0 + va % pgsize

theorem userPlace_eq {index : Nat} (there : (byteAddress world pagetable va index).isSome = true) :
    userPlace (world.userPages pagetable) (va + index) =
      (byteAddress world pagetable va index).getD 0 := by
  rw [byteAddress_eq, isSome_map] at there
  obtain ⟨pa0, found⟩ := Option.isSome_iff_exists.mp there
  rw [byteAddress_eq, userPlace, found]
  rfl

/-- The bytes of an accessible range are those that the copies read. -/
theorem flatByte_eq {index : Nat} (there : (byteAddress world pagetable va index).isSome = true) :
    flatByte world pagetable memory va index =
      userByte (world.userPages pagetable) memory (va + index) := by
  rw [flatByte, ← userPlace_eq there]
  rfl

/-! ## `copyinstr` -/

theorem copyinstrPage_spec (memory : Nat → UInt8) (n p : Nat) :
    (copyinstrPage memory n p = (extract memory p n, false) ∧ ∀ j < n, memory (p + j) ≠ 0) ∨
    ∃ k < n, copyinstrPage memory n p = (extract memory p (k + 1), true) ∧
      memory (p + k) = 0 ∧ ∀ j < k, memory (p + j) ≠ 0 := by
  induction n generalizing p with
  | zero => exact .inl ⟨rfl, fun j low => absurd low (Nat.not_lt_zero j)⟩
  | succ n ih =>
    have next : ∀ j, p + (j + 1) = p + 1 + j := fun j => by omega
    by_cases zero : memory p = 0
    · exact .inr ⟨0, Nat.succ_pos n, by simp [copyinstrPage, zero, extract_succ], zero,
        fun j low => absurd low (Nat.not_lt_zero j)⟩
    · have further : ∀ k, (∀ j < k, memory (p + 1 + j) ≠ 0) →
          ∀ j < k + 1, memory (p + j) ≠ 0 := by
        rintro k filled (_ | j) low
        · exact zero
        · rw [next]
          exact filled j (Nat.lt_of_succ_lt_succ low)
      rcases ih (p + 1) with ⟨goes, filled⟩ | ⟨k, low, stops, null, filled⟩
      · exact .inl ⟨by simp [copyinstrPage, zero, goes, extract_succ], further n filled⟩
      · refine .inr ⟨k + 1, Nat.succ_lt_succ low, ?_, by rwa [next], further k filled⟩
        rw [copyinstrPage, if_neg zero, stops, extract_succ memory p]

/-- The first NUL in a range, with everything in front of it accessible. -/
structure Ends (pagetable : UserPages) (memory : Nat → UInt8) (va k : Nat) : Prop where
  mapped : MappedRange pagetable va (k + 1)
  null : userByte pagetable memory (va + k) = 0
  first : ∀ j < k, userByte pagetable memory (va + j) ≠ 0

/-- A range without a NUL, all of it or up to a byte that is not accessible. -/
structure Endless (pagetable : UserPages) (memory : Nat → UInt8) (va max k : Nat) : Prop where
  inside : k ≤ max
  mapped : MappedRange pagetable va k
  none : ∀ j < k, userByte pagetable memory (va + j) ≠ 0
  stops : k = max ∨ FileSystem.walkaddr pagetable (va + k) = Option.none

theorem copyinstr_spec (pagetable : UserPages) (memory : Nat → UInt8) (srcva max : Nat) :
    (∃ k < max, Ends pagetable memory srcva k ∧
      copyinstr pagetable memory srcva max =
        ⟨extract (userByte pagetable memory) srcva (k + 1), true⟩) ∨
    ∃ k, Endless pagetable memory srcva max k ∧
      copyinstr pagetable memory srcva max =
        ⟨extract (userByte pagetable memory) srcva k, false⟩ := by
  fun_induction copyinstr pagetable memory srcva max with
  | case1 srcva => exact .inr ⟨0, ⟨le_rfl, .zero _ _, fun j low => absurd low (Nat.not_lt_zero j),
      .inl rfl⟩, rfl⟩
  | case2 srcva max positive page =>
    refine .inr ⟨0, ⟨Nat.zero_le _, .zero _ _, fun j low => absurd low (Nat.not_lt_zero j),
      .inr ?_⟩, rfl⟩
    rw [walkaddr_page srcva 0 (mod_lt srcva (by decide)), page]
  | case3 srcva max positive pa0 page n copied stops =>
    have here : ∀ j < n, userByte pagetable memory (srcva + j) =
        memory (pa0 + srcva % pgsize + j) := fun j low => userByte_page page (by omega)
    have mapped : (FileSystem.walkaddr pagetable (srcva - srcva % pgsize)).isSome = true := by
      rw [page]
      rfl
    rcases copyinstrPage_spec memory n (pa0 + srcva % pgsize) with
      ⟨goes, -⟩ | ⟨k, low, found, null, filled⟩
    · have never : copied.2 = false := congrArg Prod.snd goes
      rw [never] at stops
      cases stops
    · have bytes : extract memory (pa0 + srcva % pgsize) (k + 1) =
          extract (userByte pagetable memory) srcva (k + 1) :=
        extract_shift fun j inside => (here j (by omega)).symm
      refine .inl ⟨k, by omega, ⟨.page (by omega) mapped, ?_, ?_⟩, ?_⟩
      · rw [here k low, null]
      · intro j before
        rw [here j (by omega)]
        exact filled j before
      · have copy : copied.1 = _ := congrArg Prod.fst found
        rw [copy, bytes]
  | case4 srcva max positive pa0 page n copied goes rest ih =>
    have offset : srcva % pgsize < pgsize := mod_lt srcva (by decide)
    have here : ∀ j < n, userByte pagetable memory (srcva + j) =
        memory (pa0 + srcva % pgsize + j) := fun j low => userByte_page page (by omega)
    have whole : MappedRange pagetable srcva n := .page (by omega) (page ▸ rfl)
    rcases copyinstrPage_spec memory n (pa0 + srcva % pgsize) with
      ⟨found, filled⟩ | ⟨k, low, found, -⟩
    · have copy : copied.1 = extract (userByte pagetable memory) srcva n :=
        (congrArg Prod.fst found).trans (extract_shift fun j inside => (here j inside).symm)
      have before : ∀ j < n, userByte pagetable memory (srcva + j) ≠ 0 := fun j low => by
        rw [here j low]
        exact filled j low
      rw [copy]
      by_cases short : max - n = 0
      · -- The range ends in this page.
        have end_eq : n = max := by omega
        rcases ih with ⟨k, low, -⟩ | ⟨k, ended, result⟩
        · omega
        · obtain rfl : k = 0 := by have inside := ended.inside; omega
          have nothing : rest = ⟨[], false⟩ := result
          exact .inr ⟨n, ⟨le_of_eq end_eq, whole, before, .inl end_eq⟩, by rw [nothing]; simp⟩
      · have next : srcva - srcva % pgsize + pgsize = srcva + n := by
          have below := mod_le srcva pgsize
          omega
        have later : ∀ k, (∀ j < k, userByte pagetable memory (srcva + n + j) ≠ 0) →
            ∀ j < n + k, userByte pagetable memory (srcva + j) ≠ 0 := by
          intro k behind j low
          by_cases early : j < n
          · exact before j early
          · have late := behind (j - n) (by omega)
            rwa [Nat.add_assoc, Nat.add_sub_cancel' (Nat.not_lt.mp early)] at late
        rw [next] at ih
        rcases ih with ⟨k, low, ends, result⟩ | ⟨k, ended, result⟩
        · have copyRest : rest = _ :=
            (congrArg (copyinstr pagetable memory · (max - n)) next).trans result
          refine .inl ⟨n + k, by omega, ⟨?_, ?_, later k ends.first⟩, ?_⟩
          · rw [Nat.add_assoc]
            exact MappedRange.add.mpr ⟨whole, ends.mapped⟩
          · rw [← Nat.add_assoc]
            exact ends.null
          · rw [copyRest, Nat.add_assoc, extract_add _ srcva n (k + 1)]
        · have copyRest : rest = _ :=
            (congrArg (copyinstr pagetable memory · (max - n)) next).trans result
          have inside := ended.inside
          refine .inr ⟨n + k, ⟨by omega, MappedRange.add.mpr ⟨whole, ended.mapped⟩,
            later k ended.none, ?_⟩, ?_⟩
          · rw [← Nat.add_assoc]
            exact ended.stops.imp_left fun stops => by omega
          · rw [copyRest, extract_add _ srcva n k]
    · have stops : copied.2 = true := congrArg Prod.snd found
      exact absurd stops goes

/-! ## `copyout` -/

theorem userPlace_page {pages : UserPages} {index pa0 : Nat}
    (page : FileSystem.walkaddr pages (va - va % pgsize) = some pa0)
    (inside : va % pgsize + index < pgsize) :
    userPlace pages (va + index) = pa0 + va % pgsize + index := by
  have below := mod_le va pgsize
  have offset : (va + index) % pgsize = va % pgsize + index := by
    rw [Nat.add_mod, Nat.mod_eq_of_lt (show index < pgsize by omega), Nat.mod_eq_of_lt inside]
  have start : va + index - (va % pgsize + index) = va - va % pgsize := by omega
  rw [userPlace, offset, start, page, Option.getD_some, ← Nat.add_assoc]

/-- A copy to an accessible range stores its bytes one after the other. -/
theorem copyout_memory {pages : UserPages} {dstva : Nat} {src : List UInt8}
    (mapped : MappedRange pages dstva src.length) :
    copyout pages memory dstva src =
      ⟨storeAll (fun index => userPlace pages (dstva + index)) src memory, src.length, true⟩ := by
  fun_induction copyout pages memory dstva src with
  | case1 memory dstva src empty =>
    obtain rfl := List.length_eq_zero_iff.mp empty
    rfl
  | case2 memory dstva src positive page =>
    exact absurd mapped (MappedRange.not_of_page positive page)
  | case3 memory dstva src positive pa0 page n rest ih =>
    have offset : dstva % pgsize < pgsize := mod_lt dstva (by decide)
    have below := mod_le dstva pgsize
    have further := (MappedRange.step (page ▸ rfl)).mp mapped
    rw [List.length_drop] at ih
    have behind : rest = _ := ih further
    have front : (src.take n).length = n := by simp [n]
    have here : storeAll (fun index => userPlace pages (dstva + index)) (src.take n) memory =
        patch memory (pa0 + dstva % pgsize) (src.take n) := by
      rw [← storeAll_patch]
      exact storeAll_congr (fun index low => userPlace_page page (by omega)) memory
    have parts : storeAll (fun index => userPlace pages (dstva + index)) src memory =
        storeAll (fun index => userPlace pages (dstva + (n + index))) (src.drop n)
          (patch memory (pa0 + dstva % pgsize) (src.take n)) := by
      conv_lhs => rw [← List.take_append_drop n src, storeAll_append, here, front]
    have same : storeAll (fun index =>
          userPlace pages (dstva - dstva % pgsize + pgsize + index)) (src.drop n)
          (patch memory (pa0 + dstva % pgsize) (src.take n)) =
        storeAll (fun index => userPlace pages (dstva + (n + index))) (src.drop n)
          (patch memory (pa0 + dstva % pgsize) (src.take n)) := by
      refine storeAll_congr (fun index low => ?_) _
      rw [List.length_drop] at low
      congr 1
      omega
    have count : n + (src.length - n) = src.length := by omega
    rw [behind, parts, ← same]
    dsimp only
    rw [count]

/-! ## The copies on a page table in memory -/

/-- The first bytes of a range of user memory. -/
def flatBytes (world : World) (pagetable : Nat) (memory : Nat → UInt8) (va len : Nat) :
    List UInt8 :=
  (List.range len).map (flatByte world pagetable memory va)

theorem flatBytes_eq {len : Nat} (accessible : Accessible world pagetable va len) :
    flatBytes world pagetable memory va len =
      extract (userByte (world.userPages pagetable) memory) va len := by
  refine List.map_congr_left fun index member => ?_
  exact flatByte_eq (accessible index (List.mem_range.mp member))

/-- `copyin`, `copyout` and `copyinstr` are copies of flat user memory, for every page table,
address and length. -/
theorem copies_flat (world : World) (pagetable : Nat) (memory : Nat → UInt8) (va : Nat) :
    (∀ len, (Accessible world pagetable va len ∧
          copyin (world.userPages pagetable) memory va len =
            ⟨flatBytes world pagetable memory va len, true⟩) ∨
        (¬ Accessible world pagetable va len ∧
          (copyin (world.userPages pagetable) memory va len).ok = false)) ∧
    (∀ src, (Accessible world pagetable va src.length ∧
          copyout (world.userPages pagetable) memory va src =
            ⟨storeAll (fun index => (byteAddress world pagetable va index).getD 0) src memory,
              src.length, true⟩) ∨
        (¬ Accessible world pagetable va src.length ∧
          (copyout (world.userPages pagetable) memory va src).ok = false)) ∧
    ∀ max, (copyinstr (world.userPages pagetable) memory va max).bytes.length ≤ max ∧
      ((∃ k < max, Accessible world pagetable va (k + 1) ∧
          flatByte world pagetable memory va k = 0 ∧
          (∀ j < k, flatByte world pagetable memory va j ≠ 0) ∧
          copyinstr (world.userPages pagetable) memory va max =
            ⟨flatBytes world pagetable memory va (k + 1), true⟩) ∨
        ((¬ ∃ k < max, Accessible world pagetable va (k + 1) ∧
            flatByte world pagetable memory va k = 0) ∧
          (copyinstr (world.userPages pagetable) memory va max).ok = false)) := by
  refine ⟨fun len => ?_, fun src => ?_, fun max => ?_⟩
  · have ends := copyin_ok (world.userPages pagetable) memory va len
    rw [← accessible_iff] at ends
    by_cases accessible : Accessible world pagetable va len
    · have bytes : (copyin (world.userPages pagetable) memory va len).bytes =
          extract (userByte (world.userPages pagetable) memory) va len :=
        copyin_bytes ((accessible_iff ..).mp accessible)
      rw [← flatBytes_eq accessible] at bytes
      refine .inl ⟨accessible, ?_⟩
      rw [← bytes, ← ends.mpr accessible]
    · refine .inr ⟨accessible, ?_⟩
      rw [← Bool.not_eq_true, ends]
      exact accessible
  · have ends := copyout_ok (world.userPages pagetable) memory va src
    rw [← accessible_iff] at ends
    by_cases accessible : Accessible world pagetable va src.length
    · refine .inl ⟨accessible, ?_⟩
      rw [copyout_memory ((accessible_iff ..).mp accessible),
        storeAll_congr (fun index low => userPlace_eq (accessible index low)) memory]
    · refine .inr ⟨accessible, ?_⟩
      rw [← Bool.not_eq_true, ends]
      exact accessible
  · have chars : ∀ {k}, Accessible world pagetable va k → ∀ j < k,
        flatByte world pagetable memory va j =
          userByte (world.userPages pagetable) memory (va + j) :=
      fun accessible j low => flatByte_eq (accessible j low)
    rcases copyinstr_spec (world.userPages pagetable) memory va max with
      ⟨k, low, ends, result⟩ | ⟨k, endless, result⟩
    · have accessible := (accessible_iff ..).mpr ends.mapped
      have read := chars accessible
      rw [result, ← flatBytes_eq accessible]
      have length : (flatBytes world pagetable memory va (k + 1)).length ≤ max := by
        rw [flatBytes, List.length_map, List.length_range]
        exact low
      refine ⟨length, .inl ⟨k, low, accessible, ?_, ?_, rfl⟩⟩
      · rw [read k (Nat.lt_succ_self k), ends.null]
      · intro j before
        rw [read j (by omega)]
        exact ends.first j before
    · have inside := endless.inside
      rw [result]
      refine ⟨by simpa using inside, .inr ⟨?_, rfl⟩⟩
      rintro ⟨other, low, accessible, null⟩
      rw [chars accessible other (Nat.lt_succ_self other)] at null
      by_cases before : other < k
      · exact endless.none other before null
      · -- The byte at which the copy has stopped is in front of the NUL.
        have mapped := (accessible_iff ..).mp accessible k (by omega)
        rcases endless.stops with whole | unmapped
        · omega
        · rw [unmapped] at mapped
          cases mapped

end UserMemory

end Ev6.PageTable
