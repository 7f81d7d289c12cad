import Ev6.FileSystem.Names
import Ev6.Support.CString
import Mathlib.Data.List.DropRight

/-!
# Path names as strings

`skipelem` on a path as it stands in memory. Its loops read one byte after the other, so
each takes a bound on its passes and gives `none` when the bound is too small; a bound
above the length of the string is enough. `skipelem_string` says what one call does to a
string, and `elements_string` what calling it again and again yields.
-/

namespace Ev6.FileSystem.PathName

open Support

/-- `'/'`. -/
def slash : UInt8 := 47

/-- `PHYSTOP - KERNBASE`: no object in memory is larger. -/
def ramSize : Nat := 128 * 1024 * 1024

/-- The bytes from an address on, up to a zero. -/
def StringAt (memory : Nat → UInt8) : Nat → List UInt8 → Prop
  | path, [] => memory path = 0
  | path, byte :: rest => memory path = byte ∧ byte ≠ 0 ∧ StringAt memory (path + 1) rest

/-- A path name in memory. -/
structure PathAt (memory : Nat → UInt8) (path : Nat) (bytes : List UInt8) : Prop where
  string : StringAt memory path bytes
  inRam : bytes.length ≤ ramSize

/-! ## The code -/

/-- `while(inside(*path)) path++`. -/
def advance (memory : Nat → UInt8) (inside : UInt8 → Bool) : Nat → Nat → Option Nat
  | 0, _ => none
  | fuel + 1, path =>
    if inside (memory path) then advance memory inside fuel (path + 1) else some path

/-- The bytes that the first and the third loop of `skipelem` pass over. -/
def isSlash (byte : UInt8) : Bool := byte == slash

/-- The bytes that the second loop of `skipelem` passes over. -/
def inElement (byte : UInt8) : Bool := byte != slash && byte != 0

/-- The copying in `skipelem`: `len` is an `int`, and `memmove` takes an `uint`. -/
def copyElement (memory : Nat → UInt8) (s : Nat) (len : BitVec 32) (name : Nat → UInt8) :
    Nat → UInt8 :=
  if (dirsiz : Int) ≤ len.toInt then patch name 0 (extract memory s dirsiz)
  else patch (patch name 0 (extract memory s len.toNat)) len.toNat [0]

/-- `skipelem`: the returned pointer, with `none` for 0, and the bytes at `name`. -/
def skipelem (memory : Nat → UInt8) (fuel path : Nat) (name : Nat → UInt8) :
    Option (Option Nat × (Nat → UInt8)) := do
  let s ← advance memory isSlash fuel path
  if memory s = 0 then
    some (none, name)
  else do
    let behind ← advance memory inElement fuel s
    let rest ← advance memory isSlash fuel behind
    some (some rest, copyElement memory s (BitVec.ofNat 32 (behind - s)) name)

/-- What `namecmp` compares of the bytes at `name`. -/
def entryName (name : Nat → UInt8) : List UInt8 := cname (extract name 0 dirsiz)

/-- The bytes at `name` after each of the calls of `skipelem` that do not return 0. -/
def elements (memory : Nat → UInt8) (fuel : Nat) :
    Nat → Nat → (Nat → UInt8) → Option (List (Nat → UInt8))
  | 0, _, _ => none
  | left + 1, path, name =>
    match skipelem memory fuel path name with
    | none => none
    | some (none, _) => some []
    | some (some path, name) => (elements memory fuel left path name).map (name :: ·)

/-! ## The elements of a string -/

/-- The non-empty parts of a string between its slashes, each cut to `DIRSIZ` bytes. -/
def components (bytes : List UInt8) : List (List UInt8) :=
  ((bytes.splitOn slash).filter fun part => !part.isEmpty).map fun part => part.take dirsiz

/-- An element as `skipelem` copies it to `name`: at most `DIRSIZ` bytes, with a zero
behind them if there are less. -/
structure Names (name : Nat → UInt8) (element : List UInt8) : Prop where
  copied : extract name 0 element.length = element
  terminated : element.length < dirsiz → name element.length = 0
  short : element.length ≤ dirsiz
  plain : Unterminated element

/-- `namecmp` compares all of an element and nothing behind it. -/
theorem Names.entryName_eq {name : Nat → UInt8} {element : List UInt8}
    (names : Names name element) : entryName name = element := by
  have whole : ∀ rest, Unterminated element →
      cString (element ++ rest) = element ++ cString rest := fun rest plain =>
    List.takeWhile_append_of_pos fun byte member => by simpa using plain byte member
  have cut : entryName name = cString (extract name 0 dirsiz) := by
    rw [entryName, cname, List.take_of_length_le (by simp)]
    rfl
  rw [cut]
  rcases Nat.lt_or_eq_of_le names.short with shorter | exact
  · obtain ⟨left, size⟩ : ∃ left, dirsiz = element.length + (1 + left) :=
      ⟨dirsiz - element.length - 1, by omega⟩
    have zero : extract name (0 + element.length) 1 = [0] := by
      simp [extract, names.terminated shorter]
    rw [size, extract_add, extract_add, names.copied, zero, whole _ names.plain]
    simp
  · have bytes := whole [] names.plain
    rw [List.append_nil, cString_nil, List.append_nil] at bytes
    rw [← exact, names.copied, bytes]

example : components [47, 47, 97, 98, 47, 47, 99, 47] = [[97, 98], [99]] := by decide

theorem components_nil : components [] = [] := rfl

theorem components_slash (bytes : List UInt8) : components (slash :: bytes) = components bytes := by
  simp [components, List.splitOn, List.splitOnP_cons_eq_if_modifyHead]

theorem components_dropSlashes (bytes : List UInt8) :
    components (bytes.dropWhile isSlash) = components bytes := by
  induction bytes with
  | nil => rfl
  | cons byte rest ih =>
    by_cases same : byte = slash
    · subst same
      rw [components_slash, ← ih]
      simp [isSlash]
    · simp [isSlash, same]

/-- The parts of a list that starts with bytes other than slashes. -/
theorem splitOn_element {element : List UInt8} (plain : ∀ byte ∈ element, byte ≠ slash)
    (rest : List UInt8) : (element ++ slash :: rest).splitOn slash =
      element :: rest.splitOn slash := by
  induction element with
  | nil => simp [List.splitOn, List.splitOnP_cons_eq_if_modifyHead]
  | cons byte element ih =>
    have other : byte ≠ slash := plain byte List.mem_cons_self
    have behind := ih fun byte member => plain byte (List.mem_cons_of_mem _ member)
    simp only [List.splitOn] at behind
    simp [List.splitOn, List.splitOnP_cons_eq_if_modifyHead, other, behind]

theorem splitOn_last {element : List UInt8} (plain : ∀ byte ∈ element, byte ≠ slash) :
    element.splitOn slash = [element] := by
  induction element with
  | nil => rfl
  | cons byte element ih =>
    have other : byte ≠ slash := plain byte List.mem_cons_self
    have behind := ih fun byte member => plain byte (List.mem_cons_of_mem _ member)
    simp only [List.splitOn] at behind
    simp [List.splitOn, List.splitOnP_cons_eq_if_modifyHead, other, behind]

/-- The first part of a string that does not start with a slash. -/
theorem components_element {bytes : List UInt8} (nonempty : bytes ≠ [])
    (start : bytes.head nonempty ≠ slash) :
    components bytes = (bytes.takeWhile fun byte => byte != slash).take dirsiz ::
      components (bytes.dropWhile fun byte => byte != slash) := by
  have plain : ∀ byte ∈ bytes.takeWhile (fun byte => byte != slash), byte ≠ slash :=
    fun byte member => by simpa using List.mem_takeWhile_imp member
  have filled : bytes.takeWhile (fun byte => byte != slash) ≠ [] := by
    cases bytes with
    | nil => exact absurd rfl nonempty
    | cons byte rest =>
      have other : byte ≠ slash := start
      simp [other]
  have whole := List.takeWhile_append_dropWhile (p := fun byte => byte != slash) (l := bytes)
  cases behind : bytes.dropWhile (fun byte => byte != slash) with
  | nil =>
    rw [behind, List.append_nil] at whole
    have single := splitOn_last plain
    rw [whole] at single filled
    rw [components, single, whole, components_nil]
    simp [nonempty]
  | cons byte rest =>
    have found : byte = slash := by
      have stops := List.head_dropWhile_not (fun byte => byte != slash) (l := bytes) (by simp [behind])
      simpa [behind] using stops
    subst found
    have split := splitOn_element plain rest
    rw [← behind, whole] at split
    rw [components_slash, components, split]
    simp [components, filled]

/-! ## Strings in memory -/

variable {memory : Nat → UInt8} {path fuel : Nat} {bytes : List UInt8} {name : Nat → UInt8}

theorem StringAt.unterminated (string : StringAt memory path bytes) : Unterminated bytes := by
  induction bytes generalizing path with
  | nil => simp [Unterminated]
  | cons byte rest ih =>
    obtain ⟨-, nonzero, behind⟩ := string
    intro other member
    rcases List.mem_cons.mp member with rfl | later
    · exact nonzero
    · exact ih behind other later

/-- The byte that a pointer into a string points to. -/
theorem StringAt.first (string : StringAt memory path bytes) : memory path = bytes.headD 0 := by
  cases bytes with
  | nil => exact string
  | cons byte rest => exact string.1

theorem StringAt.first_eq_zero (string : StringAt memory path bytes) :
    memory path = 0 ↔ bytes = [] := by
  cases bytes with
  | nil =>
    have zero : memory path = 0 := string
    simp [zero]
  | cons byte rest => simp [string.1, string.2.1]

theorem StringAt.extract (string : StringAt memory path bytes) {count : Nat}
    (inside : count ≤ bytes.length) : extract memory path count = bytes.take count := by
  induction count generalizing path bytes with
  | zero => simp
  | succ count ih =>
    cases bytes with
    | nil => simp at inside
    | cons byte rest =>
      have behind := ih string.2.2 (by simpa using inside)
      rw [extract_succ, behind, string.1, List.take_succ_cons]

/-- A loop over the bytes of a string ends at the first byte that it does not pass. -/
theorem advance_string (inside : UInt8 → Bool) (string : StringAt memory path bytes)
    (stops : inside 0 = false) (enough : bytes.length < fuel) :
    advance memory inside fuel path = some (path + (bytes.takeWhile inside).length) ∧
      StringAt memory (path + (bytes.takeWhile inside).length) (bytes.dropWhile inside) := by
  induction bytes generalizing path fuel with
  | nil =>
    obtain ⟨left, rfl⟩ : ∃ left, fuel = left + 1 := ⟨fuel - 1, by simp at enough; omega⟩
    have zero : memory path = 0 := string
    simp [advance, zero, stops, StringAt]
  | cons byte rest ih =>
    obtain ⟨left, rfl⟩ : ∃ left, fuel = left + 1 := ⟨fuel - 1, by simp at enough; omega⟩
    obtain ⟨here, nonzero, behind⟩ := string
    by_cases passed : inside byte = true
    · have further := ih behind (by simpa using enough)
      have place : path + ((byte :: rest).takeWhile inside).length =
          path + 1 + (rest.takeWhile inside).length := by
        simp [passed]
        omega
      rw [place]
      simpa [advance, here, passed] using further
    · simp [advance, here, passed, nonzero, behind, StringAt]

/-! ## One call of `skipelem` -/

/-- The cut to `DIRSIZ` bytes, and the zero behind a short element. -/
theorem copyElement_names {s : Nat} {element : List UInt8}
    (copied : extract memory s element.length = element) (small : element.length ≤ ramSize)
    (plain : Unterminated element) (name : Nat → UInt8) :
    Names (copyElement memory s (BitVec.ofNat 32 element.length) name) (element.take dirsiz) ∧
      ∀ index, dirsiz ≤ index →
        copyElement memory s (BitVec.ofNat 32 element.length) name index = name index := by
  have size : dirsiz = 14 := rfl
  have ram : ramSize = 134217728 := rfl
  have length : (BitVec.ofNat 32 element.length).toNat = element.length := by
    rw [BitVec.toNat_ofNat]
    omega
  have signed : (BitVec.ofNat 32 element.length).toInt = element.length := by
    rw [BitVec.toInt_eq_toNat_of_lt (by rw [length]; omega), length]
  have front : ∀ count, count ≤ element.length → extract memory s count = element.take count := by
    intro count inside
    have parts := extract_add memory s count (element.length - count)
    rw [Nat.add_sub_cancel' inside, copied] at parts
    rw [parts, List.take_append_of_le_length (by simp), List.take_of_length_le (by simp)]
  have cut : Unterminated (element.take dirsiz) := fun byte member =>
    plain byte (List.mem_of_mem_take member)
  unfold copyElement
  rw [signed, length]
  by_cases long : dirsiz ≤ element.length
  · rw [if_pos (by exact_mod_cast long), front dirsiz long]
    have whole : (element.take dirsiz).length = dirsiz := by simp [long]
    refine ⟨⟨?_, ?_, by simp, cut⟩, ?_⟩
    · exact extract_patch name 0 (element.take dirsiz)
    · intro short
      omega
    · intro index above
      exact patch_behind (by omega)
  · rw [if_neg (by exact_mod_cast long), copied, List.take_of_length_le (by omega)]
    refine ⟨⟨?_, ?_, by omega, plain⟩, ?_⟩
    · have kept : extract (patch (patch name 0 element) element.length [0]) 0 element.length =
          extract (patch name 0 element) 0 element.length :=
        extract_congr fun index inside => patch_before (by omega)
      rw [kept, extract_patch]
    · intro _
      have inside : 0 < [(0 : UInt8)].length := by simp
      exact patch_inside inside
    · intro index above
      rw [patch_behind (by simp; omega), patch_behind (by omega)]

/-- In a string without zeros, the second loop passes the bytes up to the next slash. -/
theorem element_plain (plain : Unterminated bytes) :
    bytes.takeWhile inElement = bytes.takeWhile (fun byte => byte != slash) ∧
      bytes.dropWhile inElement = bytes.dropWhile fun byte => byte != slash := by
  induction bytes with
  | nil => exact ⟨rfl, rfl⟩
  | cons byte rest ih =>
    have nonzero := plain byte List.mem_cons_self
    obtain ⟨taken, dropped⟩ := ih plain.tail
    have same : inElement byte = (byte != slash) := by simp [inElement, nonzero]
    simp [List.takeWhile_cons, List.dropWhile_cons, same, taken, dropped]

/-- Without slashes in front, only the empty string has no element. -/
theorem components_eq_nil (stripped : bytes.dropWhile isSlash = bytes) :
    components bytes = [] ↔ bytes = [] := by
  constructor
  · intro none
    by_contra nonempty
    have start := List.head_dropWhile_not isSlash (l := bytes) (by rwa [stripped])
    simp only [stripped] at start
    rw [components_element nonempty (by simpa [isSlash] using start)] at none
    cases none
  · rintro rfl
    rfl

/-- What a call of `skipelem` does with a string: the element at `name`, and the rest of
the string without the slashes in front of it. -/
structure Skipped (memory : Nat → UInt8) (bytes : List UInt8) (name : Nat → UInt8)
    (element rest : List UInt8) (path : Nat) (copy : Nat → UInt8) : Prop where
  split : components bytes = element :: components rest
  string : StringAt memory path rest
  shorter : rest.length < bytes.length
  last : memory path = 0 ↔ components rest = []
  names : Names copy element
  frame : ∀ index, dirsiz ≤ index → copy index = name index

/-- `skipelem` on a string that starts with its first element. -/
theorem skipelem_element {s : Nat} (string : StringAt memory s bytes)
    (small : bytes.length ≤ ramSize) (enough : bytes.length < fuel) (nonempty : bytes ≠ [])
    (start : bytes.head nonempty ≠ slash) (name : Nat → UInt8) :
    ∃ element rest behind path, advance memory inElement fuel s = some behind ∧
      advance memory isSlash fuel behind = some path ∧
      Skipped memory bytes name element rest path
        (copyElement memory s (BitVec.ofNat 32 (behind - s)) name) := by
  obtain ⟨second, atSecond⟩ := advance_string inElement string (by decide) enough
  obtain ⟨taken, dropped⟩ := element_plain string.unterminated
  rw [taken] at second atSecond
  rw [dropped] at atSecond
  have parts := List.takeWhile_append_dropWhile (p := fun byte => byte != slash) (l := bytes)
  have split := components_element nonempty start
  have plain : Unterminated (bytes.takeWhile fun byte => byte != slash) := fun byte member =>
    string.unterminated byte ((List.takeWhile_prefix _).subset member)
  have filled : 0 < (bytes.takeWhile fun byte => byte != slash).length := by
    cases bytes with
    | nil => exact absurd rfl nonempty
    | cons byte rest =>
      have other : byte ≠ slash := start
      simp [other]
  generalize bytes.takeWhile (fun byte => byte != slash) = element at *
  generalize bytes.dropWhile (fun byte => byte != slash) = tail at *
  have lengths := congrArg List.length parts
  rw [List.length_append] at lengths
  have further : tail.length < fuel := by omega
  obtain ⟨third, atThird⟩ := advance_string isSlash atSecond (by decide) further
  have tailShort : (tail.dropWhile isSlash).length ≤ tail.length :=
    (List.dropWhile_suffix _).length_le
  have copied : extract memory s element.length = element := by
    rw [string.extract (by omega), ← parts, List.take_left]
  obtain ⟨names, frame⟩ := copyElement_names copied (by omega) plain name
  refine ⟨element.take dirsiz, tail.dropWhile isSlash, _, _, second, third, ?_⟩
  rw [Nat.add_sub_cancel_left]
  exact {
    split := by rw [components_dropSlashes, split]
    string := atThird
    shorter := by omega
    last := by
      exact atThird.first_eq_zero.trans (components_eq_nil (List.dropWhile_idempotent _ _)).symm
    names := names
    frame := frame }

/-- `skipelem` on a string: 0 if there is no element, and else the first one. -/
theorem skipelem_string (string : StringAt memory path bytes) (small : bytes.length ≤ ramSize)
    (enough : bytes.length < fuel) (name : Nat → UInt8) :
    (components bytes = [] ∧ skipelem memory fuel path name = some (none, name)) ∨
      ∃ element rest further copy, skipelem memory fuel path name = some (some further, copy) ∧
        Skipped memory bytes name element rest further copy := by
  obtain ⟨first, atFirst⟩ := advance_string isSlash string (by decide) enough
  generalize path + (bytes.takeWhile isSlash).length = s at first atFirst
  have tailShort : (bytes.dropWhile isSlash).length ≤ bytes.length :=
    (List.dropWhile_suffix _).length_le
  have tailEnough : (bytes.dropWhile isSlash).length < fuel := by omega
  have sameParts := components_dropSlashes bytes
  by_cases nothing : bytes.dropWhile isSlash = []
  · left
    rw [nothing] at atFirst sameParts
    have zero : memory s = 0 := atFirst
    exact ⟨sameParts.symm, by simp [skipelem, first, zero]⟩
  · right
    have start : (bytes.dropWhile isSlash).head nothing ≠ slash := by
      have stops := List.head_dropWhile_not isSlash (l := bytes) nothing
      simpa [isSlash] using stops
    have nonzero : memory s ≠ 0 := fun zero => nothing (atFirst.first_eq_zero.mp zero)
    obtain ⟨element, rest, behind, further, second, third, skipped⟩ :=
      skipelem_element atFirst (by omega) tailEnough nothing start name
    refine ⟨element, rest, further, _, ?_, { skipped with
      split := sameParts ▸ skipped.split
      shorter := by have shorter := skipped.shorter; omega }⟩
    simp [skipelem, first, nonzero, second, third]

/-- Iterating `skipelem` yields the elements of a string one after the other, and then 0. -/
theorem elements_string (string : StringAt memory path bytes) (small : bytes.length ≤ ramSize)
    (enough : bytes.length < fuel) {left : Nat} (calls : bytes.length < left) (name : Nat → UInt8) :
    ∃ names, elements memory fuel left path name = some names ∧
      List.Forall₂ Names names (components bytes) := by
  induction left generalizing path bytes name with
  | zero => omega
  | succ left ih =>
    rcases skipelem_string string small enough name with
      ⟨none, ended⟩ | ⟨element, rest, further, copy, copied, skipped⟩
    · exact ⟨[], by simp [elements, ended], by rw [none]; exact .nil⟩
    · have shorter := skipped.shorter
      obtain ⟨names, further, forall2⟩ :=
        ih skipped.string (by omega) (by omega) (by omega) copy
      refine ⟨copy :: names, by simp [elements, copied, further], ?_⟩
      rw [skipped.split]
      exact .cons skipped.names forall2

/-- The names that the elements leave, read as `namecmp` reads them. -/
theorem map_entryName {names : List (Nat → UInt8)} {parts : List (List UInt8)}
    (forall2 : List.Forall₂ Names names parts) : names.map entryName = parts := by
  induction forall2 with
  | nil => rfl
  | cons named _ ih => rw [List.map_cons, named.entryName_eq, ih]

end Ev6.FileSystem.PathName
