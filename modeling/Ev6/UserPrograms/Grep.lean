import Ev6.Support.CString
import Mathlib.Computability.Language

/-!
# `grep`

`match`, `matchhere`, `matchstar` and `grep` of `user/grep.c`. A pattern stands for a language,
and what is printed does not depend on the pieces that `read` delivers the input in.
-/

namespace Ev6.UserPrograms.Grep

open List (length_append map_cons mem_append_left mem_cons_self suffix_refl)
open Support
open scoped Computability

/-- `'*'`, `'.'`, `'$'`, `'^'` and `'\n'`. -/
def star : UInt8 := 42
def dot : UInt8 := 46
def dollar : UInt8 := 36
def caret : UInt8 := 94
def newline : UInt8 := 10

/-! ## The matcher -/

/-- `matchstar`; `here` is `matchhere` on the rest of the pattern. -/
def matchstar (here : List UInt8 → Bool) (c : UInt8) : List UInt8 → Bool
  | [] => here []
  | t :: text => here (t :: text) || (t == c || c == dot) && matchstar here c text

/-- The end of `matchhere`: one character of the text, and the rest of the pattern. -/
def matchone (here : List UInt8 → Bool) (c : UInt8) : List UInt8 → Bool
  | [] => false
  | t :: text => (c == dot || c == t) && here text

/-- `matchhere`: a pattern at the start of a text. -/
def matchhere : List UInt8 → List UInt8 → Bool
  | [], _ => true
  | [c], text => if c = dollar then text.isEmpty else matchone (fun _ => true) c text
  | c :: d :: re, text =>
    if d = star then matchstar (matchhere re) c text else matchone (matchhere (d :: re)) c text

/-- The loop of `match`. -/
def matchany (here : List UInt8 → Bool) : List UInt8 → Bool
  | [] => here []
  | t :: text => here (t :: text) || matchany here text

/-- `match`: a pattern anywhere in a text. -/
def grepMatch (re text : List UInt8) : Bool :=
  if re.head? = some caret then matchhere re.tail text else matchany (matchhere re) text

/-! ## The language of a pattern -/

/-- What one character of a pattern stands for. -/
def char (c : UInt8) : Language UInt8 := {text | ∃ t, (c = dot ∨ c = t) ∧ text = [t]}

/-- The texts that a pattern matches from their start. -/
def here : List UInt8 → Language UInt8
  | [] => ⊤
  | [c] => if c = dollar then 1 else char c * ⊤
  | c :: d :: re => if d = star then (char c)∗ * here re else char c * here (d :: re)

/-- The texts that a pattern matches. -/
def language (re : List UInt8) : Language UInt8 :=
  if re.head? = some caret then here re.tail else ⊤ * here re

section Language

variable {c t : UInt8} {re text : List UInt8} {l : Language UInt8} {next : List UInt8 → Bool}

theorem mem_top : text ∈ (⊤ : Language UInt8) := trivial

theorem nil_not_mem_char_mul : [] ∉ char c * l := by
  rintro ⟨_, ⟨t, -, rfl⟩, rest, -, same⟩
  cases same

theorem cons_mem_char_mul : t :: text ∈ char c * l ↔ (c = dot ∨ c = t) ∧ text ∈ l := by
  constructor
  · rintro ⟨_, ⟨s, fits, rfl⟩, rest, member, same⟩
    obtain ⟨rfl, rfl⟩ := List.cons.inj same
    exact ⟨fits, member⟩
  · rintro ⟨fits, member⟩
    exact ⟨[t], ⟨t, fits, rfl⟩, text, member, rfl⟩

theorem star_mul (c : UInt8) (l : Language UInt8) :
    (char c)∗ * l = l + char c * ((char c)∗ * l) := by
  nth_rewrite 1 [← Language.one_add_self_mul_kstar_eq_kstar]
  rw [add_mul, one_mul, mul_assoc]

theorem matchstar_iff (rest : ∀ text, next text = true ↔ text ∈ l) :
    matchstar next c text = true ↔ text ∈ (char c)∗ * l := by
  induction text with
  | nil =>
    rw [star_mul, Language.mem_add, matchstar, rest]
    exact (or_iff_left nil_not_mem_char_mul).symm
  | cons t text ih =>
    rw [star_mul, Language.mem_add, cons_mem_char_mul, matchstar, Bool.or_eq_true, rest,
      Bool.and_eq_true, ih]
    apply or_congr_right
    apply and_congr_left'
    rw [Bool.or_eq_true, beq_iff_eq, beq_iff_eq, or_comm, eq_comm (a := t)]

theorem matchone_iff (rest : ∀ text, next text = true ↔ text ∈ l) :
    matchone next c text = true ↔ text ∈ char c * l := by
  cases text with
  | nil =>
    constructor
    · intro never
      cases never
    · intro never
      exact absurd never nil_not_mem_char_mul
  | cons t text =>
    rw [cons_mem_char_mul, matchone, Bool.and_eq_true, rest, Bool.or_eq_true, beq_iff_eq,
      beq_iff_eq]

theorem matchhere_iff : ∀ re text : List UInt8, matchhere re text = true ↔ text ∈ here re
  | [], _ => ⟨fun _ => mem_top, fun _ => rfl⟩
  | [c], text => by
      rw [matchhere, here]
      split
      · rw [List.isEmpty_iff, Language.mem_one]
      · exact matchone_iff fun _ => ⟨fun _ => mem_top, fun _ => rfl⟩
  | c :: d :: re, text => by
      rw [matchhere, here]
      split
      · exact matchstar_iff (matchhere_iff re)
      · exact matchone_iff (matchhere_iff (d :: re))

theorem matchany_iff (rest : ∀ text, next text = true ↔ text ∈ l) :
    matchany next text = true ↔ text ∈ ⊤ * l := by
  induction text with
  | nil =>
    rw [matchany, rest]
    constructor
    · intro member
      exact ⟨[], mem_top, [], member, rfl⟩
    · rintro ⟨front, -, back, member, same⟩
      obtain ⟨rfl, rfl⟩ := List.append_eq_nil_iff.mp same
      exact member
  | cons t text ih =>
    rw [matchany, Bool.or_eq_true, rest, ih]
    constructor
    · rintro (member | ⟨front, -, back, member, rfl⟩)
      · exact ⟨[], mem_top, t :: text, member, rfl⟩
      · exact ⟨t :: front, mem_top, back, member, rfl⟩
    · rintro ⟨front, -, back, member, same⟩
      cases front with
      | nil => exact .inl (same ▸ member)
      | cons first front =>
        obtain ⟨rfl, rfl⟩ := List.cons.inj same
        exact .inr ⟨front, mem_top, back, member, rfl⟩

end Language

/-- The matcher recognises the language of the pattern. -/
theorem grepMatch_iff (re text : List UInt8) : grepMatch re text = true ↔ text ∈ language re := by
  unfold grepMatch language
  split
  · exact matchhere_iff re.tail text
  · exact matchany_iff (matchhere_iff re)

/-! ## The lines of the input -/

/-- `strchr`: what is before the first `c`, and what is behind it. -/
def strchr (c : UInt8) : List UInt8 → Option (List UInt8 × List UInt8)
  | [] => none
  | b :: s =>
    if b = 0 then none
    else if b = c then some ([], s)
    else (strchr c s).map fun found => (b :: found.1, found.2)

theorem strchr_length {c : UInt8} {s line rest : List UInt8}
    (found : strchr c s = some (line, rest)) : rest.length < s.length := by
  induction s generalizing line with
  | nil => cases found
  | cons b s ih =>
    rw [strchr] at found
    split at found
    · cases found
    · split at found
      · cases found
        exact Nat.lt_succ_self _
      · obtain ⟨⟨front, back⟩, later, same⟩ := Option.map_eq_some_iff.mp found
        obtain ⟨-, rfl⟩ := Prod.mk.inj same
        exact Nat.lt_succ_of_lt (ih later)

/-- The inner loop of `grep`: what it writes, and what stays in the buffer. -/
def lines (re p : List UInt8) : List (List UInt8) × List UInt8 :=
  match _found : strchr newline p with
  | none => ([], p)
  | some (line, rest) =>
    (if grepMatch re line then (line ++ [newline]) :: (lines re rest).1 else (lines re rest).1,
      (lines re rest).2)
termination_by p.length
decreasing_by all_goals exact strchr_length _found

/-- `grep`, with what it has in the buffer and what `read` delivers: what it writes. -/
def grep (re : List UInt8) : List UInt8 → List (List UInt8) → List (List UInt8)
  | _, [] => []
  | held, chunk :: chunks =>
    (lines re (held ++ chunk)).1 ++ grep re (lines re (held ++ chunk)).2 chunks

/-- `sizeof(buf) - 1`. -/
def room : Nat := 1023

/-- What `read` may deliver of an input. It delivers nothing at the end of the input, and where
there is no room. -/
inductive Reads (re : List UInt8) : List UInt8 → List UInt8 → List (List UInt8) → Prop where
  | done {held input} (ended : input = [] ∨ held.length = room) : Reads re held input []
  | more {held chunk input chunks} (some : chunk ≠ []) (fits : (held ++ chunk).length ≤ room)
      (later : Reads re (lines re (held ++ chunk)).2 input chunks) :
      Reads re held (chunk ++ input) (chunk :: chunks)

/-- An input by its lines, the last of which is unfinished or too long for the buffer. -/
structure Lines (input : List UInt8) (all : List (List UInt8)) (left : List UInt8) : Prop where
  input : input = (all.map (· ++ [newline])).flatten ++ left
  whole : ∀ line ∈ all, newline ∉ line ∧ line.length < room
  rest : newline ∉ left.take room

section Lines

variable {re input line held left p : List UInt8} {all chunks : List (List UInt8)}

theorem strchr_eq_none {c : UInt8} {s : List UInt8} (absent : c ∉ s) : strchr c s = none := by
  induction s with
  | nil => rfl
  | cons b s ih =>
    obtain ⟨other, absent⟩ := List.ne_and_not_mem_of_not_mem_cons absent
    rw [strchr, ih absent]
    split
    · rfl
    · rw [if_neg (Ne.symm other)]
      rfl

theorem strchr_append {c : UInt8} {s rest : List UInt8} (plain : Unterminated s) (nonzero : c ≠ 0)
    (absent : c ∉ s) : strchr c (s ++ c :: rest) = some (s, rest) := by
  induction s with
  | nil => simp [strchr, nonzero]
  | cons b s ih =>
    obtain ⟨other, absent⟩ := List.ne_and_not_mem_of_not_mem_cons absent
    have some := plain b mem_cons_self
    rw [List.cons_append, strchr, if_neg some, if_neg (Ne.symm other), ih plain.tail absent]
    rfl

theorem lines_none (absent : newline ∉ p) : lines re p = ([], p) := by
  rw [lines]
  split
  · rfl
  · next found =>
     rw [strchr_eq_none absent] at found
     cases found

theorem lines_some {line rest : List UInt8} (plain : Unterminated line) (absent : newline ∉ line) :
    lines re (line ++ newline :: rest) =
      (([line].filter (grepMatch re)).map (· ++ [newline]) ++ (lines re rest).1,
        (lines re rest).2) := by
  have here : strchr newline (line ++ newline :: rest) = some (line, rest) :=
    strchr_append plain (by decide) absent
  rw [lines]
  split
  · next found =>
     rw [here] at found
     cases found
  · next found =>
     rw [here] at found
     cases found
     by_cases fits : grepMatch re line = true
     · simp [fits]
     · simp [fits]

theorem exists_lines (input : List UInt8) : ∃ all left, Lines input all left := by
  induction size : input.length using Nat.strong_induction_on generalizing input with
  | _ n ih =>
  by_cases more : newline ∈ input.take room
  · obtain ⟨line, rest, split, absent⟩ := List.eq_append_cons_of_mem more
    have whole : input = line ++ newline :: (rest ++ input.drop room) := by
      conv_lhs => rw [← List.take_append_drop room input, split]
      simp
    have short : line.length < room := by
      have length := congrArg List.length split
      rw [List.length_take, length_append, List.length_cons] at length
      omega
    have fewer : (rest ++ input.drop room).length < n := by
      rw [← size]
      conv_rhs => rw [whole]
      simp
      omega
    obtain ⟨all, left, is, each, last⟩ := ih _ fewer _ rfl
    refine ⟨line :: all, left, ?_, ?_, last⟩
    · conv_lhs => rw [whole, is]
      simp
    · intro other member
      rcases List.mem_cons.mp member with rfl | member
      · exact ⟨absent, short⟩
      · exact each other member
  · exact ⟨[], input, rfl, nofun, more⟩

/-- What a line of an input that is split after `p` says about `p`. -/
theorem Lines.cut (re : List UInt8) {rest : List UInt8} (split : Lines (p ++ rest) all left)
    (short : p.length ≤ room) (plain : Unterminated p) :
    ∃ front back, all = front ++ back ∧
      (lines re p).1 = (front.filter (grepMatch re)).map (· ++ [newline]) ∧
      Lines ((lines re p).2 ++ rest) back left ∧ newline ∉ (lines re p).2 ∧
      (lines re p).2 <:+ p := by
  obtain ⟨whole, each, last⟩ := split
  induction all generalizing p with
  | nil =>
    have absent : newline ∉ p := by
      intro member
      apply last
      rw [List.map_nil, List.flatten_nil, List.nil_append] at whole
      rw [← whole, List.take_append, List.take_of_length_le short]
      exact mem_append_left _ member
    rw [lines_none absent]
    exact ⟨[], [], rfl, rfl, ⟨whole, each, last⟩, absent, suffix_refl p⟩
  | cons line all ih =>
    obtain ⟨absent, fits⟩ := each line mem_cons_self
    rw [map_cons, List.flatten_cons, List.append_assoc, List.append_assoc,
      List.singleton_append] at whole
    rcases List.append_eq_append_iff.mp whole with ⟨more, front, -⟩ | ⟨more, front, behind⟩
    · have quiet : newline ∉ p := fun member => absent (front ▸ mem_append_left more member)
      rw [lines_none quiet]
      refine ⟨[], line :: all, rfl, rfl, ⟨?_, each, last⟩, quiet, suffix_refl p⟩
      simpa using whole
    · cases more with
      | nil =>
        obtain rfl : p = line := by rw [front, List.append_nil]
        rw [lines_none absent]
        refine ⟨[], p :: all, rfl, rfl, ⟨?_, each, last⟩, absent, suffix_refl p⟩
        simpa using whole
      | cons first more =>
        obtain ⟨rfl, later⟩ := List.cons.inj behind.symm
        subst front
        have plainLine : Unterminated line := fun b member =>
          plain b (mem_append_left _ member)
        have plainMore : Unterminated more := fun b member =>
          plain b (List.mem_append_right _ (List.mem_cons_of_mem _ member))
        have length : more.length ≤ room := by
          rw [length_append, List.length_cons] at short
          omega
        have others (other : List UInt8) (member : other ∈ all) :=
          each other (List.mem_cons_of_mem line member)
        obtain ⟨front, back, rfl, written, split, none, suffix⟩ :=
          ih length plainMore later others
        rw [lines_some plainLine absent, written]
        refine ⟨line :: front, back, rfl, ?_, split, none, ?_⟩
        · rw [← List.map_append, ← List.filter_append, List.singleton_append]
        · exact suffix.trans ((List.suffix_cons _ _).trans (List.suffix_append _ _))

/-- The output does not depend on how the input is delivered. -/
theorem Lines.grep {input : List UInt8} (reads : Reads re held input chunks)
    (split : Lines (held ++ input) all left) (plain : Unterminated (held ++ input))
    (absent : newline ∉ held) :
    grep re held chunks = (all.filter (grepMatch re)).map (· ++ [newline]) := by
  induction reads generalizing all with
  | @done held input ended =>
    cases all with
    | nil => rfl
    | cons line all =>
      exfalso
      obtain ⟨clean, fits⟩ := split.whole line mem_cons_self
      have whole := split.input
      rw [map_cons, List.flatten_cons, List.append_assoc, List.append_assoc,
        List.singleton_append] at whole
      rcases List.append_eq_append_iff.mp whole with
        ⟨more, front, behind⟩ | ⟨more, front, behind⟩
      · have short := congrArg List.length front
        rw [length_append] at short
        rcases ended with rfl | full
        · cases more <;> cases behind
        · omega
      · cases more with
        | nil =>
          rw [List.append_nil] at front
          subst front
          rcases ended with rfl | full
          · cases behind
          · omega
        | cons first more =>
          obtain ⟨rfl, -⟩ := List.cons.inj behind
          exact absent (front ▸ List.mem_append_right _ mem_cons_self)
  | @more held chunk input chunks some fits later ih =>
    rw [← List.append_assoc] at split plain
    have plainFront : Unterminated (held ++ chunk) := fun b member =>
      plain b (mem_append_left input member)
    obtain ⟨front, back, rfl, written, split, none, suffix⟩ := split.cut re fits plainFront
    have plainRest : Unterminated ((lines re (held ++ chunk)).2 ++ input) := by
      intro b member
      rcases List.mem_append.mp member with inside | inside
      · exact plain b (mem_append_left input (suffix.subset inside))
      · exact plain b (List.mem_append_right _ inside)
    rw [Grep.grep, written, ih split plainRest none, ← List.map_append, ← List.filter_append]

end Lines

/-- `grep` prints the lines of its input that the pattern matches, in their order and as they
are, however `read` delivers the input. It does so up to a line that does not fit into the
buffer, and does not print a line without its end. -/
theorem grep_prints (re input : List UInt8) (plain : Unterminated input) :
    ∃ all left, Lines input all left ∧ ∀ chunks, Reads re [] input chunks →
      grep re [] chunks = (all.filter (grepMatch re)).map (· ++ [newline]) := by
  obtain ⟨all, left, split⟩ := exists_lines input
  exact ⟨all, left, split, fun chunks reads => split.grep reads plain List.not_mem_nil⟩

/-- A line in two pieces. -/
theorem grep_prints_pieces : Reads [98] [] [97, 98, 10, 99] [[97], [98, 10, 99]] ∧
    ∃ all left, Lines [97, 98, 10, 99] all left ∧ grep [98] [] [[97], [98, 10, 99]] =
      (all.filter (grepMatch [98])).map (· ++ [newline]) := by
  have reads : Reads [98] [] [97, 98, 10, 99] [[97], [98, 10, 99]] := by
    have second : Reads [98] [97] ([98, 10, 99] ++ []) [[98, 10, 99]] :=
      .more (by decide) (by decide) (.done (.inl rfl))
    show Reads [98] [] ([97] ++ [98, 10, 99]) [[97], [98, 10, 99]]
    refine .more (by decide) (by decide) ?_
    rw [lines_none (by decide)]
    exact second
  obtain ⟨all, left, split, prints⟩ := grep_prints [98] [97, 98, 10, 99] (by simp [Unterminated])
  exact ⟨reads, all, left, split, prints _ reads⟩

end Ev6.UserPrograms.Grep
