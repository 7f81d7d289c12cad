import Mathlib.Data.List.Infix
import Mathlib.Data.List.TakeWhile

/-!
# Strings in arrays of bytes

A C string is what stands in an array in front of its first zero byte. `strncpy` and
`strncmp` are the functions of a C library on arrays that are given as lists.
-/

namespace Ev6.Support

open List (drop_succ_cons headD_cons length_cons mem_cons_self replicate_succ)

/-- The string at the start of an array. -/
def cString (bytes : List UInt8) : List UInt8 := bytes.takeWhile fun byte => byte != 0

/-- The length of the string at the start of an array. -/
def strlen (bytes : List UInt8) : Nat := (cString bytes).length

/-- Copy at most `n` bytes of a string. Behind the end of the string zeros are written,
behind the `n` bytes the destination stays as it is. -/
def strncpy : List UInt8 → List UInt8 → Nat → List UInt8
  | dst, _, 0 => dst
  | [], _, _ + 1 => []
  | _ :: dst, [], n + 1 => 0 :: strncpy dst [] n
  | _ :: dst, byte :: src, n + 1 =>
    if byte = 0 then 0 :: strncpy dst [] n else byte :: strncpy dst src n

/-- Compare at most `n` bytes of two strings. -/
def strncmp : List UInt8 → List UInt8 → Nat → Int
  | _, _, 0 => 0
  | p, q, n + 1 =>
    if p.headD 0 ≠ 0 ∧ p.headD 0 = q.headD 0 then strncmp p.tail q.tail n
    else (p.headD 0).toNat - (q.headD 0).toNat

@[simp]
theorem cString_nil : cString [] = [] := rfl

@[simp]
theorem cString_zero_cons (rest : List UInt8) : cString (0 :: rest) = [] := rfl

theorem cString_cons {byte : UInt8} (nonzero : byte ≠ 0) (rest : List UInt8) :
    cString (byte :: rest) = byte :: cString rest :=
  List.takeWhile_cons_of_pos (by simpa using nonzero)

/-- A list without a zero byte. -/
def Unterminated (bytes : List UInt8) : Prop := ∀ byte ∈ bytes, byte ≠ 0

instance (bytes : List UInt8) : Decidable (Unterminated bytes) :=
  inferInstanceAs (Decidable (∀ byte ∈ bytes, byte ≠ 0))

theorem unterminated_cString (bytes : List UInt8) : Unterminated (cString bytes) := by
  intro byte mem
  simpa using List.mem_takeWhile_imp mem

theorem Unterminated.tail {byte : UInt8} {bytes : List UInt8}
    (plain : Unterminated (byte :: bytes)) : Unterminated bytes :=
  fun other mem => plain other (List.mem_cons_of_mem byte mem)

/-- The string in an array that has only zeros behind it. -/
theorem cString_append_zeros {bytes : List UInt8} (plain : Unterminated bytes) (n : Nat) :
    cString (bytes ++ List.replicate n 0) = bytes := by
  induction bytes with
  | nil => cases n <;> simp [cString, replicate_succ]
  | cons byte rest ih =>
    rw [List.cons_append, cString_cons (plain byte mem_cons_self), ih plain.tail]

/-- Copying into a destination that is large enough pads with zeros. -/
theorem strncpy_eq {dst : List UInt8} (src : List UInt8) {n : Nat} (room : n ≤ dst.length) :
    strncpy dst src n = cString (src.take n) ++
      List.replicate (n - (cString (src.take n)).length) 0 ++ dst.drop n := by
  have zeros : ∀ {n : Nat} {dst : List UInt8}, n ≤ dst.length →
      strncpy dst [] n = List.replicate n 0 ++ dst.drop n := by
    intro n
    induction n with
    | zero =>
      intro dst _
      cases dst <;> rfl
    | succ n ih =>
      intro dst room
      cases dst with
      | nil => simp at room
      | cons first dst =>
        simp only [length_cons, Nat.add_le_add_iff_right] at room
        simp only [strncpy, ih room, replicate_succ, List.cons_append,
          drop_succ_cons]
  induction n generalizing dst src with
  | zero => cases dst <;> simp [strncpy]
  | succ n ih =>
    cases dst with
    | nil => simp at room
    | cons first dst =>
      simp only [length_cons, Nat.add_le_add_iff_right] at room
      cases src with
      | nil => simp only [strncpy, zeros room, List.take_nil, cString_nil, List.nil_append,
          List.length_nil, Nat.sub_zero, replicate_succ, List.cons_append,
          drop_succ_cons]
      | cons byte src =>
        by_cases stop : byte = 0
        · subst stop
          simp only [strncpy, if_true, zeros room, List.take_succ_cons, cString_zero_cons,
            List.nil_append, List.length_nil, Nat.sub_zero, replicate_succ,
            List.cons_append, drop_succ_cons]
        · simp only [strncpy, if_neg stop, ih src room, List.take_succ_cons,
            cString_cons stop, length_cons, Nat.add_sub_add_right, List.cons_append,
            drop_succ_cons]

/-- Comparing `n` bytes of two strings compares what the strings are up to there. -/
theorem strncmp_eq_zero (p q : List UInt8) (n : Nat) :
    strncmp p q n = 0 ↔ cString (p.take n) = cString (q.take n) := by
  have head : ∀ (l : List UInt8) (n : Nat), cString (l.take (n + 1)) =
      if l.headD 0 = 0 then [] else l.headD 0 :: cString (l.tail.take n) := by
    intro l n
    cases l with
    | nil => rfl
    | cons byte l =>
      by_cases stop : byte = 0
      · subst stop
        simp
      · simp [stop, cString_cons stop]
  induction n generalizing p q with
  | zero => simp [strncmp]
  | succ n ih =>
    rw [head, head, strncmp]
    by_cases same : p.headD 0 = q.headD 0
    · by_cases stop : q.headD 0 = 0
      · simp only [same, stop, ne_eq, not_true_eq_false, false_and, if_false, if_true,
          Int.sub_self]
      · simp only [same, stop, ne_eq, not_false_eq_true, and_self, if_true, if_false, ih,
          List.cons.injEq, true_and]
    · have differs : ¬((p.headD 0).toNat : Int) - (q.headD 0).toNat = 0 := by
        intro zero
        exact same (UInt8.toNat_inj.mp (by omega))
      rw [if_neg fun both => same both.2]
      refine iff_of_false differs ?_
      by_cases stop : p.headD 0 = 0
      · rw [if_pos stop, if_neg fun other => same (stop.trans other.symm)]
        simp
      · rw [if_neg stop]
        split
        · simp
        · intro equal
          exact same (List.cons.inj equal).1

/-- Copying as many bytes as the string is long writes no zero: the end of the
destination stays. -/
theorem strncpy_length {bytes : List UInt8} (plain : Unterminated bytes)
    {dst : List UInt8} (fits : bytes.length ≤ dst.length) (rest : List UInt8) :
    strncpy dst (bytes ++ rest) bytes.length = bytes ++ dst.drop bytes.length := by
  induction bytes generalizing dst with
  | nil => cases dst <;> simp [strncpy]
  | cons byte bytes ih =>
    cases dst with
    | nil => simp at fits
    | cons first dst =>
      have nonzero := plain byte mem_cons_self
      simp only [length_cons, Nat.add_le_add_iff_right] at fits
      simp only [List.cons_append, length_cons, strncpy, if_neg nonzero,
        drop_succ_cons, ih plain.tail fits]

/-- Comparing as many bytes as the second string is long tells whether it is a prefix of
the first one. -/
theorem strncmp_length_eq_zero {bytes : List UInt8} (plain : Unterminated bytes)
    (p rest : List UInt8) :
    strncmp p (bytes ++ rest) bytes.length = 0 ↔ bytes <+: cString p := by
  induction bytes generalizing p with
  | nil => simp [strncmp]
  | cons byte bytes ih =>
    have nonzero := plain byte mem_cons_self
    have positive : byte.toNat ≠ 0 := fun zero => nonzero (UInt8.toNat_inj.mp zero)
    cases p with
    | nil =>
      simp only [length_cons, strncmp, List.headD_nil, List.cons_append, headD_cons,
        ne_eq, not_true_eq_false, false_and, if_false, cString_nil, List.prefix_nil,
        reduceCtorEq, iff_false]
      simpa using positive
    | cons first p =>
      by_cases same : first = byte
      · subst same
        simp only [length_cons, strncmp, headD_cons, List.cons_append, ne_eq,
          nonzero, not_false_eq_true, and_self, if_true, List.tail_cons, ih plain.tail p,
          cString_cons nonzero, List.cons_prefix_cons, true_and]
      · have differs : (first.toNat : Int) - byte.toNat ≠ 0 := by
          intro zero
          exact same (UInt8.toNat_inj.mp (by omega))
        have different : ¬ (byte :: bytes) <+: cString (first :: p) := by
          intro isPrefix
          by_cases stop : first = 0
          · subst stop
            simp at isPrefix
          · rw [cString_cons stop] at isPrefix
            exact same (List.cons_prefix_cons.mp isPrefix).1.symm
        simp only [length_cons, strncmp, headD_cons, List.cons_append, ne_eq, same,
          and_false, if_false]
        exact iff_of_false differs different

end Ev6.Support
