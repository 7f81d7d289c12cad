import Mathlib.Data.Multiset.AddSub

/-!
# Association lists

A partial map as the list of its entries. Entries are put in front, and the first entry of
a key is the one that counts. What the entries hold is a multiset, to which an entry adds
its value and from which its removal takes it away.
-/

namespace Ev6.Support

namespace AssocList

variable {Key Value : Type*} [DecidableEq Key]

/-- The value of the first entry of a key. -/
def find (entries : List (Key × Value)) (key : Key) : Option Value :=
  (entries.find? fun entry => entry.1 = key).map Prod.snd

/-- The entries without the first one of a key. -/
def remove (entries : List (Key × Value)) (key : Key) : List (Key × Value) :=
  entries.eraseP fun entry => entry.1 = key

/-- The keys that have an entry. -/
def keys (entries : List (Key × Value)) : List Key := entries.map Prod.fst

/-- What the entries hold. -/
def values (entries : List (Key × Value)) : Multiset Value := entries.map Prod.snd

variable {entries : List (Key × Value)} {key other : Key} {value : Value}

@[simp] theorem find_nil : find ([] : List (Key × Value)) key = none := rfl

theorem find_cons (entry : Key × Value) :
    find (entry :: entries) key = if entry.1 = key then some entry.2 else find entries key := by
  unfold find
  by_cases here : entry.1 = key
  · rw [List.find?_cons_of_pos (by simpa using here), if_pos here]
    rfl
  · rw [List.find?_cons_of_neg (by simpa using here), if_neg here]

theorem remove_cons (entry : Key × Value) :
    remove (entry :: entries) key =
      if entry.1 = key then entries else entry :: remove entries key := by
  unfold remove
  by_cases here : entry.1 = key
  · rw [List.eraseP_cons_of_pos (by simpa using here), if_pos here]
  · rw [List.eraseP_cons_of_neg (by simpa using here), if_neg here]

/-- A key has a value exactly when it has an entry. -/
theorem find_eq_none : find entries key = none ↔ key ∉ keys entries := by
  induction entries with
  | nil => simp [keys]
  | cons entry entries ih =>
    rw [find_cons]
    by_cases here : entry.1 = key
    · simp [keys, here]
    · rw [if_neg here, ih]
      simp [keys, Ne.symm here]

omit [DecidableEq Key] in
omit [DecidableEq Key] in
@[simp] theorem values_cons (entry : Key × Value) :
    values (entry :: entries) = entry.2 ::ₘ values entries := rfl

theorem find_mem (found : find entries key = some value) : value ∈ values entries := by
  induction entries with
  | nil => cases found
  | cons entry entries ih =>
    rw [find_cons] at found
    rw [values_cons, Multiset.mem_cons]
    split at found
    · exact .inl (Option.some.inj found).symm
    · exact .inr (ih found)

/-- What is removed was held. -/
theorem values_remove (found : find entries key = some value) :
    values entries = value ::ₘ values (remove entries key) := by
  induction entries with
  | nil => cases found
  | cons entry entries ih =>
    rw [find_cons] at found
    rw [remove_cons]
    split at found
    · next here =>
       cases found
       rw [if_pos here, values_cons]
    · next here =>
       rw [if_neg here, values_cons, values_cons, ih found, Multiset.cons_swap]

theorem nodup_keys_remove (once : (keys entries).Nodup) : (keys (remove entries key)).Nodup :=
  once.sublist (List.eraseP_sublist.map Prod.fst)

/-- The other keys keep their values, and the key itself has none where it had one entry. -/
theorem find_remove (once : (keys entries).Nodup) :
    find (remove entries key) other = if other = key then none else find entries other := by
  induction entries with
  | nil => simp [remove]
  | cons entry entries ih =>
    obtain ⟨fresh, rest⟩ := List.nodup_cons.mp once
    rw [remove_cons, find_cons]
    by_cases here : entry.1 = key
    · rw [if_pos here]
      by_cases same : other = key
      · rw [if_pos same, find_eq_none, same, ← here]
        exact fresh
      · rw [if_neg same, if_neg fun equal => same (equal.symm.trans here)]
    · rw [if_neg here, find_cons, ih rest]
      by_cases there : entry.1 = other
      · rw [if_pos there, if_pos there, if_neg fun equal => here (there.trans equal)]
      · rw [if_neg there, if_neg there]

/-- The entries of the keys that meet a condition. -/
def only (test : Key → Bool) (entries : List (Key × Value)) : List (Key × Value) :=
  entries.filter fun entry => test entry.1

omit [DecidableEq Key] in
theorem only_cons (test : Key → Bool) (entry : Key × Value) :
    only test (entry :: entries) =
      if test entry.1 then entry :: only test entries else only test entries :=
  List.filter_cons

theorem find_only (test : Key → Bool) (meets : test key = true) :
    find (only test entries) key = find entries key := by
  induction entries with
  | nil => rfl
  | cons entry entries ih =>
    rw [only_cons, find_cons]
    by_cases here : entry.1 = key
    · rw [here, meets, if_pos rfl, find_cons, if_pos here, if_pos rfl]
    · rw [if_neg here]
      split
      · rw [find_cons, if_neg here, ih]
      · exact ih

theorem only_remove (test : Key → Bool) (meets : test key = true) :
    only test (remove entries key) = remove (only test entries) key := by
  induction entries with
  | nil => rfl
  | cons entry entries ih =>
    rw [remove_cons, only_cons]
    by_cases here : entry.1 = key
    · rw [here, meets, if_pos rfl, if_pos rfl, remove_cons, if_pos here]
    · rw [if_neg here, only_cons, ih]
      split
      · rw [remove_cons, if_neg here]
      · rfl

theorem only_remove_of_not (test : Key → Bool) (fails : test key = false) :
    only test (remove entries key) = only test entries := by
  induction entries with
  | nil => rfl
  | cons entry entries ih =>
    rw [remove_cons, only_cons]
    by_cases here : entry.1 = key
    · rw [here, fails, if_pos rfl, if_neg Bool.false_ne_true]
    · rw [if_neg here, only_cons, ih]

/-- Every value is changed. -/
def mapValues (change : Key → Value → Value) (entries : List (Key × Value)) :
    List (Key × Value) :=
  entries.map fun entry => (entry.1, change entry.1 entry.2)

omit [DecidableEq Key] in
theorem keys_mapValues (change : Key → Value → Value) :
    keys (mapValues change entries) = keys entries := by
  simp [keys, mapValues, Function.comp_def]

theorem find_mapValues (change : Key → Value → Value) :
    find (mapValues change entries) key = (find entries key).map (change key) := by
  induction entries with
  | nil => rfl
  | cons entry entries ih =>
    rw [find_cons]
    refine (find_cons _).trans ?_
    by_cases here : entry.1 = key
    · rw [if_pos here, if_pos here, Option.map_some, ← here]
    · rw [if_neg here, if_neg here]
      exact ih

omit [DecidableEq Key] in
theorem only_mapValues (change : Key → Value → Value) (test : Key → Bool) :
    only test (mapValues change entries) = mapValues change (only test entries) :=
  List.filter_map

end AssocList

end Ev6.Support
