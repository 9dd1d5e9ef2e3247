import Mathlib.Data.List.Basic

/-!
# Dictionaries in the order of insertion, and memos

A dictionary is a list of keys with their values. Setting a key that is there keeps its place.
A memo is a dictionary that is emptied when it is full (`Memo.put`).
-/

namespace Memo

variable {K V : Type} [DecidableEq K]

/-- The value of a key. -/
def get (d : List (K × V)) (key : K) : Option V :=
  (d.find? fun e => decide (e.1 = key)).map Prod.snd

/-- `d[key] = value` -/
def set : List (K × V) → K → V → List (K × V)
  | [], key, value => [(key, value)]
  | e :: d, key, value => if e.1 = key then (key, value) :: d else e :: set d key value

/-- The dictionary without a key. -/
def drop (d : List (K × V)) (key : K) : List (K × V) := d.filter fun e => decide (e.1 ≠ key)

/-- Setting a key, after emptying a dictionary that holds `limit` keys. -/
def put (limit : ℕ) (d : List (K × V)) (key : K) (value : V) : List (K × V) :=
  set (if limit ≤ d.length then [] else d) key value

/-- The first key with this value. -/
def keyOf [DecidableEq V] (d : List (K × V)) (value : V) : Option K :=
  (d.find? fun e => decide (e.2 = value)).map Prod.fst

theorem mem_of_get {d : List (K × V)} {key : K} {value : V} (h : get d key = some value) :
    (key, value) ∈ d := by
  obtain ⟨e, he, rfl⟩ := Option.map_eq_some_iff.mp h
  obtain rfl : e.1 = key :=
    of_decide_eq_true (List.find?_some (p := fun e : K × V => decide (e.1 = key)) he)
  exact List.mem_of_find?_eq_some he

omit [DecidableEq K] in
theorem mem_of_keyOf [DecidableEq V] {d : List (K × V)} {key : K} {value : V}
    (h : keyOf d value = some key) : (key, value) ∈ d := by
  obtain ⟨e, he, rfl⟩ := Option.map_eq_some_iff.mp h
  obtain rfl : e.2 = value :=
    of_decide_eq_true (List.find?_some (p := fun e : K × V => decide (e.2 = value)) he)
  exact List.mem_of_find?_eq_some he

omit [DecidableEq K] in
/-- A value that is there has a key. -/
theorem keyOf_isSome [DecidableEq V] {d : List (K × V)} {e : K × V} (h : e ∈ d) :
    ∃ key, keyOf d e.2 = some key := by
  obtain ⟨e', he'⟩ := Option.isSome_iff_exists.mp
    (List.find?_isSome (p := fun e' : K × V => decide (e'.2 = e.2)).mpr
      ⟨e, h, decide_eq_true rfl⟩)
  exact ⟨e'.1, Option.map_eq_some_iff.mpr ⟨e', he', rfl⟩⟩

/-- What is in a dictionary after a key has been set. -/
theorem mem_set {d : List (K × V)} {key : K} {value : V} {e : K × V}
    (h : e ∈ set d key value) : e = (key, value) ∨ e ∈ d := by
  induction d with
  | nil => exact .inl (List.mem_singleton.mp h)
  | cons e' d ih =>
    unfold set at h
    split at h
    · exact (List.mem_cons.mp h).imp_right (List.mem_cons_of_mem e')
    · rcases List.mem_cons.mp h with rfl | hin
      · exact .inr List.mem_cons_self
      · exact (ih hin).imp_right (List.mem_cons_of_mem e')

theorem mem_put {limit : ℕ} {d : List (K × V)} {key : K} {value : V} {e : K × V}
    (h : e ∈ put limit d key value) : e = (key, value) ∨ e ∈ d := by
  refine (mem_set h).imp_right fun hin => ?_
  split at hin
  · cases hin
  · exact hin

theorem mem_of_mem_drop {d : List (K × V)} {key : K} {e : K × V} (h : e ∈ drop d key) : e ∈ d :=
  (List.mem_filter.mp h).1

/-- What a key is bound to after it was set. -/
theorem get_set_self (d : List (K × V)) (key : K) (value : V) :
    get (set d key value) key = some value := by
  unfold get
  induction d with
  | nil => simp [set]
  | cons e d ih =>
    unfold set
    split
    · rw [List.find?_cons_of_pos (by simp)]
      rfl
    · next he => rw [List.find?_cons_of_neg (by simpa using he), ih]

/-- What a key is bound to after another was set. -/
theorem get_set_of_ne {d : List (K × V)} {key key' : K} (h : key' ≠ key) (value : V) :
    get (set d key value) key' = get d key' := by
  unfold get
  congr 1
  induction d with
  | nil =>
    show [(key, value)].find? _ = _
    rw [List.find?_singleton, if_neg (by simpa using h.symm), List.find?_nil]
  | cons e d ih =>
    unfold set
    split
    · next he =>
      rw [List.find?_cons_of_neg (by simpa using h.symm),
        List.find?_cons_of_neg (by simpa [he] using h.symm)]
    · rw [List.find?_cons, List.find?_cons, ih]

/-- What a key is bound to after another was dropped. -/
theorem get_drop_of_ne {d : List (K × V)} {key key' : K} (h : key' ≠ key) :
    get (drop d key) key' = get d key' := by
  unfold get drop
  congr 1
  induction d with
  | nil => rfl
  | cons e d ih =>
    by_cases he : e.1 = key
    · rw [List.filter_cons_of_neg (by simpa using he), ih,
        List.find?_cons_of_neg (by simpa [he] using h.symm)]
    · rw [List.filter_cons_of_pos (by simpa using he), List.find?_cons, List.find?_cons, ih]

end Memo
