import Mathlib.Algebra.BigOperators.Group.Multiset.Basic
import Mathlib.Algebra.Order.Group.Int
import Mathlib.Data.Multiset.Count
import Mathlib.Algebra.Ring.Int.Defs

/-!
# A ledger of shared charges

A ledger has a total and, for some keys, a count of holders and an amount. A holder with a
key shares the amount of its key: the first holder of a key charges its size to the total,
the last one to leave gives it back. A holder without a key charges its own size.

`Ledger.Accounts` says what the ledger of a multiset of holders is: each key that a holder
has is there once, with the number of its holders, and the total is the amounts of the keys
and the sizes of the holders without one. Acquiring and releasing keep the account, and a
release of a holder always finds its key.
-/

variable {κ : Type}

/-- A key with its number of holders and the amount that they share. -/
structure Entry (κ : Type) where
  key : κ
  count : ℤ
  amount : ℤ

/-- A total and the entries of the keys. -/
structure Ledger (κ : Type) where
  total : ℤ
  held : List (Entry κ)

namespace Ledger

/-- The empty ledger. -/
def empty : Ledger κ := ⟨0, []⟩

variable [DecidableEq κ]

/-- The key has an entry. -/
def Has (L : Ledger κ) (k : κ) : Prop := ∃ e ∈ L.held, e.key = k

instance (L : Ledger κ) (k : κ) : Decidable (L.Has k) :=
  inferInstanceAs (Decidable (∃ e ∈ L.held, e.key = k))

/-- The entry of a key with a number of holders more. -/
def bump (held : List (Entry κ)) (k : κ) (d : ℤ) : List (Entry κ) :=
  held.map fun e => if e.key = k then { e with count := e.count + d } else e

/-- A holder joins. -/
def acquire (L : Ledger κ) : Option κ → ℤ → Ledger κ
  | none, size => ⟨L.total + size, L.held⟩
  | some k, size =>
    if L.Has k then ⟨L.total, bump L.held k 1⟩ else ⟨L.total + size, L.held ++ [⟨k, 1, size⟩]⟩

/-- A holder leaves; none where its key has no entry. -/
def release (L : Ledger κ) : Option κ → ℤ → Option (Ledger κ)
  | none, size => some ⟨L.total - size, L.held⟩
  | some k, _ =>
    (L.held.find? fun e => e.key = k).map fun e =>
      if e.count - 1 = 0 then ⟨L.total - e.amount, L.held.filter fun e => e.key ≠ k⟩
      else ⟨L.total, bump L.held k (-1)⟩

/-- The holders of a key. -/
def holdersOf (holders : Multiset (Option κ × ℤ)) (k : κ) : ℕ :=
  holders.countP fun h => h.1 = some k

/-- The sizes of the holders without a key. -/
def unshared (holders : Multiset (Option κ × ℤ)) : ℤ :=
  (holders.map fun h => if h.1 = none then h.2 else 0).sum

/-- The sum of the amounts, one for each entry. -/
def shared (held : List (Entry κ)) : ℤ := (held.map Entry.amount).sum

/-- **The ledger of these holders.** -/
structure Accounts (L : Ledger κ) (holders : Multiset (Option κ × ℤ)) : Prop where
  /-- every key has one entry at most -/
  nodup : (L.held.map Entry.key).Nodup
  /-- the keys are those of the holders -/
  has_iff : ∀ k, L.Has k ↔ 0 < holdersOf holders k
  /-- an entry counts the holders of its key -/
  count : ∀ e ∈ L.held, e.count = holdersOf holders e.key
  /-- each key charges its amount once, and the holders without a key their sizes -/
  total : L.total = shared L.held + unshared holders

section lemmas

variable {L : Ledger κ} {holders : Multiset (Option κ × ℤ)} {k : κ} {size : ℤ}

@[simp] theorem holdersOf_cons_none (k : κ) :
    holdersOf ((none, size) ::ₘ holders) k = holdersOf holders k :=
  Multiset.countP_cons_of_neg _ (by simp)

theorem holdersOf_cons_some (j k : κ) :
    holdersOf ((some j, size) ::ₘ holders) k = holdersOf holders k + if j = k then 1 else 0 := by
  unfold holdersOf
  rw [Multiset.countP_cons]
  simp

omit [DecidableEq κ] in
@[simp] theorem unshared_cons_none :
    unshared ((none, size) ::ₘ holders) = size + unshared holders := by
  unfold unshared
  rw [Multiset.map_cons, Multiset.sum_cons, if_pos rfl]

omit [DecidableEq κ] in
@[simp] theorem unshared_cons_some :
    unshared ((some k, size) ::ₘ holders) = unshared holders := by
  unfold unshared
  rw [Multiset.map_cons, Multiset.sum_cons, if_neg (Option.some_ne_none k), Int.zero_add]

theorem map_key_bump (held : List (Entry κ)) (k : κ) (d : ℤ) :
    (bump held k d).map Entry.key = held.map Entry.key := by
  unfold bump
  rw [List.map_map]
  refine List.map_congr_left fun e _ => ?_
  show (if e.key = k then _ else e).key = e.key
  split_ifs <;> rfl

theorem shared_bump (held : List (Entry κ)) (k : κ) (d : ℤ) :
    shared (bump held k d) = shared held := by
  unfold shared bump
  rw [List.map_map]
  refine congrArg List.sum (List.map_congr_left fun e _ => ?_)
  show (if e.key = k then _ else e).amount = e.amount
  split_ifs <;> rfl

theorem mem_bump {held : List (Entry κ)} {k : κ} {d : ℤ} {e : Entry κ} (h : e ∈ bump held k d) :
    ∃ e' ∈ held, e'.key = e.key ∧ e'.amount = e.amount ∧
      e.count = e'.count + if e.key = k then d else 0 := by
  obtain ⟨e', he', rfl⟩ := List.mem_map.mp h
  refine ⟨e', he', ?_⟩
  split_ifs with hk
  · exact ⟨rfl, rfl, rfl⟩
  · exact ⟨rfl, rfl, (Int.add_zero _).symm⟩

omit [DecidableEq κ] in
theorem has_iff_mem : L.Has k ↔ k ∈ L.held.map Entry.key := List.mem_map.symm

/-- The entry of a key apart from the others. -/
theorem perm_of_find {held : List (Entry κ)} (hnodup : (held.map Entry.key).Nodup) {e : Entry κ}
    (h : (held.find? fun e => e.key = k) = some e) :
    held.Perm (e :: held.filter fun e => e.key ≠ k) := by
  induction held with
  | nil => exact absurd h (Option.some_ne_none e).symm
  | cons a held ih =>
    rw [List.map_cons, List.nodup_cons] at hnodup
    rw [List.find?_cons] at h
    by_cases hk : a.key = k
    · rw [decide_eq_true hk] at h
      obtain rfl := Option.some.inj h
      rw [List.filter_cons_of_neg (by simpa using hk), List.filter_eq_self.mpr]
      intro b hb
      refine decide_eq_true fun hbk => hnodup.1 ?_
      rw [hk, ← hbk]
      exact List.mem_map_of_mem hb
    · rw [decide_eq_false hk] at h
      rw [List.filter_cons_of_pos (by simpa using hk)]
      exact ((ih hnodup.2 h).cons a).trans (List.Perm.swap e a _)

theorem has_bump (total total' : ℤ) (held : List (Entry κ)) (k j : κ) (d : ℤ) :
    (⟨total, bump held k d⟩ : Ledger κ).Has j ↔ (⟨total', held⟩ : Ledger κ).Has j := by
  rw [has_iff_mem, has_iff_mem]
  show j ∈ (bump held k d).map Entry.key ↔ _
  rw [map_key_bump]

/-! ## Acquiring and releasing -/

theorem acquire_of_has (h : L.Has k) : L.acquire (some k) size = ⟨L.total, bump L.held k 1⟩ :=
  if_pos h

theorem acquire_of_not_has (h : ¬L.Has k) :
    L.acquire (some k) size = ⟨L.total + size, L.held ++ [⟨k, 1, size⟩]⟩ :=
  if_neg h

/-- An amount is of an entry before, or the size of a holder that joins. -/
theorem mem_acquire {key : Option κ} {e : Entry κ} (h : e ∈ (L.acquire key size).held) :
    (key = some e.key ∧ e.amount = size) ∨
      ∃ e' ∈ L.held, e'.key = e.key ∧ e'.amount = e.amount := by
  cases key with
  | none => exact .inr ⟨e, h, rfl, rfl⟩
  | some k =>
    by_cases hk : L.Has k
    · rw [acquire_of_has hk] at h
      obtain ⟨e', he', hkey, hamount, -⟩ := mem_bump h
      exact .inr ⟨e', he', hkey, hamount⟩
    · rw [acquire_of_not_has hk] at h
      rcases List.mem_append.mp h with h | h
      · exact .inr ⟨e, h, rfl, rfl⟩
      · obtain rfl := List.mem_singleton.mp h
        exact .inl ⟨rfl, rfl⟩

theorem mem_release {L' : Ledger κ} {key : Option κ} {e : Entry κ}
    (hL : L.release key size = some L') (h : e ∈ L'.held) :
    ∃ e' ∈ L.held, e'.key = e.key ∧ e'.amount = e.amount := by
  cases key with
  | none =>
    obtain rfl := Option.some.inj hL
    exact ⟨e, h, rfl, rfl⟩
  | some k =>
    obtain ⟨a, -, rfl⟩ := Option.map_eq_some_iff.mp hL
    split_ifs at h
    · exact ⟨e, (List.mem_filter.mp h).1, rfl, rfl⟩
    · obtain ⟨e', he', hkey, hamount, -⟩ := mem_bump h
      exact ⟨e', he', hkey, hamount⟩

/-- The total after a holder joins: it is charged unless its key has an entry. -/
theorem total_acquire (L : Ledger κ) (key : Option κ) (size : ℤ) :
    ((L.acquire key size).total = L.total + size ∧ ¬∃ k, key = some k ∧ L.Has k) ∨
      (L.acquire key size).total = L.total := by
  cases key with
  | none => exact .inl ⟨rfl, fun ⟨_, h, _⟩ => Option.some_ne_none _ h.symm⟩
  | some k =>
    by_cases h : L.Has k
    · rw [acquire_of_has h]
      exact .inr rfl
    · rw [acquire_of_not_has h]
      exact .inl ⟨rfl, fun ⟨_, hk, h'⟩ => h (Option.some.inj hk ▸ h')⟩

/-- The total after a holder leaves. -/
theorem total_release {L' : Ledger κ} {key : Option κ} (hL : L.release key size = some L')
    (hsize : 0 ≤ size) (hheld : ∀ e ∈ L.held, 0 ≤ e.amount) : L'.total ≤ L.total := by
  cases key with
  | none =>
    obtain rfl := Option.some.inj hL
    exact Int.sub_le_self L.total hsize
  | some k =>
    obtain ⟨e, he, rfl⟩ := Option.map_eq_some_iff.mp hL
    split_ifs
    · exact Int.sub_le_self L.total (hheld e (List.mem_of_find?_eq_some he))
    · exact le_rfl

theorem accounts_empty : (empty : Ledger κ).Accounts 0 where
  nodup := List.nodup_nil
  has_iff _ := ⟨fun ⟨_, he, _⟩ => absurd he List.not_mem_nil, fun h => absurd h (lt_irrefl 0)⟩
  count _ he := absurd he List.not_mem_nil
  total := rfl

/-- **A holder joins.** -/
theorem Accounts.acquire (h : L.Accounts holders) (key : Option κ) (size : ℤ) :
    (L.acquire key size).Accounts ((key, size) ::ₘ holders) := by
  cases key with
  | none =>
    refine ⟨h.nodup, fun k => ?_, fun e he => ?_, ?_⟩
    · rw [holdersOf_cons_none]
      exact h.has_iff k
    · rw [holdersOf_cons_none]
      exact h.count e he
    · show L.total + size = shared L.held + _
      rw [h.total, unshared_cons_none, Int.add_assoc, Int.add_comm (unshared holders)]
  | some k =>
    by_cases hk : L.Has k
    · rw [acquire_of_has hk]
      refine ⟨?_, fun j => ?_, fun e he => ?_, ?_⟩
      · rw [map_key_bump]
        exact h.nodup
      · rw [has_bump _ L.total, holdersOf_cons_some]
        split_ifs with hj
        · exact ⟨fun _ => Nat.succ_pos _, fun _ => hj ▸ hk⟩
        · exact h.has_iff j
      · obtain ⟨e', he', hkey, -, hcount⟩ := mem_bump he
        rw [hcount, h.count e' he', hkey, holdersOf_cons_some]
        split_ifs with h1 h2 h2
        · push_cast
          rfl
        · exact absurd h1.symm h2
        · exact absurd h2.symm h1
        · rfl
      · rw [unshared_cons_some, shared_bump]
        exact h.total
    · rw [acquire_of_not_has hk]
      have hzero : holdersOf holders k = 0 :=
        Nat.eq_zero_of_not_pos fun hpos => hk ((h.has_iff k).mpr hpos)
      refine ⟨?_, fun j => ?_, fun e he => ?_, ?_⟩
      · rw [List.map_append, List.map_singleton, List.nodup_append]
        refine ⟨h.nodup, List.nodup_singleton k, fun a ha b hb => ?_⟩
        rw [List.mem_singleton.mp hb]
        rintro rfl
        exact hk (has_iff_mem.mpr ha)
      · rw [has_iff_mem, List.map_append, List.mem_append, ← has_iff_mem, h.has_iff j,
          holdersOf_cons_some, List.map_singleton, List.mem_singleton]
        split_ifs with hj
        · exact ⟨fun _ => Nat.succ_pos _, fun _ => .inr hj.symm⟩
        · exact or_iff_left fun hj' => hj hj'.symm
      · rw [holdersOf_cons_some]
        rcases List.mem_append.mp he with he | he
        · have hne : k ≠ e.key := fun heq => hk ⟨e, he, heq.symm⟩
          rw [if_neg hne]
          exact h.count e he
        · obtain rfl := List.mem_singleton.mp he
          show (1 : ℤ) = _
          rw [hzero, if_pos rfl]
          rfl
      · show L.total + size = shared (L.held ++ _) + _
        unfold shared
        rw [List.map_append, List.sum_append, unshared_cons_some, h.total]
        unfold shared
        simp only [List.map_cons, List.map_nil, List.sum_cons, List.sum_nil]
        omega

/-- **A holder leaves.** Its key is there, and the last holder of a key gives its amount back. -/
theorem Accounts.release {key : Option κ} (h : L.Accounts ((key, size) ::ₘ holders)) :
    ∃ L', L.release key size = some L' ∧ L'.Accounts holders := by
  cases key with
  | none =>
    refine ⟨_, rfl, h.nodup, fun k => ?_, fun e he => ?_, ?_⟩
    · have hk := h.has_iff k
      rwa [holdersOf_cons_none] at hk
    · have hcount := h.count e he
      rwa [holdersOf_cons_none] at hcount
    · show L.total - size = shared L.held + _
      rw [h.total, unshared_cons_none]
      omega
  | some k =>
    have hhas : L.Has k := (h.has_iff k).mpr (by
      rw [holdersOf_cons_some, if_pos rfl]
      exact Nat.succ_pos _)
    obtain ⟨e, hfind⟩ : ∃ e, (L.held.find? fun e => e.key = k) = some e := by
      obtain ⟨a, ha, hak⟩ := hhas
      exact Option.isSome_iff_exists.mp (List.find?_isSome.mpr ⟨a, ha, decide_eq_true hak⟩)
    have hmem := List.mem_of_find?_eq_some hfind
    have hkey : e.key = k := by simpa using List.find?_some hfind
    have hcount : e.count = holdersOf holders k + 1 := by
      rw [h.count e hmem, hkey, holdersOf_cons_some, if_pos rfl]
      rfl
    have htotal : L.total = shared L.held + unshared holders := by
      rw [h.total, unshared_cons_some]
    refine ⟨_, congrArg (Option.map _) hfind, ?_⟩
    show Accounts (if e.count - 1 = 0 then _ else _) holders
    split_ifs with hlast
    · have hzero : holdersOf holders k = 0 := by omega
      refine ⟨?_, fun j => ?_, fun b hb => ?_, ?_⟩
      · exact h.nodup.sublist (List.filter_sublist.map Entry.key)
      · have hj := h.has_iff j
        rw [holdersOf_cons_some] at hj
        by_cases hjk : k = j
        · refine ⟨fun ⟨b, hb, hbj⟩ => ?_, fun hpos => ?_⟩
          · exact absurd (hbj.trans hjk.symm) (of_decide_eq_true (List.mem_filter.mp hb).2)
          · rw [← hjk, hzero] at hpos
            exact absurd hpos (lt_irrefl 0)
        · rw [if_neg hjk, Nat.add_zero] at hj
          rw [← hj]
          constructor
          · exact fun ⟨b, hb, hbj⟩ => ⟨b, (List.mem_filter.mp hb).1, hbj⟩
          · exact fun ⟨b, hb, hbj⟩ => ⟨b, List.mem_filter.mpr ⟨hb, decide_eq_true fun hbk =>
              hjk (hbk.symm.trans hbj)⟩, hbj⟩
      · obtain ⟨hb, hbk⟩ := List.mem_filter.mp hb
        rw [h.count b hb, holdersOf_cons_some, if_neg fun heq => of_decide_eq_true hbk heq.symm]
        rfl
      · have hperm : shared L.held = e.amount + shared (L.held.filter fun e => e.key ≠ k) :=
          ((perm_of_find h.nodup hfind).map Entry.amount).sum_eq
        show L.total - e.amount = shared (L.held.filter fun e => e.key ≠ k) + unshared holders
        omega
    · have hpos : 0 < holdersOf holders k := by omega
      refine ⟨?_, fun j => ?_, fun b hb => ?_, ?_⟩
      · rw [map_key_bump]
        exact h.nodup
      · rw [has_bump _ L.total, h.has_iff j, holdersOf_cons_some]
        split_ifs with hjk
        · rw [← hjk]
          exact ⟨fun _ => hpos, fun _ => Nat.succ_pos _⟩
        · rfl
      · obtain ⟨b', hb', hbkey, -, hbcount⟩ := mem_bump hb
        rw [hbcount, h.count b' hb', hbkey, holdersOf_cons_some]
        split_ifs with h1 h2 h2
        · push_cast
          omega
        · exact absurd h1.symm h2
        · exact absurd h2.symm h1
        · rfl
      · rw [shared_bump]
        exact htotal

/-- **Without holders the ledger is empty.** -/
theorem Accounts.eq_empty (h : L.Accounts 0) : L = empty := by
  have hheld : L.held = [] := by
    refine List.eq_nil_iff_forall_not_mem.mpr fun e he => ?_
    exact absurd ((h.has_iff e.key).mp ⟨e, he, rfl⟩) (lt_irrefl 0)
  have htotal := h.total
  rw [hheld] at htotal
  cases L
  exact congrArg₂ Ledger.mk htotal hheld

end lemmas

end Ledger
