import SparkTP4.Transition
import Mathlib.Data.Nat.Basic
import Mathlib.Logic.Function.Basic
import Mathlib.Tactic.Common

/-!
# The scheduler hooks of the idle park

The hooks of `roce_idle_park.py` in the thread of the scheduler: `_idle`, `_wake`,
and what `run_batch` and `process_input_requests` do first. The loops over
`_ENTRIES` go entry by entry, and a runtime may be created or dropped between any
two steps. `_STATE["allowed"]` is a cached flag: it must not be clear while a proxy
holds the mark, except on the way (`Inv.flag`).

The log lines of `_idle` and the counters they need are left out.
-/

namespace IdlePark.Hooks

/-- An `_Entry`: the weak reference to a runtime, and whether its proxy was allowed
to park. -/
structure Entry where
  runtime : ℕ
  allowed : Bool

/-- Where the thread of the scheduler is; `next` if `run_batch` goes on after
`_wake`. -/
inductive At where
  | free
  /-- the loop of `_idle`, before entry `i` -/
  | idle (i : ℕ)
  /-- before `proxy.park_allow()` -/
  | allow (i : ℕ)
  /-- before `e.allowed = True` -/
  | mark (i : ℕ)
  /-- the loop of `_wake`, before entry `i` -/
  | wake (next : Bool) (i : ℕ)
  /-- after `e.allowed = False` -/
  | kick (next : Bool) (i : ℕ)
  /-- in the `run_batch` of the scheduler -/
  | running
  deriving DecidableEq

structure State where
  /-- the `allow` word of the proxy of a runtime, while there is one -/
  word : ℕ → Option Bool
  /-- `_ENTRIES` -/
  entries : List Entry
  /-- `_STATE["allowed"]` -/
  allowed : Bool
  at_ : At

def State.start : State := ⟨fun _ => none, [], false, .free⟩

inductive Action where
  /-- the `__init__` of runtime `r`, as far as its proxy -/
  | create (r : ℕ)
  /-- the entry of runtime `r` is appended -/
  | install (r : ℕ)
  /-- runtime `r` is closed or collected -/
  | drop (r : ℕ)
  | idle
  | wake
  | runBatch
  /-- `process_input_requests`, with requests or without -/
  | process (reqs : Bool)
  /-- the next step of the hook, or the end of `run_batch` -/
  | next
  deriving DecidableEq

/-- `roce_park_allow` or `roce_park_wake` of the proxy of runtime `r`, if it has one. -/
def State.store (S : State) (r : ℕ) (allow : Bool) : ℕ → Option Bool :=
  Function.update S.word r ((S.word r).map fun _ => allow)

def State.startWake (S : State) (next : Bool) : State :=
  { S with allowed := false, at_ := .wake next 0 }

/-- The next step of the hook. -/
def State.next (S : State) : Option State :=
  match S.at_ with
  | .free => none
  | .idle i =>
    match S.entries[i]? with
    | none => some { S with allowed := true, at_ := .free }
    | some e => some { S with at_ := if (S.word e.runtime).isSome then .allow i else .idle (i + 1) }
  | .allow i =>
    match S.entries[i]? with
    | none => none
    | some e => some { S with word := S.store e.runtime true, at_ := .mark i }
  | .mark i =>
    match S.entries[i]? with
    | none => none
    | some e => some { S with entries := S.entries.set i ⟨e.runtime, true⟩, at_ := .idle (i + 1) }
  | .wake next i =>
    match S.entries[i]? with
    | none => some { S with at_ := if next then .running else .free }
    | some e =>
      if e.allowed then
        some { S with entries := S.entries.set i ⟨e.runtime, false⟩, at_ := .kick next i }
      else some { S with at_ := .wake next (i + 1) }
  | .kick next i =>
    match S.entries[i]? with
    | none => none
    | some e => some { S with word := S.store e.runtime false, at_ := .wake next (i + 1) }
  | .running => some { S with at_ := .free }

def step (S : State) : Action → Option State
  | .create r =>
    if S.word r = none ∧ ∀ e ∈ S.entries, e.runtime ≠ r then
      some { S with word := Function.update S.word r (some false) }
    else none
  | .install r =>
    if (S.word r).isSome ∧ ∀ e ∈ S.entries, e.runtime ≠ r then
      some { S with entries := S.entries ++ [⟨r, false⟩] }
    else none
  | .drop r => some { S with word := Function.update S.word r none }
  | .idle =>
    if S.at_ = .free then some { S with at_ := if S.allowed then .free else .idle 0 } else none
  | .wake => if S.at_ = .free then some (S.startWake false) else none
  | .runBatch =>
    if S.at_ = .free then
      some (if S.allowed then S.startWake true else { S with at_ := .running })
    else none
  | .process reqs =>
    if S.at_ = .free then some (if reqs ∧ S.allowed then S.startWake false else S) else none
  | .next => S.next

abbrev Reachable : State → State → Prop := Transition.Reachable step fun _ _ => True

/-! ## The flag -/

/-- The entry `i` may be allowed although the flag is clear. -/
def At.Covers : At → ℕ → Prop
  | free, _ | running, _ => False
  | idle _, _ | allow _, _ | mark _, _ => True
  | wake _ j, i => j ≤ i
  | kick _ j, i => j < i

/-- The proxy of entry `i` may hold the mark although the entry is not allowed. -/
def At.Holds : At → ℕ → Prop
  | mark j, i | kick _ j, i => i = j
  | _, _ => False

/-- The flag has been cleared. -/
def At.Cleared : At → Prop
  | wake .. | kick .. | running => True
  | _ => False

structure Inv (S : State) : Prop where
  marked : ∀ r, S.word r = some true →
    ∃ i e, S.entries[i]? = some e ∧ e.runtime = r ∧ (e.allowed = true ∨ S.at_.Holds i)
  flag : ∀ i e, S.entries[i]? = some e → e.allowed = true → S.allowed = true ∨ S.at_.Covers i
  cleared : S.at_.Cleared → S.allowed = false

theorem Inv.start : Inv .start where
  marked r h := by cases h
  flag i e h := by cases h
  cleared h := absurd h id

variable {S S' : State}

/-- A mark after the `allow` word of runtime `r` is stored. -/
theorem store_eq {r r' : ℕ} {allow : Bool} (h : S.store r allow r' = some true) :
    r' = r ∧ allow = true ∨ r' ≠ r ∧ S.word r' = some true := by
  unfold State.store at h
  by_cases hr : r' = r
  · subst hr
    rw [Function.update_self] at h
    obtain ⟨_, -, rfl⟩ := Option.map_eq_some_iff.mp h
    exact .inl ⟨rfl, rfl⟩
  · rw [Function.update_of_ne hr] at h
    exact .inr ⟨hr, h⟩

/-- An entry after another value of `allowed` is set at one of them. -/
theorem set_eq {i j : ℕ} {e e' : Entry} {allowed : Bool} (hi : S.entries[i]? = some e) :
    (S.entries.set i ⟨e.runtime, allowed⟩)[j]? = some e' ↔
      i = j ∧ e' = ⟨e.runtime, allowed⟩ ∨ i ≠ j ∧ S.entries[j]? = some e' := by
  obtain ⟨hlt, -⟩ := List.getElem?_eq_some_iff.mp hi
  by_cases hij : i = j
  · subst hij
    rw [List.getElem?_set_self hlt, Option.some_inj]
    exact ⟨fun h => .inl ⟨rfl, h.symm⟩, fun h => h.elim (fun h => h.2.symm) fun h => absurd rfl h.1⟩
  · rw [List.getElem?_set_ne hij]
    exact ⟨fun h => .inr ⟨hij, h⟩, fun h => h.elim (fun h => absurd h.1 hij) And.right⟩

/-- A hook begins or goes on with the words and entries as they are. -/
theorem Inv.at_ (hinv : Inv S) {allowed : Bool} {before at_ : At} (hat : S.at_ = before)
    (hholds : ∀ i, ¬before.Holds i)
    (hflag : ∀ i e, S.entries[i]? = some e → e.allowed = true →
      S.allowed = true ∨ before.Covers i → allowed = true ∨ at_.Covers i)
    (hcleared : at_.Cleared → allowed = false) :
    Inv { S with allowed := allowed, at_ := at_ } := by
  subst hat
  refine ⟨fun r h => ?_, fun i e hi he => hflag i e hi he (hinv.flag i e hi he), hcleared⟩
  obtain ⟨i, e, hi, he, h⟩ := hinv.marked r h
  exact ⟨i, e, hi, he, .inl (h.resolve_right (hholds i))⟩

theorem Inv.startWake (hinv : Inv S) (hat : S.at_ = .free) (next : Bool) :
    Inv (S.startWake next) :=
  hinv.at_ hat (fun _ => id) (fun i _ _ _ _ => .inr (Nat.zero_le i)) fun _ => rfl

/-- The words of the proxies change. -/
theorem Inv.word (hinv : Inv S) {word : ℕ → Option Bool}
    (hword : ∀ r, word r = some true → S.word r = some true) : Inv { S with word := word } where
  marked r h := hinv.marked r (hword r h)
  flag := hinv.flag
  cleared := hinv.cleared

/-- A step of a hook keeps the invariant. -/
theorem Inv.next (hinv : Inv S) (h : S.next = some S') : Inv S' := by
  have hmarked := hinv.marked
  have hflag := hinv.flag
  have hcleared := hinv.cleared
  unfold State.next at h
  split at h <;> rename_i hat <;> rw [hat] at hmarked hflag hcleared
  · cases h
  · rename_i i
    split at h <;> obtain rfl := Option.some.inj h
    · exact hinv.at_ hat (fun _ => id) (fun _ _ _ _ _ => .inl rfl)
        fun h => absurd h id
    · refine hinv.at_ hat (fun _ => id) (fun k _ _ _ _ => .inr ?_) fun h => ?_
      · split <;> trivial
      · split at h <;> exact absurd h id
  · rename_i i
    split at h
    · cases h
    · rename_i e hi
      obtain rfl := Option.some.inj h
      refine ⟨fun r h => ?_, fun _ _ _ _ => .inr trivial, fun h => absurd h id⟩
      obtain ⟨rfl, -⟩ | ⟨-, h⟩ := store_eq h
      · exact ⟨i, e, hi, rfl, .inr rfl⟩
      · obtain ⟨k, e', hk, he', h⟩ := hmarked r h
        exact ⟨k, e', hk, he', h.imp id fun h => absurd h id⟩
  · rename_i i
    split at h
    · cases h
    · rename_i e hi
      obtain rfl := Option.some.inj h
      refine ⟨fun r h => ?_, fun _ _ _ _ => .inr trivial, fun h => absurd h id⟩
      obtain ⟨k, e', hk, he', h⟩ := hmarked r h
      by_cases hik : i = k
      · subst hik
        obtain rfl := Option.some.inj (hi.symm.trans hk)
        exact ⟨i, ⟨e.runtime, true⟩, (set_eq hi).mpr (.inl ⟨rfl, rfl⟩), he', .inl rfl⟩
      · exact ⟨k, e', (set_eq hi).mpr (.inr ⟨hik, hk⟩), he',
          .inl (h.resolve_right fun h => hik (Eq.symm h))⟩
  · rename_i next i
    split at h
    · rename_i hi
      obtain rfl := Option.some.inj h
      refine hinv.at_ hat (fun _ => id) (fun k e hk _ h => ?_) fun h => hcleared trivial
      -- the loop is over: no entry is left behind it
      obtain h | h := h
      · exact .inl h
      · have hlt := (List.getElem?_eq_some_iff.mp hk).1
        exact absurd hlt (not_lt.mpr (le_trans (List.getElem?_eq_none_iff.mp hi) h))
    · rename_i e hi
      split at h <;> rename_i hallowed
      · obtain rfl := Option.some.inj h
        refine ⟨fun r h => ?_, fun k e' hk he' => ?_, fun _ => hcleared trivial⟩
        · obtain ⟨k, e', hk, he', h⟩ := hmarked r h
          by_cases hik : i = k
          · subst hik
            obtain rfl := Option.some.inj (hi.symm.trans hk)
            exact ⟨i, ⟨e.runtime, false⟩, (set_eq hi).mpr (.inl ⟨rfl, rfl⟩), he', .inr rfl⟩
          · exact ⟨k, e', (set_eq hi).mpr (.inr ⟨hik, hk⟩), he', h.imp id fun h => absurd h id⟩
        · obtain ⟨rfl, rfl⟩ | ⟨hik, hk⟩ := (set_eq hi).mp hk
          · cases he'
          · exact (hflag k e' hk he').imp id fun h => lt_of_le_of_ne h hik
      · obtain rfl := Option.some.inj h
        refine hinv.at_ hat (fun _ => id) (fun k e' hk he' h => ?_)
          fun _ => hcleared trivial
        refine h.imp id fun h => lt_of_le_of_ne (show i ≤ k from h) ?_
        rintro rfl
        obtain rfl := Option.some.inj (hi.symm.trans hk)
        exact hallowed he'
  · rename_i next i
    split at h
    · cases h
    · rename_i e hi
      obtain rfl := Option.some.inj h
      refine ⟨fun r h => ?_, hflag, fun _ => hcleared trivial⟩
      obtain ⟨-, h⟩ | ⟨hr, h⟩ := store_eq h
      · cases h
      · obtain ⟨k, e', hk, he', h⟩ := hmarked r h
        refine ⟨k, e', hk, he', .inl (h.resolve_right ?_)⟩
        rintro rfl
        obtain rfl := Option.some.inj (hi.symm.trans hk)
        exact hr he'.symm
  · obtain rfl := Option.some.inj h
    exact hinv.at_ hat (fun _ => id) (fun _ _ _ _ => id)
      fun h => absurd h id

theorem Inv.step {a : Action} (hinv : Inv S) (h : step S a = some S') : Inv S' := by
  cases a with
  | create r =>
    obtain ⟨-, h⟩ := Option.ite_none_right_eq_some.mp h
    obtain rfl := Option.some.inj h
    refine hinv.word fun r' h => ?_
    by_cases hr : r' = r
    · subst hr
      rw [Function.update_self] at h
      cases h
    · rwa [Function.update_of_ne hr] at h
  | install r =>
    obtain ⟨-, h⟩ := Option.ite_none_right_eq_some.mp h
    obtain rfl := Option.some.inj h
    refine ⟨fun r' h => ?_, fun i e hi he => ?_, hinv.cleared⟩
    · obtain ⟨i, e, hi, h⟩ := hinv.marked r' h
      exact ⟨i, e, List.getElem?_append_left (List.getElem?_eq_some_iff.mp hi).1 ▸ hi, h⟩
    · obtain hlt | hle := lt_or_ge i S.entries.length
      · rw [List.getElem?_append_left hlt] at hi
        exact hinv.flag i e hi he
      · rw [List.getElem?_append_right hle] at hi
        obtain rfl := List.mem_singleton.mp (List.mem_of_getElem? hi)
        cases he
  | drop r =>
    obtain rfl := Option.some.inj h
    refine hinv.word fun r' h => ?_
    by_cases hr : r' = r
    · subst hr
      rw [Function.update_self] at h
      cases h
    · rwa [Function.update_of_ne hr] at h
  | idle =>
    obtain ⟨hat, h⟩ := Option.ite_none_right_eq_some.mp h
    obtain rfl := Option.some.inj h
    refine hinv.at_ hat (fun _ => id) (fun k _ _ _ h => ?_) fun h => ?_
    · exact h.imp id fun h => absurd h id
    · split at h <;> exact absurd h id
  | wake =>
    obtain ⟨hat, h⟩ := Option.ite_none_right_eq_some.mp h
    obtain rfl := Option.some.inj h
    exact hinv.startWake hat false
  | runBatch =>
    obtain ⟨hat, h⟩ := Option.ite_none_right_eq_some.mp h
    obtain rfl := Option.some.inj h
    split <;> rename_i hallowed
    · exact hinv.startWake hat true
    · exact hinv.at_ hat (fun _ => id)
        (fun k _ _ _ h => h.imp id fun h => absurd h id)
        fun _ => Bool.eq_false_iff.mpr hallowed
  | process reqs =>
    obtain ⟨hat, h⟩ := Option.ite_none_right_eq_some.mp h
    obtain rfl := Option.some.inj h
    split
    · exact hinv.startWake hat false
    · exact hinv
  | next => exact hinv.next h

theorem Inv.reachable (h : Reachable .start S) : Inv S :=
  h.invariant Inv .start fun _ _ _ hinv _ hstep => hinv.step hstep

/-- **No proxy holds the mark** while `run_batch` runs. -/
theorem running_awake (h : Reachable .start S) (hat : S.at_ = .running) (r : ℕ) :
    S.word r ≠ some true := fun hword => by
  obtain ⟨hmarked, hflag, hcleared⟩ := Inv.reachable h
  rw [hat] at hmarked hflag hcleared
  obtain ⟨i, e, hi, -, hallowed | hholds⟩ := hmarked r hword
  · obtain hset | hcovers := hflag i e hi hallowed
    · exact absurd hset (by rw [hcleared trivial]; simp)
    · exact hcovers
  · exact hholds

end IdlePark.Hooks
