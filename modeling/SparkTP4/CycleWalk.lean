import Mathlib.Data.List.Chain
import Mathlib.Data.List.Nodup
import Mathlib.Data.List.Perm.Subperm

/-!
# Walks along an injective map

A walk follows a partial map from a start until it comes back to it. Nothing bounds its steps,
and it keeps no set of what it has visited. Where the map is injective and there are finitely
many places to go, it ends nevertheless – with an error, or back at the start: a place visited
before has its only predecessor on the path already. The path is then a cycle, and a cycle is
what the walk finds.
-/

namespace CycleWalk

variable {H E : Type} [DecidableEq H]

/-- The walk, with a bound on its steps: `none` where it has not ended by then. `order` is the
path so far, and `cur` its last element. -/
def walk (next : H → Except E H) (start : H) : ℕ → List H → H → Option (Except E (List H))
  | 0, _, _ => none
  | n + 1, order, cur =>
    match next cur with
    | .error e => some (.error e)
    | .ok h => if h = start then some (.ok order) else walk next start n (order ++ [h]) h

variable {next : H → Except E H} {start : H}

/-- A path from the start, without repetition. -/
structure Path (next : H → Except E H) (start : H) (order : List H) (cur : H) : Prop where
  head : order.head? = some start
  last : order.getLast? = some cur
  nodup : order.Nodup
  chain : order.IsChain fun a b => next a = .ok b

/-- The map is injective. -/
def Injective (next : H → Except E H) : Prop :=
  ∀ a b h, next a = .ok h → next b = .ok h → a = b

omit [DecidableEq H] in
theorem Path.single (next : H → Except E H) (start : H) : Path next start [start] start :=
  ⟨rfl, rfl, List.nodup_singleton start, .singleton start⟩

omit [DecidableEq H] in
/-- **The next place is new**, unless it is the start. -/
theorem Path.fresh {order : List H} {cur h : H} (hinj : Injective next)
    (hp : Path next start order cur) (hnext : next cur = .ok h) (hne : h ≠ start) : h ∉ order := by
  intro hmem
  obtain ⟨tail, rfl⟩ : ∃ tail, order = start :: tail := List.head?_eq_some_iff.mp hp.head
  obtain ⟨s, rest, rfl⟩ := List.append_of_mem ((List.mem_cons.mp hmem).resolve_left hne)
  have hchain := hp.chain
  have hlast := hp.last
  have hnodup := hp.nodup
  rw [← List.cons_append] at hchain hlast hnodup
  -- the element before `h` is `cur`, which is at or after `h`
  have hbefore := (List.isChain_append.mp hchain).2.2 _
    (List.getLast?_eq_getLast_of_ne_nil (List.cons_ne_nil start s)) h rfl
  have hcur := hinj _ _ _ hbefore hnext
  have hin : cur ∈ h :: rest := by
    rw [List.getLast?_append_of_ne_nil _ (List.cons_ne_nil h rest)] at hlast
    exact List.mem_of_getLast? hlast
  exact (List.nodup_append.mp hnodup).2.2 _ (List.getLast_mem _) cur hin hcur

omit [DecidableEq H] in
theorem Path.extend {order : List H} {cur h : H} (hinj : Injective next)
    (hp : Path next start order cur) (hnext : next cur = .ok h) (hne : h ≠ start) :
    Path next start (order ++ [h]) h where
  head := by rw [List.head?_append, hp.head]; rfl
  last := List.getLast?_concat
  nodup := by
    rw [← List.concat_eq_append]
    exact hp.nodup.concat (hp.fresh hinj hnext hne)
  chain := by
    refine List.isChain_append.mpr ⟨hp.chain, .singleton h, fun x hx y hy => ?_⟩
    obtain rfl : x = cur := Option.some.inj (hx.symm.trans hp.last)
    obtain rfl : y = h := (Option.some.inj hy).symm
    exact hnext

/-- **What a walk that comes back has found**: a path whose end leads to the start. -/
theorem walk_ok {n : ℕ} {order res : List H} {cur : H} (hinj : Injective next)
    (hp : Path next start order cur) (h : walk next start n order cur = some (.ok res)) :
    ∃ last, Path next start res last ∧ next last = .ok start := by
  induction n generalizing order cur with
  | zero => cases h
  | succ n ih =>
    unfold walk at h
    cases hnext : next cur with
    | error e => rw [hnext] at h; cases h
    | ok next' =>
      rw [hnext] at h
      dsimp only at h
      by_cases hstart : next' = start
      · rw [if_pos hstart] at h
        obtain rfl := Except.ok.inj (Option.some.inj h)
        exact ⟨cur, hp, hstart ▸ hnext⟩
      · rw [if_neg hstart] at h
        exact ih (hp.extend hinj hnext hstart) h

/-- **A walk ends** within as many steps as there are places. -/
theorem walk_ends {all : List H} (hall : ∀ a h, next a = .ok h → h ∈ all) (hinj : Injective next)
    {n : ℕ} {order : List H} {cur : H} (hp : Path next start order cur) (hsub : order ⊆ all)
    (hn : all.length < n + order.length) : ∃ r, walk next start n order cur = some r := by
  induction n generalizing order cur with
  | zero =>
    have hle := (List.subperm_of_subset hp.nodup hsub).length_le
    exact absurd hn (by omega)
  | succ n ih =>
    unfold walk
    cases hnext : next cur with
    | error e => exact ⟨_, rfl⟩
    | ok h =>
      dsimp only
      by_cases hstart : h = start
      · exact ⟨_, if_pos hstart⟩
      · rw [if_neg hstart]
        refine ih (hp.extend hinj hnext hstart) ?_ ?_
        · exact List.append_subset.mpr ⟨hsub, List.cons_subset.mpr ⟨hall cur h hnext, List.nil_subset all⟩⟩
        · rw [List.length_append, List.length_singleton]
          omega

/-- More steps do not change how a walk ends. -/
theorem walk_mono {n k : ℕ} {order : List H} {cur : H} {r : Except E (List H)}
    (h : walk next start n order cur = some r) : walk next start (n + k) order cur = some r := by
  induction n generalizing order cur with
  | zero => cases h
  | succ n ih =>
    rw [Nat.add_right_comm]
    unfold walk at h ⊢
    cases hnext : next cur with
    | error e => rw [hnext] at h; exact h
    | ok h' =>
      rw [hnext] at h
      dsimp only at h ⊢
      by_cases hstart : h' = start
      · rw [if_pos hstart] at h ⊢
        exact h
      · rw [if_neg hstart] at h ⊢
        exact ih h

/-- **A walk finds the cycle it is on.** -/
theorem walk_cycle {rest order : List H} {cur last : H} (hhead : order.head? = some start)
    (hcur : order.getLast? = some cur) (hlast : (order ++ rest).getLast? = some last)
    (hnodup : (order ++ rest).Nodup)
    (hchain : (order ++ rest).IsChain fun a b => next a = .ok b) (hback : next last = .ok start) :
    walk next start (rest.length + 1) order cur = some (.ok (order ++ rest)) := by
  induction rest generalizing order cur with
  | nil =>
    rw [List.append_nil] at hlast ⊢
    obtain rfl : cur = last := Option.some.inj (hcur.symm.trans hlast)
    unfold walk
    rw [hback]
    exact if_pos rfl
  | cons h rest ih =>
    have hnext : next cur = .ok h := (List.isChain_append.mp hchain).2.2 cur hcur h rfl
    have hne : h ≠ start := by
      rintro rfl
      exact (List.nodup_append.mp hnodup).2.2 h (List.mem_of_head? hhead) h List.mem_cons_self rfl
    have hassoc : order ++ h :: rest = (order ++ [h]) ++ rest := by simp
    rw [hassoc] at hlast hnodup hchain ⊢
    unfold walk
    rw [hnext]
    dsimp only
    rw [if_neg hne]
    refine ih ?_ List.getLast?_concat hlast hnodup hchain
    rw [List.head?_append, hhead]
    rfl

end CycleWalk
