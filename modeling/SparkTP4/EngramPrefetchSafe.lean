import SparkTP4.EngramPrefetch
import Mathlib.Data.Nat.Basic
import Mathlib.Tactic.Common

/-!
# When the gathers return the rows of their ids

Each stream knows something of the staging buffers before its next operation
(`Pre`), and an operation of the other stream with ids that agree does not disturb
it (`Pre.stable`). Where the ids may differ the waits keep the two apart: a
prefetch waits for what was enqueued on the main stream before it (`Inv.apart`),
and staged rows wait for the prefetch. The synchronous path does not wait for the
side stream, so what is outstanding there has to be clear of it.
-/

namespace EngramPrefetch

variable {layers : ℕ} {A B : Type}

/-! ## The operations of a lookup -/

section Buffers

variable (weight : ℤ → A) (scale : ℤ → B) {b : Buffers A B} {x y : List ℤ} {φ ψ : Phase}

/-- What is in the buffers before an operation of a lookup of `x`. -/
def Pre (x : List ℤ) (b : Buffers A B) : Phase → Prop
  | .ids => True
  | .lookup => ∀ i a, x[i]? = some a → b.ids i = a
  | .weights => ∀ i a, x[i]? = some a → b.w i = weight a ∧ b.s i = scale a
  | .scales => ∀ i a, x[i]? = some a → b.dw i = weight a ∧ b.s i = scale a
  | .gather => ∀ i a, x[i]? = some a → b.dw i = weight a ∧ b.ds i = scale a

def Phase.next : Phase → Phase
  | ids => lookup
  | lookup => weights
  | weights => scales
  | scales | gather => gather

theorem lt_of_getElem? {i : ℕ} {a : ℤ} (h : x[i]? = some a) : i < x.length :=
  (List.getElem?_eq_some_iff.mp h).1

variable {weight scale}

/-- The operations follow on each other. -/
theorem Pre.run (h : Pre weight scale x b φ) :
    Pre weight scale x (φ.run weight scale x b) φ.next := by
  cases φ with
  | ids =>
    intro i a hi
    show x[i]?.getD (b.ids i) = a
    rw [hi]
    rfl
  | lookup =>
    intro i a hi
    show (if i < x.length then weight (b.ids i) else b.w i) = weight a ∧
      (if i < x.length then scale (b.ids i) else b.s i) = scale a
    rw [if_pos (lt_of_getElem? hi), if_pos (lt_of_getElem? hi), h i a hi]
    exact ⟨rfl, rfl⟩
  | weights =>
    intro i a hi
    show (if i < x.length then b.w i else b.dw i) = weight a ∧ b.s i = scale a
    rw [if_pos (lt_of_getElem? hi)]
    exact h i a hi
  | scales =>
    intro i a hi
    show b.dw i = weight a ∧ (if i < x.length then b.s i else b.ds i) = scale a
    rw [if_pos (lt_of_getElem? hi)]
    exact h i a hi
  | gather => exact h

theorem Agree.eq (h : Agree y x) {i : ℕ} {a : ℤ} (hi : i < y.length) (hx : x[i]? = some a) :
    y[i]? = some a := by
  have hmem : (y[i], a) ∈ y.zip x := by
    refine List.mem_of_getElem? (i := i) ?_
    rw [List.getElem?_zip_eq_some]
    exact ⟨List.getElem?_eq_getElem hi, hx⟩
  exact (List.getElem?_eq_getElem hi).trans (congrArg some (h _ hmem))

theorem Agree.symm (h : Agree y x) : Agree x y := fun p hp => by
  obtain ⟨i, hi⟩ := List.getElem?_of_mem hp
  obtain ⟨hx, hy⟩ := List.getElem?_zip_eq_some.mp hi
  exact Option.some.inj ((h.eq (lt_of_getElem? hy) hx).symm.trans hy)

/-- **Interference freedom**: a lookup with ids that agree leaves what a lookup of `x`
has in the buffers. -/
theorem Pre.stable (hx : Pre weight scale x b ψ) (hy : Pre weight scale y b φ) (h : Agree y x) :
    Pre weight scale x (φ.run weight scale y b) ψ := by
  cases φ with
  | ids =>
    cases ψ with
    | lookup =>
      intro i a hi
      show y[i]?.getD (b.ids i) = a
      by_cases hlt : i < y.length
      · rw [h.eq hlt hi]
        rfl
      · rw [List.getElem?_eq_none (not_lt.mp hlt)]
        exact hx i a hi
    | _ => exact hx
  | lookup =>
    have hnew : ∀ i a, x[i]? = some a → i < y.length → b.ids i = a :=
      fun i a hi hlt => hy i a (h.eq hlt hi)
    cases ψ with
    | weights =>
      intro i a hi
      show (if i < y.length then weight (b.ids i) else b.w i) = weight a ∧
        (if i < y.length then scale (b.ids i) else b.s i) = scale a
      by_cases hlt : i < y.length
      · rw [if_pos hlt, if_pos hlt, hnew i a hi hlt]
        exact ⟨rfl, rfl⟩
      · rw [if_neg hlt, if_neg hlt]
        exact hx i a hi
    | scales =>
      intro i a hi
      show b.dw i = weight a ∧ (if i < y.length then scale (b.ids i) else b.s i) = scale a
      by_cases hlt : i < y.length
      · rw [if_pos hlt, hnew i a hi hlt]
        exact ⟨(hx i a hi).1, rfl⟩
      · rw [if_neg hlt]
        exact hx i a hi
    | _ => exact hx
  | weights =>
    have hnew : ∀ i a, x[i]? = some a → i < y.length → b.w i = weight a :=
      fun i a hi hlt => (hy i a (h.eq hlt hi)).1
    cases ψ with
    | scales =>
      intro i a hi
      show (if i < y.length then b.w i else b.dw i) = weight a ∧ b.s i = scale a
      by_cases hlt : i < y.length
      · rw [if_pos hlt]
        exact ⟨hnew i a hi hlt, (hx i a hi).2⟩
      · rw [if_neg hlt]
        exact hx i a hi
    | gather =>
      intro i a hi
      show (if i < y.length then b.w i else b.dw i) = weight a ∧ b.ds i = scale a
      by_cases hlt : i < y.length
      · rw [if_pos hlt]
        exact ⟨hnew i a hi hlt, (hx i a hi).2⟩
      · rw [if_neg hlt]
        exact hx i a hi
    | _ => exact hx
  | scales =>
    cases ψ with
    | gather =>
      intro i a hi
      show b.dw i = weight a ∧ (if i < y.length then b.s i else b.ds i) = scale a
      by_cases hlt : i < y.length
      · rw [if_pos hlt]
        exact ⟨(hx i a hi).1, (hy i a (h.eq hlt hi)).2⟩
      · rw [if_neg hlt]
        exact hx i a hi
    | _ => exact hx
  | gather => exact hx

theorem rows_eq (h : Pre weight scale x b .gather) :
    b.rows x.length = x.map fun a => (weight a, scale a) := by
  refine List.ext_getElem? fun i => ?_
  unfold Buffers.rows
  rw [List.getElem?_map, List.getElem?_map]
  cases hi : x[i]? with
  | none => rw [List.getElem?_eq_none (by simpa using List.getElem?_eq_none_iff.mp hi)]; rfl
  | some a =>
    obtain ⟨hw, hs⟩ := h i a hi
    rw [List.getElem?_range (lt_of_getElem? hi)]
    show some (b.dw i, b.ds i) = some (weight a, scale a)
    rw [hw, hs]

end Buffers

/-! ## The invariant -/

def SideOp.fork : SideOp → ℕ
  | wait n | run _ _ n => n

section Inv

variable (weight : Fin layers → ℤ → A) (scale : Fin layers → ℤ → B)

/-- The rows of a prefetch of `x` are staged for operation `i` of the main stream: the
prefetch is the last of the first `m` operations of the side stream, it has forked
after what the synchronous path enqueued before `i`, and what comes after it on the
side stream waits for `i`. -/
structure StagedAt (S : State layers A B) (l : Fin layers) (x : List ℤ) (m i : ℕ) : Prop where
  last : ∃ j n, m = j + 1 ∧ (S.side l)[j]? = some (.run .scales x n) ∧
    ∀ i' φ y, i' < i → S.main[i']? = some (.run l φ y) → i' < n
  after : ∀ j op, m ≤ j → (S.side l)[j]? = some op → i < op.fork
  rows : m ≤ S.sideDone l →
    Pre (weight l) (scale l) x (S.staging l (capacity x.length)) .gather

structure Inv (S : State layers A B) : Prop where
  mainDone_le : S.mainDone ≤ S.main.length
  sideDone_le : ∀ l, S.sideDone l ≤ (S.side l).length
  disabled : S.disabled = true → ∀ l, S.pending l = none
  mainOrder : ∀ i l φ x, S.main[i]? = some (.run l φ x) → φ = .ids ∨
    ∃ i' φ', i = i' + 1 ∧ S.main[i']? = some (.run l φ' x) ∧ φ'.next = φ
  sideOrder : ∀ l j φ x n, (S.side l)[j]? = some (.run φ x n) → ∃ j', j = j' + 1 ∧
    (φ = .ids ∧ (S.side l)[j']? = some (.wait n) ∨
      ∃ φ', (S.side l)[j']? = some (.run φ' x n) ∧ φ'.next = φ)
  joined : ∀ i l m, i < S.mainDone → S.main[i]? = some (.join l m) → m ≤ S.sideDone l
  waited : ∀ l j op, j < S.sideDone l → (S.side l)[j]? = some op → op.fork ≤ S.mainDone
  mainNow : ∀ l φ x, S.main[S.mainDone]? = some (.run l φ x) →
    Pre (weight l) (scale l) x (S.staging l (capacity x.length)) φ
  sideNow : ∀ l φ x n, (S.side l)[S.sideDone l]? = some (.run φ x n) →
    Pre (weight l) (scale l) x (S.staging l (capacity x.length)) φ
  apart : ∀ l i j φ ψ x y n, S.mainDone ≤ i → S.main[i]? = some (.run l φ x) →
    S.sideDone l ≤ j → (S.side l)[j]? = some (.run ψ y n) →
    capacity y.length = capacity x.length → i < n ∨ Agree y x
  read : ∀ i l x, S.mainDone ≤ i → S.main[i]? = some (.read l x) →
    ∃ i' m, i = i' + 1 ∧ S.main[i']? = some (.join l m) ∧ StagedAt weight scale S l x m i
  pending : ∀ l p, S.pending l = some p → S.gathered l = false →
    StagedAt weight scale S l p.ids (S.side l).length S.main.length
  outs : ∀ o ∈ S.outs, o.rows = o.ids.map fun a => (weight o.layer a, scale o.layer a)

variable {weight scale}

theorem Inv.start (staging : Fin layers → ℕ → Buffers A B) : Inv weight scale (.start staging) where
  mainDone_le := le_rfl
  sideDone_le _ := le_rfl
  disabled h := by cases h
  mainOrder i l φ x h := by cases h
  sideOrder l j φ x n h := by cases h
  joined i l m h := absurd h (Nat.not_lt_zero i)
  waited l j op h := absurd h (Nat.not_lt_zero j)
  mainNow l φ x h := by cases h
  sideNow l φ x n h := by cases h
  apart l i j φ ψ x y n _ h := by cases h
  read i l x _ h := by cases h
  pending l p h := by cases h
  outs o h := absurd h List.not_mem_nil

variable {S : State layers A B}

/-! ## The streams run -/

/-- The staging buffers after an operation of a lookup of `x` by layer `l`. -/
theorem staging_run (S : State layers A B) (l l' : Fin layers) (φ : Phase) (x : List ℤ) (k : ℕ) :
    (S.run weight scale l φ x).staging l' k =
      if l' = l ∧ k = capacity x.length then φ.run (weight l) (scale l) x (S.staging l' k)
      else S.staging l' k := by
  unfold State.run
  dsimp only
  by_cases hl : l' = l
  · subst hl
    rw [Function.update_self]
    by_cases hk : k = capacity x.length
    · subst hk
      rw [Function.update_self, if_pos ⟨rfl, rfl⟩]
    · rw [Function.update_of_ne hk, if_neg fun h => hk h.2]
  · rw [Function.update_of_ne hl, if_neg fun h => hl h.1]

/-- What another lookup has in the buffers stays if it uses others or has ids that agree. -/
theorem pre_run {l l' : Fin layers} {φ ψ : Phase} {x y : List ℤ}
    (hx : Pre (weight l) (scale l) x (S.staging l (capacity x.length)) φ)
    (hy : Pre (weight l') (scale l') y (S.staging l' (capacity y.length)) ψ)
    (h : l' = l → capacity y.length = capacity x.length → Agree x y) :
    Pre (weight l') (scale l') y ((S.run weight scale l φ x).staging l' (capacity y.length)) ψ := by
  rw [staging_run]
  split
  · rename_i heq
    obtain ⟨rfl, hk⟩ := heq
    exact hy.stable (hk ▸ hx) (h rfl hk)
  · exact hy

/-- The waits before an operation on the side stream are over. -/
theorem Inv.forked (hinv : Inv weight scale S) {l : Fin layers} {φ : Phase} {x : List ℤ} {n : ℕ}
    (h : (S.side l)[S.sideDone l]? = some (.run φ x n)) : n ≤ S.mainDone := by
  obtain ⟨j, hj, hprev⟩ := hinv.sideOrder l _ φ x n h
  have hlt : j < S.sideDone l := hj ▸ Nat.lt_succ_self j
  obtain ⟨-, hwait⟩ | ⟨φ', hrun, -⟩ := hprev
  · exact hinv.waited l j _ hlt hwait
  · exact hinv.waited l j _ hlt hrun

/-- A prefetch whose rows are staged is not disturbed by the synchronous path before
the gather. -/
theorem StagedAt.not_done (hinv : Inv weight scale S) {l : Fin layers} {x y : List ℤ} {m i : ℕ}
    {φ : Phase} (h : StagedAt weight scale S l x m i) (hi : S.mainDone < i)
    (hop : S.main[S.mainDone]? = some (.run l φ y)) : S.sideDone l < m := by
  obtain ⟨j, n, rfl, hlast, hmain⟩ := h.last
  refine not_le.mp fun hle => ?_
  have := hinv.waited l j _ hle hlast
  exact absurd (hmain _ φ y hi hop) (not_lt.mpr this)

/-- The main stream goes on. -/
theorem Inv.main_next (hinv : Inv weight scale S) {op : MainOp layers}
    (hop : S.main[S.mainDone]? = some op) {staging : Fin layers → ℕ → Buffers A B}
    {outs : List (Out layers A B)} (hjoin : ∀ l m, op = .join l m → m ≤ S.sideDone l)
    (hstable : ∀ l y ψ, Pre (weight l) (scale l) y (S.staging l (capacity y.length)) ψ →
      (∀ φ x, op = .run l φ x → capacity y.length = capacity x.length → Agree x y) →
      Pre (weight l) (scale l) y (staging l (capacity y.length)) ψ)
    (hpre : ∀ l φ x, op = .run l φ x →
      Pre (weight l) (scale l) x (staging l (capacity x.length)) φ.next)
    (houts : ∀ o ∈ outs, o.rows = o.ids.map fun a => (weight o.layer a, scale o.layer a)) :
    Inv weight scale { S with staging := staging, mainDone := S.mainDone + 1, outs := outs } := by
  have hlt : S.mainDone < S.main.length := (List.getElem?_eq_some_iff.mp hop).1
  have hstaged : ∀ l x m i, StagedAt weight scale S l x m i → S.mainDone < i →
      StagedAt weight scale { S with
        staging := staging, mainDone := S.mainDone + 1, outs := outs } l x m i := by
    intro l x m i h hi
    refine ⟨h.last, h.after, fun hm => hstable l x .gather (h.rows hm) fun φ y heq _ => ?_⟩
    exact absurd (h.not_done hinv hi (heq ▸ hop)) (not_lt.mpr hm)
  refine ⟨hlt, hinv.sideDone_le, hinv.disabled, hinv.mainOrder, hinv.sideOrder, fun i l m hi h => ?_,
    fun l j op' hj h => Nat.le_succ_of_le (hinv.waited l j op' hj h), fun l φ x h => ?_,
    fun l φ x n h => ?_, fun l i j φ ψ x y n hi => ?_, fun i l x hi h => ?_, fun l p hp hg => ?_,
    houts⟩
  · obtain hi | rfl := Nat.lt_succ_iff_lt_or_eq.mp hi
    · exact hinv.joined i l m hi h
    · exact hjoin l m (Option.some.inj (hop.symm.trans h))
  · obtain rfl | ⟨i', φ', hi', h', rfl⟩ := hinv.mainOrder _ l φ x h
    · trivial
    · obtain rfl := Nat.succ.inj hi'
      exact hpre l φ' x (Option.some.inj (hop.symm.trans h'))
  · refine hstable l x φ (hinv.sideNow l φ x n h) fun φ' y heq hk => ?_
    obtain hn | hagree := hinv.apart l _ _ φ' φ y x n le_rfl (heq ▸ hop) le_rfl h hk
    · exact absurd (hinv.forked h) (not_le.mpr hn)
    · exact hagree.symm
  · exact hinv.apart l i j φ ψ x y n (Nat.le_of_succ_le hi)
  · obtain ⟨i', m, hi', hjoin, hst⟩ := hinv.read i l x (Nat.le_of_succ_le hi) h
    exact ⟨i', m, hi', hjoin, hstaged l x m i hst hi⟩
  · exact hstaged l p.ids _ _ (hinv.pending l p hp hg) hlt

/-- The side stream of layer `l` goes on. -/
theorem Inv.side_next (hinv : Inv weight scale S) {l : Fin layers} {op : SideOp}
    (hop : (S.side l)[S.sideDone l]? = some op) {staging : Fin layers → ℕ → Buffers A B}
    (hfork : op.fork ≤ S.mainDone)
    (hstable : ∀ l' y ψ, Pre (weight l') (scale l') y (S.staging l' (capacity y.length)) ψ →
      (∀ φ x n, l' = l → op = .run φ x n → capacity y.length = capacity x.length → Agree x y) →
      Pre (weight l') (scale l') y (staging l' (capacity y.length)) ψ)
    (hpre : ∀ φ x n, op = .run φ x n →
      Pre (weight l) (scale l) x (staging l (capacity x.length)) φ.next) :
    Inv weight scale { S with
      staging := staging, sideDone := Function.update S.sideDone l (S.sideDone l + 1) } := by
  have hlt : S.sideDone l < (S.side l).length := (List.getElem?_eq_some_iff.mp hop).1
  have hdone : ∀ l', S.sideDone l' ≤ Function.update S.sideDone l (S.sideDone l + 1) l' := by
    intro l'
    by_cases hl : l' = l
    · subst hl
      rw [Function.update_self]
      exact Nat.le_succ _
    · rw [Function.update_of_ne hl]
  have hstaged : ∀ l' x m i, StagedAt weight scale S l' x m i → S.mainDone ≤ i →
      StagedAt weight scale { S with
        staging := staging
        sideDone := Function.update S.sideDone l (S.sideDone l + 1) } l' x m i := by
    intro l' x m i h hi
    refine ⟨h.last, h.after, fun hm => ?_⟩
    replace hm : m ≤ Function.update S.sideDone l (S.sideDone l + 1) l' := hm
    by_cases hl : l' = l
    · subst hl
      rw [Function.update_self] at hm
      obtain hm | hm := Nat.lt_or_ge (S.sideDone l') m
      · -- the last operation of the prefetch
        obtain ⟨j, n, hj, hlast, -⟩ := h.last
        obtain rfl : S.sideDone l' = j := by omega
        obtain rfl := Option.some.inj (hop.symm.trans hlast)
        exact hpre .scales x n rfl
      · -- what comes after the prefetch waits for the gather
        exact absurd (h.after _ op hm hop) (not_lt.mpr (le_trans hfork hi))
    · rw [Function.update_of_ne hl] at hm
      exact hstable l' x .gather (h.rows hm) fun _ _ _ h => absurd h hl
  refine ⟨hinv.mainDone_le, fun l' => ?_, hinv.disabled, hinv.mainOrder, hinv.sideOrder,
    fun i l' m hi h => le_trans (hinv.joined i l' m hi h) (hdone l'), fun l' j op' hj h => ?_,
    fun l' φ x h => ?_, fun l' φ x n h => ?_,
    fun l' i j φ ψ x y n hi hm hj => hinv.apart l' i j φ ψ x y n hi hm (le_trans (hdone l') hj),
    fun i l' x hi h => ?_, fun l' p hp hg => ?_, hinv.outs⟩
  · show Function.update S.sideDone l (S.sideDone l + 1) l' ≤ _
    by_cases hl : l' = l
    · subst hl
      rwa [Function.update_self]
    · rw [Function.update_of_ne hl]
      exact hinv.sideDone_le l'
  · replace hj : j < Function.update S.sideDone l (S.sideDone l + 1) l' := hj
    by_cases hl : l' = l
    · subst hl
      rw [Function.update_self] at hj
      obtain hj | rfl := Nat.lt_succ_iff_lt_or_eq.mp hj
      · exact hinv.waited l' j op' hj h
      · obtain rfl := Option.some.inj (hop.symm.trans h)
        exact hfork
    · rw [Function.update_of_ne hl] at hj
      exact hinv.waited l' j op' hj h
  · refine hstable l' x φ (hinv.mainNow l' φ x h) fun ψ y n hl heq hk => ?_
    subst hl heq
    obtain hn | hagree := hinv.apart l' _ _ φ ψ x y n le_rfl h le_rfl hop hk.symm
    · exact absurd hfork (not_le.mpr hn)
    · exact hagree
  · replace h : (S.side l')[Function.update S.sideDone l (S.sideDone l + 1) l']? =
      some (.run φ x n) := h
    by_cases hl : l' = l
    · subst hl
      rw [Function.update_self] at h
      obtain ⟨j, hj, ⟨rfl, -⟩ | ⟨φ', h', rfl⟩⟩ := hinv.sideOrder l' _ φ x n h
      · trivial
      · obtain rfl := Nat.succ.inj hj
        exact hpre φ' x n (Option.some.inj (hop.symm.trans h'))
    · rw [Function.update_of_ne hl] at h
      exact hstable l' x φ (hinv.sideNow l' φ x n h) fun _ _ _ h => absurd h hl
  · obtain ⟨i', m, hi', hjoin, hst⟩ := hinv.read i l' x hi h
    exact ⟨i', m, hi', hjoin, hstaged l' x m i hst hi⟩
  · exact hstaged l' p.ids _ _ (hinv.pending l' p hp hg) hinv.mainDone_le

theorem Inv.main_step (hinv : Inv weight scale S) {S' : State layers A B}
    (h : S.mainStep weight scale = some S') : Inv weight scale S' := by
  unfold State.mainStep at h
  dsimp only at h
  split at h
  · cases h
  · rename_i hop
    obtain rfl := Option.some.inj h
    exact hinv.main_next hop (fun l m h => by cases h) (fun l y ψ h _ => h)
      (fun l φ x h => by cases h) hinv.outs
  · rename_i l x hop
    obtain rfl := Option.some.inj h
    have hpre := hinv.mainNow l .gather x hop
    refine hinv.main_next hop (fun l m h => by cases h) (fun l y ψ h _ => h)
      (fun l φ x h => by cases h; exact hpre) fun o ho => ?_
    obtain rfl | ho := List.mem_cons.mp ho
    · exact rows_eq hpre
    · exact hinv.outs o ho
  · rename_i l φ x _ hop
    obtain rfl := Option.some.inj h
    have hpre := hinv.mainNow l φ x hop
    refine @Inv.main_next _ _ _ _ _ _ hinv _ hop (S.run weight scale l φ x).staging _
      (fun l m h => by cases h) (fun l' y ψ hy hagree => ?_) (fun l' φ' x' heq => ?_) hinv.outs
    · refine pre_run hpre hy fun hl hk => ?_
      subst hl
      exact hagree φ x rfl hk
    · cases heq
      rw [staging_run, if_pos ⟨rfl, rfl⟩]
      exact hpre.run
  · rename_i l m hop
    obtain ⟨hm, h⟩ := Option.ite_none_right_eq_some.mp h
    obtain rfl := Option.some.inj h
    exact hinv.main_next hop (fun l m h => by cases h; exact hm) (fun l y ψ h _ => h)
      (fun l φ x h => by cases h) hinv.outs
  · rename_i l x hop
    obtain rfl := Option.some.inj h
    obtain ⟨i, m, hi, hjoin, hstaged⟩ := hinv.read _ l x le_rfl hop
    refine hinv.main_next hop (fun l m h => by cases h) (fun l y ψ h _ => h)
      (fun l φ x h => by cases h) fun o ho => ?_
    obtain rfl | ho := List.mem_cons.mp ho
    · exact rows_eq (hstaged.rows (hinv.joined i l m (hi ▸ Nat.lt_succ_self i) hjoin))
    · exact hinv.outs o ho

theorem Inv.side_step (hinv : Inv weight scale S) {l : Fin layers} {S' : State layers A B}
    (h : S.sideStep weight scale l = some S') : Inv weight scale S' := by
  unfold State.sideStep at h
  dsimp only at h
  split at h
  · cases h
  · rename_i n hop
    obtain ⟨hn, h⟩ := Option.ite_none_right_eq_some.mp h
    obtain rfl := Option.some.inj h
    exact hinv.side_next hop hn (fun l y ψ h _ => h) fun φ x n h => by cases h
  · rename_i φ x n hop
    obtain rfl := Option.some.inj h
    have hpre := hinv.sideNow l φ x n hop
    refine @Inv.side_next _ _ _ _ _ _ hinv _ _ hop (S.run weight scale l φ x).staging (hinv.forked hop)
      (fun l' y ψ hy hagree => ?_) fun φ' x' n' heq => ?_
    · exact pre_run hpre hy fun hl hk => hagree φ x n hl rfl hk
    · cases heq
      rw [staging_run, if_pos ⟨rfl, rfl⟩]
      exact hpre.run

/-! ## The host enqueues -/

theorem getElem?_append_cases {α : Type} {xs ys : List α} {i : ℕ} {a : α}
    (h : (xs ++ ys)[i]? = some a) :
    xs[i]? = some a ∨ ∃ k, i = xs.length + k ∧ ys[k]? = some a := by
  obtain hlt | hle := lt_or_ge i xs.length
  · exact .inl (List.getElem?_append_left hlt ▸ h)
  · exact .inr ⟨i - xs.length, (Nat.add_sub_cancel' hle).symm,
      List.getElem?_append_right hle ▸ h⟩

theorem getElem?_append_of_some {α : Type} {xs : List α} (ys : List α) {i : ℕ} {a : α}
    (h : xs[i]? = some a) : (xs ++ ys)[i]? = some a :=
  (List.getElem?_append_left (List.getElem?_eq_some_iff.mp h).1).trans h

theorem getElem?_append_add {α : Type} (xs : List α) {ys : List α} {k : ℕ} {a : α}
    (h : ys[k]? = some a) : (xs ++ ys)[xs.length + k]? = some a := by
  rw [List.getElem?_append_right (Nat.le_add_right _ _), Nat.add_sub_cancel_left, h]

/-- Operations are enqueued on the main stream, after a call has looked at the records. -/
theorem Inv.enqueue_main (hinv : Inv weight scale S) {ys : List (MainOp layers)}
    {pending : Fin layers → Option Tensor} {gathered : Fin layers → Bool}
    (hdisabled : S.disabled = true → ∀ l, pending l = none)
    (horder : ∀ (k : ℕ) l φ x, ys[k]? = some (.run l φ x) → φ = .ids ∨
      ∃ k' φ', k = k' + 1 ∧ ys[k']? = some (.run l φ' x) ∧ φ'.next = φ)
    (hclear : ∀ (k : ℕ) l φ x, ys[k]? = some (.run l φ x) →
      ∀ op ∈ (S.side l).drop (S.sideDone l), op.Clear x)
    (hread : ∀ (k : ℕ) l x, ys[k]? = some (.read l x) → ∃ k' m, k = k' + 1 ∧
      ys[k']? = some (.join l m) ∧
        StagedAt weight scale { S with main := S.main ++ ys } l x m (S.main.length + k))
    (hpending : ∀ l p, pending l = some p → gathered l = false → S.pending l = some p ∧
      S.gathered l = false ∧ ∀ (k : ℕ) φ x, ys[k]? ≠ some (.run l φ x)) :
    Inv weight scale { S with main := S.main ++ ys, pending := pending, gathered := gathered } := by
  refine ⟨?_, hinv.sideDone_le, hdisabled, fun i l φ x h => ?_, hinv.sideOrder, fun i l m hi h => ?_,
    hinv.waited, fun l φ x h => ?_, hinv.sideNow, fun l i j φ ψ x y n hi hm hj hs hk => ?_,
    fun i l x hi h => ?_, fun l p hp hg => ?_, hinv.outs⟩
  · show S.mainDone ≤ (S.main ++ ys).length
    rw [List.length_append]
    exact Nat.le_add_right_of_le hinv.mainDone_le
  · obtain h | ⟨k, rfl, hy⟩ := getElem?_append_cases h
    · obtain rfl | ⟨i', φ', hi', h', hnext⟩ := hinv.mainOrder i l φ x h
      · exact .inl rfl
      · exact .inr ⟨i', φ', hi', getElem?_append_of_some ys h', hnext⟩
    · obtain rfl | ⟨k', φ', rfl, h', hnext⟩ := horder k l φ x hy
      · exact .inl rfl
      · exact .inr ⟨S.main.length + k', φ', rfl, getElem?_append_add S.main h', hnext⟩
  · have hlt : i < S.main.length := lt_of_lt_of_le hi hinv.mainDone_le
    rw [List.getElem?_append_left hlt] at h
    exact hinv.joined i l m hi h
  · obtain h | ⟨k, hk, hy⟩ := getElem?_append_cases h
    · exact hinv.mainNow l φ x h
    · have hdone := hinv.mainDone_le
      obtain rfl | ⟨k', φ', hk', -⟩ := horder k l φ x hy
      · trivial
      · replace hk : S.mainDone = S.main.length + k := hk
        omega
  · obtain h | ⟨k, rfl, hy⟩ := getElem?_append_cases hm
    · exact hinv.apart l i j φ ψ x y n hi h hj hs hk
    · refine .inr (hclear k l φ x hy (.run ψ y n) ?_ hk)
      refine List.mem_of_getElem? (i := j - S.sideDone l) ?_
      rw [List.getElem?_drop, Nat.add_sub_cancel' hj]
      exact hs
  · obtain h | ⟨k, rfl, hy⟩ := getElem?_append_cases h
    · obtain ⟨i', m, rfl, hjoin, hst⟩ := hinv.read i l x hi h
      refine ⟨i', m, rfl, getElem?_append_of_some ys hjoin, ?_, hst.after, hst.rows⟩
      obtain ⟨j, n, hj, hlast, hmain⟩ := hst.last
      refine ⟨j, n, hj, hlast, fun i₀ φ y hi₀ h₀ => hmain i₀ φ y hi₀ ?_⟩
      have hlt : i₀ < S.main.length := lt_of_lt_of_le hi₀
        (Nat.le_of_lt (List.getElem?_eq_some_iff.mp h).1)
      rwa [List.getElem?_append_left hlt] at h₀
    · obtain ⟨k', m, rfl, hjoin, hst⟩ := hread k l x hy
      exact ⟨S.main.length + k', m, rfl, getElem?_append_add S.main hjoin, hst.last, hst.after,
        hst.rows⟩
  · obtain ⟨hp, hg, hno⟩ := hpending l p hp hg
    have hst := hinv.pending l p hp hg
    obtain ⟨j, n, hj, hlast, hmain⟩ := hst.last
    refine ⟨⟨j, n, hj, hlast, fun i φ y _ h => ?_⟩, fun j' op hj' h => ?_, hst.rows⟩
    · obtain h | ⟨k, -, hy⟩ := getElem?_append_cases h
      · exact hmain i φ y (List.getElem?_eq_some_iff.mp h).1 h
      · exact absurd hy (hno k φ y)
    · exact absurd (List.getElem?_eq_some_iff.mp h).1 (not_lt.mpr hj')

/-- Prefetches are enqueued on the side streams. -/
theorem Inv.enqueue_side (hinv : Inv weight scale S) {zs : Fin layers → List SideOp}
    {pending : Fin layers → Option Tensor} {disabled : Bool}
    (hdisabled : disabled = true → ∀ l, pending l = none)
    (horder : ∀ l (k : ℕ) φ x n, (zs l)[k]? = some (.run φ x n) → ∃ k', k = k' + 1 ∧
      (φ = .ids ∧ (zs l)[k']? = some (.wait n) ∨
        ∃ φ', (zs l)[k']? = some (.run φ' x n) ∧ φ'.next = φ))
    (hfork : ∀ l (k : ℕ) op, (zs l)[k]? = some op → op.fork = S.main.length)
    (hpending : ∀ l p, pending l = some p → ∃ k n, (zs l).length = k + 1 ∧
      (zs l)[k]? = some (.run .scales p.ids n)) :
    Inv weight scale { S with
      disabled := disabled, pending := pending, side := fun l => S.side l ++ zs l } := by
  refine ⟨hinv.mainDone_le, fun l => ?_, hdisabled, hinv.mainOrder, fun l j φ x n h => ?_,
    hinv.joined, fun l j op hj h => ?_, hinv.mainNow, fun l φ x n h => ?_,
    fun l i j φ ψ x y n hi hm hj hs hk => ?_, fun i l x hi h => ?_, fun l p hp hg => ?_, hinv.outs⟩
  · show S.sideDone l ≤ (S.side l ++ zs l).length
    rw [List.length_append]
    exact Nat.le_add_right_of_le (hinv.sideDone_le l)
  · obtain h | ⟨k, rfl, hy⟩ := getElem?_append_cases h
    · obtain ⟨j', rfl, hprev⟩ := hinv.sideOrder l j φ x n h
      refine ⟨j', rfl, hprev.imp (fun h => ⟨h.1, getElem?_append_of_some _ h.2⟩) fun h => ?_⟩
      obtain ⟨φ', h', hnext⟩ := h
      exact ⟨φ', getElem?_append_of_some _ h', hnext⟩
    · obtain ⟨k', rfl, hprev⟩ := horder l k φ x n hy
      refine ⟨_, rfl, hprev.imp (fun h => ⟨h.1, getElem?_append_add _ h.2⟩) fun h => ?_⟩
      obtain ⟨φ', h', hnext⟩ := h
      exact ⟨φ', getElem?_append_add _ h', hnext⟩
  · have hlt : j < (S.side l).length := lt_of_lt_of_le hj (hinv.sideDone_le l)
    exact hinv.waited l j op hj (List.getElem?_append_left hlt ▸ h)
  · obtain h | ⟨k, hk, hy⟩ := getElem?_append_cases h
    · exact hinv.sideNow l φ x n h
    · obtain ⟨k', rfl, -⟩ := horder l k φ x n hy
      replace hk : S.sideDone l = (S.side l).length + (k' + 1) := hk
      have := hinv.sideDone_le l
      omega
  · obtain hs | ⟨k, rfl, hz⟩ := getElem?_append_cases hs
    · exact hinv.apart l i j φ ψ x y n hi hm hj hs hk
    · exact .inl (lt_of_lt_of_eq (List.getElem?_eq_some_iff.mp hm).1 (hfork l k _ hz).symm)
  · obtain ⟨i', m, hi', hjoin, hst⟩ := hinv.read i l x hi h
    obtain ⟨j, n, hj, hlast, hmain⟩ := hst.last
    refine ⟨i', m, hi', hjoin, ⟨j, n, hj, getElem?_append_of_some _ hlast, hmain⟩,
      fun j op hj h' => ?_, hst.rows⟩
    obtain h' | ⟨k, rfl, hz⟩ := getElem?_append_cases h'
    · exact hst.after j op hj h'
    · exact lt_of_lt_of_eq (List.getElem?_eq_some_iff.mp h).1 (hfork l k _ hz).symm
  · obtain ⟨k, n, hk, hlast⟩ := hpending l p hp
    have hlen : (S.side l ++ zs l).length = (S.side l).length + k + 1 := by
      rw [List.length_append, hk]
      rfl
    refine ⟨⟨(S.side l).length + k, n, hlen, getElem?_append_add _ hlast, fun i φ y hi _ => ?_⟩,
      fun j op hj h => ?_, fun hm => ?_⟩
    · exact lt_of_lt_of_eq hi (hfork l k _ hlast).symm
    · exact absurd (List.getElem?_eq_some_iff.mp h).1 (not_lt.mpr hj)
    · replace hm : (S.side l ++ zs l).length ≤ S.sideDone l := hm
      have := hinv.sideDone_le l
      omega

/-- What is enqueued of a prefetch is a beginning of it. -/
theorem enqueued_eq {l : Fin layers} {ops : List SideOp} {fail : Option (Fin layers × ℕ)} {k : ℕ}
    {op : SideOp} (h : (enqueued l ops fail)[k]? = some op) :
    ∀ k' ≤ k, (enqueued l ops fail)[k']? = ops[k']? := by
  intro k' hk'
  unfold enqueued at h ⊢
  split
  · rfl
  · rename_i e c
    dsimp only at h
    split_ifs at h ⊢
    · rfl
    · have hlt := (List.getElem?_eq_some_iff.mp h).1
      rw [List.length_take] at hlt
      exact List.getElem?_take_of_lt (by omega)
    · cases h

theorem prefetchOps_order {owns : Fin layers → Bool} {l : Fin layers} {ids : List ℤ} {fork : ℕ}
    {k : ℕ} {φ : Phase} {x : List ℤ} {n : ℕ}
    (h : (prefetchOps owns l ids fork)[k]? = some (.run φ x n)) :
    ∃ k', k = k' + 1 ∧ (φ = .ids ∧ (prefetchOps owns l ids fork)[k']? = some (.wait n) ∨
      ∃ φ', (prefetchOps owns l ids fork)[k']? = some (.run φ' x n) ∧ φ'.next = φ) := by
  unfold prefetchOps at h ⊢
  split_ifs at h ⊢
  · cases h
  · match k, h with
    | 1, rfl => exact ⟨0, rfl, .inl ⟨rfl, rfl⟩⟩
    | 2, rfl => exact ⟨1, rfl, .inr ⟨.ids, rfl, rfl⟩⟩
    | 3, rfl => exact ⟨2, rfl, .inr ⟨.lookup, rfl, rfl⟩⟩
    | 4, rfl => exact ⟨3, rfl, .inr ⟨.weights, rfl, rfl⟩⟩

theorem prefetchOps_fork {owns : Fin layers → Bool} {l : Fin layers} {ids : List ℤ} {fork : ℕ}
    {op : SideOp} (h : op ∈ prefetchOps owns l ids fork) : op.fork = fork := by
  unfold prefetchOps at h
  split_ifs at h
  · cases h
  · simp only [List.mem_cons, List.not_mem_nil, or_false] at h
    obtain rfl | rfl | rfl | rfl | rfl := h <;> rfl

/-- `Hasher.forward`. -/
theorem Inv.forward (hinv : Inv weight scale S) (owns : Fin layers → Bool)
    (hash : Fin layers → Tensor) (fail : Option (Fin layers × ℕ)) :
    Inv weight scale (S.forward owns hash fail) := by
  have hmain : ∀ pending : Fin layers → Option Tensor, (∀ l, pending l = none) →
      Inv weight scale { S with
        main := S.main ++ [.hash], pending := pending, gathered := fun _ => false } := by
    intro pending hnone
    refine hinv.enqueue_main (fun _ => hnone) (fun k l φ x h => ?_) (fun k l φ x h => ?_)
      (fun k l x h => ?_) fun l p hp _ => absurd (hp.symm.trans (hnone l)) nofun
    · cases List.mem_singleton.mp (List.mem_of_getElem? h)
    · cases List.mem_singleton.mp (List.mem_of_getElem? h)
    · cases List.mem_singleton.mp (List.mem_of_getElem? h)
  unfold State.forward
  dsimp only
  split
  · rename_i hdisabled
    exact hmain S.pending (hinv.disabled hdisabled)
  · refine (hmain (fun _ => none) fun _ => rfl).enqueue_side (fun hfail l => ?_)
      (fun l k φ x n h => ?_) (fun l k op h => ?_) fun l p h => ?_
    · exact if_pos (.inl hfail)
    · have heq := enqueued_eq h
      obtain ⟨k', rfl, hprev⟩ := prefetchOps_order ((heq k le_rfl).symm.trans h)
      refine ⟨k', rfl, hprev.imp (fun h => ⟨h.1, (heq k' (Nat.le_succ k')).trans h.2⟩) fun h => ?_⟩
      obtain ⟨φ', h', hnext⟩ := h
      exact ⟨φ', (heq k' (Nat.le_succ k')).trans h', hnext⟩
    · exact prefetchOps_fork (List.mem_of_getElem? ((enqueued_eq h k le_rfl).symm.trans h))
    · split at h
      · cases h
      · rename_i hok
        obtain rfl := Option.some.inj h
        have hfail : fail = none := Option.not_isSome_iff_eq_none.mp fun h => hok (.inl h)
        subst hfail
        show ∃ k n, (prefetchOps owns l (hash l).ids _).length = k + 1 ∧
          (prefetchOps owns l (hash l).ids _)[k]? = some (.run .scales (hash l).ids n)
        unfold prefetchOps
        rw [if_neg fun h => hok (.inr h)]
        exact ⟨4, _, rfl, rfl⟩

/-- The gather of a layer. -/
theorem Inv.gather (hinv : Inv weight scale S) {l : Fin layers} {x : Tensor}
    (hgathered : S.gathered l = false) (hids : ∀ p ∈ S.found l x, p.ids = x.ids)
    (hclear : Clear S (.gather l x)) :
    Inv weight scale { S.gather l x with gathered := Function.update S.gathered l true } := by
  have hother : ∀ l', Function.update S.gathered l true l' = false → l' ≠ l ∧
      S.gathered l' = false := by
    intro l' h
    by_cases hl : l' = l
    · subst hl
      rw [Function.update_self] at h
      cases h
    · rw [Function.update_of_ne hl] at h
      exact ⟨hl, h⟩
  unfold State.gather
  split
  · rename_i hnone
    unfold State.synchronous
    split
    · refine { hinv with
        pending := fun l' p hp hg => { hinv.pending l' p hp (hother l' hg).2 with }
        read := fun i l' x' hi h => ?_
        outs := fun o ho => ?_ }
      · obtain ⟨i', m, hi', hjoin, hst⟩ := hinv.read i l' x' hi h
        exact ⟨i', m, hi', hjoin, { hst with }⟩
      · obtain rfl | ho := List.mem_cons.mp ho
        · rfl
        · exact hinv.outs o ho
    · refine @Inv.enqueue_main _ _ _ _ _ _ hinv _ S.pending _ hinv.disabled (fun k l' φ y h => ?_)
        (fun k l' φ y h => ?_) (fun k l' y h => ?_) fun l' p hp hg => ⟨hp, (hother l' hg).2, ?_⟩
      · match k, h with
        | 0, rfl => exact .inl rfl
        | 1, rfl => exact .inr ⟨0, .ids, rfl, rfl, rfl⟩
        | 2, rfl => exact .inr ⟨1, .lookup, rfl, rfl, rfl⟩
        | 3, rfl => exact .inr ⟨2, .weights, rfl, rfl, rfl⟩
        | 4, rfl => exact .inr ⟨3, .scales, rfl, rfl, rfl⟩
      · match k, h with
        | 0, rfl | 1, rfl | 2, rfl | 3, rfl | 4, rfl => exact hclear hnone
      · match k, h with
        | 0, h | 1, h | 2, h | 3, h | 4, h => cases h
      · have hne := (hother l' hg).1
        intro k φ y h
        match k, h with
        | 0, h | 1, h | 2, h | 3, h | 4, h =>
          cases h
          exact hne rfl
  · rename_i p hfound
    obtain ⟨hpending, -⟩ := Option.filter_eq_some_iff.mp hfound
    have hst := hinv.pending l p hpending hgathered
    rw [hids p hfound] at hst
    refine @Inv.enqueue_main _ _ _ _ _ _ hinv _ (Function.update S.pending l none) _ (fun h l' => ?_)
      (fun k l' φ y h => ?_) (fun k l' φ y h => ?_) (fun k l' y h => ?_) fun l' p' hp hg => ?_
    · by_cases hl : l' = l
      · subst hl
        exact Function.update_self ..
      · rw [Function.update_of_ne hl]
        exact hinv.disabled h l'
    · match k, h with
      | 0, h | 1, h => cases h
    · match k, h with
      | 0, h | 1, h => cases h
    · match k, h with
      | 0, h => cases h
      | 1, rfl =>
        refine ⟨0, _, rfl, rfl, ?_, fun j op hj h => ?_, hst.rows⟩
        · obtain ⟨j, n, hj, hlast, hmain⟩ := hst.last
          refine ⟨j, n, hj, hlast, fun i φ y hi h => ?_⟩
          obtain h | ⟨k, rfl, hy⟩ := getElem?_append_cases h
          · exact hmain i φ y (List.getElem?_eq_some_iff.mp h).1 h
          · match k, hy with
            | 0, hy | 1, hy => cases hy
        · exact absurd (List.getElem?_eq_some_iff.mp h).1 (not_lt.mpr hj)
    · obtain ⟨hl, hg⟩ := hother l' hg
      rw [Function.update_of_ne hl] at hp
      refine ⟨hp, hg, fun k φ y h => ?_⟩
      match k, h with
      | 0, h | 1, h => cases h

theorem Inv.step (hinv : Inv weight scale S) {owns : Fin layers → Bool} {a : Action layers}
    {S' : State layers A B} (hclear : Clear S a) (h : step weight scale owns S a = some S') :
    Inv weight scale S' := by
  cases a with
  | forward hash fail =>
    obtain rfl := Option.some.inj h
    exact hinv.forward owns hash fail
  | empty =>
    obtain rfl := Option.some.inj h
    refine @Inv.enqueue_main _ _ _ _ _ _ hinv _ S.pending _ hinv.disabled (fun k l φ x h => ?_)
      (fun k l φ x h => ?_) (fun k l x h => ?_) fun l p _ hg => by cases hg
    · cases List.mem_singleton.mp (List.mem_of_getElem? h)
    · cases List.mem_singleton.mp (List.mem_of_getElem? h)
    · cases List.mem_singleton.mp (List.mem_of_getElem? h)
  | gather l x =>
    obtain ⟨⟨hgathered, hids⟩, h⟩ := Option.ite_none_right_eq_some.mp h
    obtain rfl := Option.some.inj h
    exact hinv.gather hgathered hids hclear
  | main => exact hinv.main_step h
  | side l => exact hinv.side_step h

end Inv

/-! ## The gathers -/

/-- **The gathers return the rows of their own ids** in every run in which the
synchronous path is taken only when what is outstanding on the side stream is clear of
it. -/
theorem gather_exact {weight : Fin layers → ℤ → A} {scale : Fin layers → ℤ → B}
    {owns : Fin layers → Bool} {staging : Fin layers → ℕ → Buffers A B} {S : State layers A B}
    (h : Transition.Reachable (step weight scale owns) Clear (.start staging) S) :
    ∀ o ∈ S.outs, o.rows = o.ids.map fun a => (weight o.layer a, scale o.layer a) :=
  (h.invariant (Inv weight scale) (.start staging)
    fun _ _ _ hinv hclear hstep => hinv.step hclear hstep).outs

/-- Buffers of zeros. -/
def zeros : Buffers ℤ ℤ := ⟨fun _ => 0, fun _ => 0, fun _ => 0, fun _ => 0, fun _ => 0⟩

/-- The steps of one layer whose rows are its ids. -/
def oneStep : State 1 ℤ ℤ → Action 1 → Option (State 1 ℤ ℤ) :=
  step (fun _ => id) (fun _ => id) fun _ => true

/-- A forward whose gather takes the staged rows, and one whose prefetch raises. -/
def clearRun : List (Action 1) :=
  [.forward (fun _ => ⟨0, [2], [5, 6]⟩) none, .gather 0 ⟨0, [2], [5, 6]⟩, .main, .side 0, .side 0,
    .side 0, .side 0, .side 0, .main, .main, .forward (fun _ => ⟨0, [2], [7, 8]⟩) (some (0, 2)),
    .gather 0 ⟨0, [2], [7, 8]⟩, .main, .main, .side 0, .main, .side 0, .main, .main, .main]

theorem gather_exact_clear : ∃ S, Transition.run oneStep (.start fun _ _ => zeros) clearRun = some S ∧
    S.outs.length = 2 ∧ ∀ o ∈ S.outs, o.rows = o.ids.map fun a => (a, a) := by
  have h : (Transition.run oneStep (.start fun _ _ => zeros) clearRun).any fun S =>
      S.outs.length = 2 := by decide +kernel
  obtain ⟨S, hrun, h⟩ := (Option.any_eq_true _ _).mp h
  have hclear : Transition.AllowedRun oneStep Clear (.start fun _ _ => zeros) clearRun := by
    decide +kernel
  exact ⟨S, hrun, of_decide_eq_true h, gather_exact (.of_run hrun hclear)⟩

/-- The gather of a forward gets other ids than the hasher's. -/
def racingRun : List (Action 1) :=
  [.forward (fun _ => ⟨0, [1], [5]⟩) none, .gather 0 ⟨1, [1], [6]⟩, .main, .main, .side 0, .side 0,
    .main, .main, .main, .main]

/-- **The synchronous path returns the rows of other ids**: the side stream writes the
prefetched ids to the staging buffer between its own copy of the ids and its lookup. -/
theorem gather_of_other_ids : ∃ S,
    Transition.run oneStep (.start fun _ _ => zeros) racingRun = some S ∧
      S.outs = [⟨0, [6], [(5, 5)]⟩] ∧ ∃ o ∈ S.outs, o.rows ≠ o.ids.map fun a => (a, a) := by
  have h : (Transition.run oneStep (.start fun _ _ => zeros) racingRun).any fun S =>
      S.outs = [⟨0, [6], [(5, 5)]⟩] := by decide +kernel
  obtain ⟨S, hrun, h⟩ := (Option.any_eq_true _ _).mp h
  have houts : S.outs = [⟨0, [6], [(5, 5)]⟩] := of_decide_eq_true h
  refine ⟨S, hrun, houts, ⟨0, [6], [(5, 5)]⟩, ?_, by decide⟩
  rw [houts]
  exact List.mem_singleton_self _

end EngramPrefetch
