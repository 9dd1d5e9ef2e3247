import SparkTP4.Pool
import Mathlib.Algebra.Order.BigOperators.Group.Finset
import Mathlib.Algebra.GroupWithZero.Nat
import Mathlib.Data.Nat.Basic
import Mathlib.Tactic.Common

/-!
# The jobs of the thread pool are isolated

While a job is set up, its counters count the positions of the threads
(`Counts`): a chunk is served, held by one thread, or not taken yet. `run` sees
`remaining_` and `active_` at zero only when no thread holds a chunk or is in
`drain`, so the next job may set the counters anew. A caller that is blocked has
found a worker counted active, and the worker notifies it on its way out.
-/

namespace Pool

variable {W T : Type}

/-! ## What the counters count -/

/-- The thread is counted in `active_`. -/
def Pc.counted : Pc W → ℕ
  | leave .. | drain (.worker ..) _ => 1
  | _ => 0

/-- The thread has drawn ticket `k` and not served it. -/
def Drain.holds (k : ℕ) : Drain → ℕ
  | test ticket | serve ticket => if ticket = k then 1 else 0
  | _ => 0

/-- The thread has a chunk that is still in `remaining_`. -/
def Drain.left (chunks : ℕ) : Drain → ℕ
  | test ticket => if ticket < chunks then 1 else 0
  | serve _ | sub => 1
  | _ => 0

/-- The thread has drawn a ticket past the chunks. -/
def Drain.over (chunks : ℕ) : Drain → ℕ
  | test ticket => if chunks ≤ ticket then 1 else 0
  | _ => 0

def Pc.holds (k : ℕ) : Pc W → ℕ
  | drain _ d => d.holds k
  | _ => 0

def Pc.left (chunks : ℕ) : Pc W → ℕ
  | drain _ d => d.left chunks
  | _ => 0

/-- A worker takes part in a job once, so it draws one ticket past the chunks. -/
def Pc.over (chunks generation : ℕ) : Pc W → ℕ
  | drain _ d => d.over chunks
  | leave .. | wait _ => 1
  | await seen => if seen = generation then 1 else 0
  | _ => 0

/-- The job whose `Work` the thread has. -/
def Pc.job : Pc W → Option ℕ
  | leave _ j | ready j | wait j => some j
  | drain frame _ => some frame.job
  | _ => none

/-- The thread has `caller_`. -/
def Pc.Locks : Pc W → Prop
  | set _ | ready _ | wait _ | unlock _ | drain (.caller _) _ => True
  | _ => False

/-- The thread has `caller_` and no job. -/
def Pc.Free : Pc W → Prop
  | set _ | unlock _ => True
  | _ => False

/-- The generation for which a worker is counted. -/
def Pc.seen : Pc W → Option ℕ
  | leave s _ | drain (.worker s _) _ => some s
  | _ => none

/-! ## The invariant -/

variable [Fintype T] (count : W → ℕ)

/-- The counters while job `j` is set up. -/
structure Counts (S : State W T) (j : ℕ) : Prop where
  work : ∃ w, S.mem.works[j]? = some w ∧ S.mem.chunks = chunksOf count w
  last : j + 1 = S.mem.works.length
  ticket : ∀ k < S.mem.chunks, S.mem.served.count (j, k) + ∑ t, (S.pc t).holds k =
    if k < S.mem.next then 1 else 0
  inside : ∀ k, S.mem.chunks ≤ k → (j, k) ∉ S.mem.served
  remaining : S.mem.remaining = S.mem.chunks - S.mem.next + ∑ t, (S.pc t).left S.mem.chunks
  next_le : S.mem.next ≤ S.mem.chunks + ∑ t, (S.pc t).over S.mem.chunks S.mem.generation

/-- What a thread knows. -/
structure ThreadInv (M : Mem W T) (t : T) (p : Pc W) : Prop where
  locks : p.Locks ↔ M.lock = some t
  job : ∀ j, p.job = some j → M.job = some j
  free : p.Free → M.job = none
  seen : ∀ s, p.seen = some s → s = M.generation
  drawn : ∀ frame k, p = .drain frame (.test k) → k < M.next
  serve : ∀ frame k, p = .drain frame (.serve k) → k < M.chunks
  out : ∀ j, p = .wait j → M.chunks ≤ M.next
  unlock : ∀ j, p = .unlock j → j < M.works.length

structure Inv (S : State W T) : Prop where
  thread : ∀ t, ThreadInv S.mem t (S.pc t)
  generation : S.mem.generation = S.mem.works.length
  free : S.mem.lock = none → S.mem.job = none
  active : S.mem.active = ∑ t, (S.pc t).counted
  counts : ∀ j, S.mem.job = some j → Counts count S j
  past : ∀ j w, S.mem.works[j]? = some w → S.mem.job ≠ some j → ∀ k,
    S.mem.served.count (j, k) = if k < chunksOf count w then 1 else 0
  served : ∀ e ∈ S.mem.served, e.1 < S.mem.works.length
  done : ∀ t ∈ S.mem.done, (∃ j, S.pc t = .wait j) ∧ 0 < S.mem.active
  returned : ∀ j ∈ S.mem.returned, j < S.mem.works.length ∧ S.mem.job ≠ some j

variable {count}

theorem Inv.start (worker : T → Bool) : Inv count (.start worker) where
  thread t := by
    unfold State.start
    dsimp only
    split
    · exact ⟨⟨fun h => absurd h id, fun h => by cases h⟩, fun j h => (by cases h), fun h => absurd h id,
        fun s h => (by cases h), fun f k h => (by cases h), fun f k h => (by cases h),
        fun j h => (by cases h), fun j h => by cases h⟩
    · exact ⟨⟨fun h => absurd h id, fun h => by cases h⟩, fun j h => (by cases h), fun h => absurd h id,
        fun s h => (by cases h), fun f k h => (by cases h), fun f k h => (by cases h),
        fun j h => (by cases h), fun j h => by cases h⟩
  generation := rfl
  free _ := rfl
  active := by
    refine (Finset.sum_eq_zero fun t _ => ?_).symm
    unfold State.start
    dsimp only
    split <;> rfl
  counts j h := by cases h
  past j w h := by cases h
  served e h := absurd h List.not_mem_nil
  done t h := absurd h (Finset.notMem_empty t)
  returned j h := absurd h List.not_mem_nil

/-! ## A thread moves -/

variable [DecidableEq T] {S : State W T} {t : T} {M : Mem W T} {p : Pc W}

omit [Fintype T] in
theorem move_pc_self : (S.move t (M, p)).pc t = p := Function.update_self ..

omit [Fintype T] in
theorem move_pc_of_ne {u : T} (h : u ≠ t) : (S.move t (M, p)).pc u = S.pc u :=
  Function.update_of_ne h ..

/-- A count over the positions of the threads when one of them moves. -/
theorem sum_move (f : Pc W → ℕ) :
    ∑ u, f ((S.move t (M, p)).pc u) + f (S.pc t) = ∑ u, f (S.pc u) + f p := by
  rw [← Finset.add_sum_erase _ _ (Finset.mem_univ t),
    ← Finset.add_sum_erase _ (fun u => f (S.pc u)) (Finset.mem_univ t), move_pc_self]
  have hrest : ∑ u ∈ Finset.univ.erase t, f ((S.move t (M, p)).pc u) =
      ∑ u ∈ Finset.univ.erase t, f (S.pc u) :=
    Finset.sum_congr rfl fun u hu => by rw [move_pc_of_ne (Finset.ne_of_mem_erase hu)]
  rw [hrest]
  omega

/-- A count that the move leaves as it is. -/
theorem sum_move_eq (f : Pc W → ℕ) (h : f p = f (S.pc t)) :
    ∑ u, f ((S.move t (M, p)).pc u) = ∑ u, f (S.pc u) := by
  have hsum := sum_move (S := S) (t := t) (M := M) (p := p) f
  omega

omit [Fintype T] in
theorem forall_move {P : T → Pc W → Prop} (ht : P t p) (h : ∀ u, u ≠ t → P u (S.pc u)) (u : T) :
    P u ((S.move t (M, p)).pc u) := by
  by_cases hu : u = t
  · subst hu
    rwa [move_pc_self]
  · rw [move_pc_of_ne hu]
    exact h u hu

/-- The counters after a move, from what they gain and lose. -/
theorem Counts.move {j : ℕ} (h : Counts count S j) (hworks : M.works = S.mem.works)
    (hchunks : M.chunks = S.mem.chunks) (hgeneration : M.generation = S.mem.generation)
    (hticket : ∀ k < S.mem.chunks,
      M.served.count (j, k) + p.holds k + (if k < S.mem.next then 1 else 0) =
        S.mem.served.count (j, k) + (S.pc t).holds k + if k < M.next then 1 else 0)
    (hinside : ∀ k, S.mem.chunks ≤ k → (j, k) ∉ S.mem.served → (j, k) ∉ M.served)
    (hremaining : M.remaining + (S.pc t).left S.mem.chunks + (S.mem.chunks - S.mem.next) =
      S.mem.remaining + p.left S.mem.chunks + (S.mem.chunks - M.next))
    (hnext : M.next ≤ S.mem.chunks ∨
      M.next + (S.pc t).over S.mem.chunks S.mem.generation ≤
        S.mem.next + p.over S.mem.chunks S.mem.generation) :
    Counts count (S.move t (M, p)) j where
  work := by
    obtain ⟨w, hw, hc⟩ := h.work
    exact ⟨w, hworks ▸ hw, hchunks.trans hc⟩
  last := h.last.trans (congrArg List.length hworks.symm)
  ticket k hk := by
    have hk' : k < S.mem.chunks := hchunks ▸ hk
    have hsum := sum_move (S := S) (t := t) (M := M) (p := p) (Pc.holds k)
    have hold := h.ticket k hk'
    have hnew := hticket k hk'
    show M.served.count (j, k) + _ = if k < M.next then 1 else 0
    omega
  inside k hk := hinside k (hchunks ▸ hk) (h.inside k (hchunks ▸ hk))
  remaining := by
    have hsum := sum_move (S := S) (t := t) (M := M) (p := p) (Pc.left S.mem.chunks)
    have hold := h.remaining
    show M.remaining = M.chunks - M.next + ∑ u, ((S.move t (M, p)).pc u).left M.chunks
    rw [hchunks]
    omega
  next_le := by
    have hsum := sum_move (S := S) (t := t) (M := M) (p := p)
      (Pc.over S.mem.chunks S.mem.generation)
    have hold := h.next_le
    show M.next ≤ M.chunks + ∑ u, ((S.move t (M, p)).pc u).over M.chunks M.generation
    rw [hchunks, hgeneration]
    omega

/-- A move that no counter counts. -/
theorem Counts.same {j : ℕ} (h : Counts count S j) (hworks : M.works = S.mem.works)
    (hchunks : M.chunks = S.mem.chunks) (hgeneration : M.generation = S.mem.generation)
    (hserved : M.served = S.mem.served) (hnext : M.next = S.mem.next)
    (hremaining : M.remaining = S.mem.remaining) (hholds : ∀ k, p.holds k = (S.pc t).holds k)
    (hleft : p.left S.mem.chunks = (S.pc t).left S.mem.chunks)
    (hover : (S.pc t).over S.mem.chunks S.mem.generation ≤
      p.over S.mem.chunks S.mem.generation) :
    Counts count (S.move t (M, p)) j := by
  refine h.move hworks hchunks hgeneration (fun k _ => ?_) (fun k _ hk => ?_) ?_ (.inr ?_)
  · rw [hserved, hholds, hnext]
  · rwa [hserved]
  · rw [hremaining, hleft, hnext]
  · rw [hnext]
    exact Nat.add_le_add_left hover _

omit [Fintype T] [DecidableEq T] in
/-- What a thread knows stays when another one moves. -/
theorem ThreadInv.mono {M' : Mem W T} (h : ThreadInv M t p)
    (hlock : M'.lock = some t ↔ M.lock = some t) (hjob : M'.job = M.job)
    (hgeneration : M'.generation = M.generation) (hchunks : M'.chunks = M.chunks)
    (hnext : M.next ≤ M'.next) (hworks : M'.works = M.works) : ThreadInv M' t p where
  locks := h.locks.trans hlock.symm
  job j hj := hjob.trans (h.job j hj)
  free hp := hjob.trans (h.free hp)
  seen s hs := (h.seen s hs).trans hgeneration.symm
  drawn f k hp := lt_of_lt_of_le (h.drawn f k hp) hnext
  serve f k hp := hchunks ▸ h.serve f k hp
  out j hp := hchunks ▸ le_trans (h.out j hp) hnext
  unlock j hp := hworks ▸ h.unlock j hp

/-- **A move within a job**, or between two. -/
theorem Inv.move (hinv : Inv count S) (hjob : M.job = S.mem.job)
    (hworks : M.works = S.mem.works) (hgeneration : M.generation = S.mem.generation)
    (hchunks : M.chunks = S.mem.chunks) (hnext : S.mem.next ≤ M.next)
    (hserved : M.served = S.mem.served ∨
      ∃ j k, S.mem.job = some j ∧ M.served = (j, k) :: S.mem.served)
    (hreturned : ∀ j ∈ M.returned, j ∈ S.mem.returned ∨
      j < S.mem.works.length ∧ S.mem.job ≠ some j)
    (hlock : ∀ u, u ≠ t → (M.lock = some u ↔ S.mem.lock = some u))
    (hfree : M.lock = none → S.mem.job = none) (hthread : ThreadInv M t p)
    (hactive : M.active + (S.pc t).counted = S.mem.active + p.counted)
    (hcounts : ∀ j, S.mem.job = some j → Counts count S j → Counts count (S.move t (M, p)) j)
    (hdone : ∀ u ∈ M.done, (∃ j, (S.move t (M, p)).pc u = .wait j) ∧ 0 < M.active) :
    Inv count (S.move t (M, p)) where
  thread := forall_move (P := ThreadInv M) hthread fun u hu =>
    (hinv.thread u).mono (hlock u hu) hjob hgeneration hchunks hnext hworks
  generation := hgeneration.trans (hinv.generation.trans (congrArg List.length hworks.symm))
  free h := hjob.trans (hfree h)
  active := by
    have hsum := sum_move (S := S) (t := t) (M := M) (p := p) Pc.counted
    have hold := hinv.active
    show M.active = _
    omega
  counts j hj := by
    have hj' : S.mem.job = some j := hjob.symm.trans hj
    exact hcounts j hj' (hinv.counts j hj')
  past j w hw hne k := by
    have hne' : S.mem.job ≠ some j := fun h => hne (hjob.trans h)
    refine Eq.trans ?_ (hinv.past j w (hworks ▸ hw) hne' k)
    show M.served.count (j, k) = _
    obtain h | ⟨j', k', hj', h⟩ := hserved <;> rw [h]
    refine List.count_cons_of_ne fun heq => hne' ?_
    rw [hj', (Prod.mk.inj heq).1]
  served e he := by
    show e.1 < M.works.length
    rw [hworks]
    obtain h | ⟨j', k', hj', h⟩ := hserved
    · exact hinv.served e (h ▸ he)
    · obtain rfl | he := List.mem_cons.mp (h ▸ (show e ∈ M.served from he))
      · have := (hinv.counts j' hj').last
        show j' < _
        omega
      · exact hinv.served e he
  done := hdone
  returned j hj := by
    show j < M.works.length ∧ M.job ≠ some j
    rw [hworks, hjob]
    exact (hreturned j hj).elim (hinv.returned j) id

/-- The callers that are blocked stay so. -/
theorem Inv.done_keep (hinv : Inv count S) (hne : ∀ j, S.pc t ≠ .wait j)
    (hsub : M.done ⊆ S.mem.done) (hactive : S.mem.active ≤ M.active) :
    ∀ u ∈ M.done, (∃ j, (S.move t (M, p)).pc u = .wait j) ∧ 0 < M.active := by
  intro u hu
  obtain ⟨⟨j, hj⟩, hpos⟩ := hinv.done u (hsub hu)
  refine ⟨⟨j, ?_⟩, lt_of_lt_of_le hpos hactive⟩
  rw [move_pc_of_ne, hj]
  rintro rfl
  exact hne j hj

omit [DecidableEq T] in
/-- The threads with `caller_` are one. -/
theorem Inv.locks_unique (hinv : Inv count S) {u : T} (ht : (S.pc t).Locks) (hu : (S.pc u).Locks) :
    t = u :=
  Option.some.inj (((hinv.thread t).locks.mp ht).symm.trans ((hinv.thread u).locks.mp hu))

omit [Fintype T] in
theorem notifyOne_eq {pick : Option T} {M M' : Mem W T} (h : M.notifyOne pick = some M') :
    ∃ d ⊆ M.done, M' = { M with done := d } ∧
      ((∀ u ∈ M.done, ∀ v ∈ M.done, u = v) → d = ∅) := by
  cases pick with
  | none =>
    obtain ⟨hempty, h⟩ := Option.ite_none_right_eq_some.mp h
    obtain rfl := Option.some.inj h
    exact ⟨M.done, Finset.Subset.refl _, rfl, fun _ => hempty⟩
  | some u =>
    obtain ⟨hu, h⟩ := Option.ite_none_right_eq_some.mp h
    obtain rfl := Option.some.inj h
    refine ⟨M.done.erase u, Finset.erase_subset u _, rfl, fun huniq => ?_⟩
    refine Finset.eq_empty_of_forall_notMem fun v hv => ?_
    exact Finset.ne_of_mem_erase hv (huniq v (Finset.mem_of_mem_erase hv) u hu)

/-! ## The steps of `drain` -/

omit [DecidableEq T] in
/-- The thread in `drain` of its job. -/
theorem Inv.counts_drain (hinv : Inv count S) {frame : Frame} {d : Drain}
    (hpc : S.pc t = .drain frame d) : S.mem.job = some frame.job ∧ Counts count S frame.job := by
  have hjob : S.mem.job = some frame.job := (hinv.thread t).job _ (by rw [hpc]; rfl)
  exact ⟨hjob, hinv.counts _ hjob⟩

omit [DecidableEq T] in
/-- What a thread in `drain` knows, at the next position. -/
theorem Inv.thread_drain (hinv : Inv count S) {frame : Frame} {d d' : Drain}
    (hpc : S.pc t = .drain frame d) (hlock : M.lock = S.mem.lock) (hjob : M.job = S.mem.job)
    (hgeneration : M.generation = S.mem.generation) (hdrawn : ∀ k, d' = .test k → k < M.next)
    (hserve : ∀ k, d' = .serve k → k < M.chunks) : ThreadInv M t (.drain frame d') := by
  have hthread := hinv.thread t
  rw [hpc] at hthread
  refine ⟨?_, fun j hj => ?_, fun h => absurd h id, fun s hs => ?_, fun f k hp => ?_,
    fun f k hp => ?_, fun j hp => (by cases hp), fun j hp => by cases hp⟩
  · rw [hlock]
    exact (by cases frame <;> exact hthread.locks)
  · exact hjob.trans (hthread.job j hj)
  · refine (hthread.seen s ?_).trans hgeneration.symm
    cases frame <;> exact hs
  · cases hp
    exact hdrawn k rfl
  · cases hp
    exact hserve k rfl

theorem Inv.take (hinv : Inv count S) {frame : Frame} (hpc : S.pc t = .drain frame .take) :
    Inv count (S.move t ({ S.mem with next := S.mem.next + 1 },
      .drain frame (.test S.mem.next))) := by
  obtain ⟨hjob, -⟩ := hinv.counts_drain hpc
  refine hinv.move rfl rfl rfl rfl (Nat.le_succ _) (.inl rfl) (fun j hj => .inl hj)
    (fun _ _ => Iff.rfl) hinv.free
    (hinv.thread_drain hpc rfl rfl rfl (fun k h => by cases h; exact Nat.lt_succ_self _)
      fun k h => by cases h) ?_ (fun j hj hcounts => ?_)
    (hinv.done_keep (by rw [hpc]; exact nofun) (Finset.Subset.refl _) le_rfl)
  · rw [hpc]
    cases frame <;> rfl
  · refine hcounts.move rfl rfl rfl (fun k hk => ?_) (fun k _ h => h) ?_ ?_
    · rw [hpc]
      show S.mem.served.count (j, k) + (if S.mem.next = k then 1 else 0) + _ = _ + 0 + if k < S.mem.next + 1 then 1 else 0
      split_ifs <;> omega
    · rw [hpc]
      show S.mem.remaining + 0 + _ =
        S.mem.remaining + (if S.mem.next < S.mem.chunks then 1 else 0) + (_ - (S.mem.next + 1))
      split_ifs <;> omega
    · rw [hpc]
      show S.mem.next + 1 ≤ S.mem.chunks ∨
        S.mem.next + 1 + 0 ≤ S.mem.next + if S.mem.chunks ≤ S.mem.next then 1 else 0
      split_ifs <;> omega

theorem Inv.test (hinv : Inv count S) {frame : Frame} {k : ℕ}
    (hpc : S.pc t = .drain frame (.test k)) (hk : k < S.mem.chunks) :
    Inv count (S.move t (S.mem, .drain frame (.serve k))) := by
  refine hinv.move rfl rfl rfl rfl le_rfl (.inl rfl) (fun j hj => .inl hj)
    (fun _ _ => Iff.rfl) hinv.free
    (hinv.thread_drain hpc rfl rfl rfl (fun k' h => by cases h)
      fun k' h => by cases h; exact hk) ?_
    (fun j hj hcounts => ?_)
    (hinv.done_keep (by rw [hpc]; exact nofun) (Finset.Subset.refl _) le_rfl)
  · rw [hpc]
    cases frame <;> rfl
  · refine hcounts.same rfl rfl rfl rfl rfl rfl (fun k' => ?_) ?_ ?_ <;> rw [hpc]
    · rfl
    · exact (if_pos hk).symm
    · show (if S.mem.chunks ≤ k then 1 else 0) ≤ 0
      rw [if_neg (not_le.mpr hk)]

theorem Inv.back (hinv : Inv count S) {frame : Frame} {k : ℕ}
    (hpc : S.pc t = .drain frame (.test k)) (hk : S.mem.chunks ≤ k) :
    Inv count (S.move t (S.mem, frame.back)) := by
  have hthread := hinv.thread t
  rw [hpc] at hthread
  have hnext : S.mem.chunks ≤ S.mem.next := le_trans hk (Nat.le_of_lt (hthread.drawn frame k rfl))
  refine hinv.move rfl rfl rfl rfl le_rfl (.inl rfl) (fun j hj => .inl hj)
    (fun _ _ => Iff.rfl) hinv.free ?_ ?_ (fun j hj hcounts => ?_)
    (hinv.done_keep (by rw [hpc]; exact nofun) (Finset.Subset.refl _) le_rfl)
  · cases frame with
    | worker s j =>
      exact ⟨hthread.locks, hthread.job, fun h => absurd h id, hthread.seen, fun f k h => (by cases h),
        fun f k h => (by cases h), fun j h => (by cases h), fun j h => by cases h⟩
    | caller j =>
      exact ⟨hthread.locks, hthread.job, fun h => absurd h id, fun s h => (by cases h),
        fun f k h => (by cases h), fun f k h => (by cases h), fun _ _ => hnext,
        fun j h => by cases h⟩
  · rw [hpc]
    cases frame <;> rfl
  · refine hcounts.move rfl rfl rfl (fun k' hk' => ?_) (fun k _ h => h) ?_ (.inr ?_) <;> rw [hpc]
    · have hne : (if k = k' then 1 else 0) = 0 := if_neg (by omega)
      show _ + Pc.holds k' (frame.back : Pc W) + _ = _ + (if k = k' then 1 else 0) + _
      rw [hne]
      cases frame <;> rfl
    · have hne : (if k < S.mem.chunks then 1 else 0) = 0 := if_neg (not_lt.mpr hk)
      show _ + (if k < S.mem.chunks then 1 else 0) + _ = _ + Pc.left _ (frame.back : Pc W) + _
      rw [hne]
      cases frame <;> rfl
    · show _ + (if S.mem.chunks ≤ k then 1 else 0) ≤ _ + Pc.over _ _ (frame.back : Pc W)
      rw [if_pos hk]
      cases frame <;> exact le_rfl

theorem Inv.serve (hinv : Inv count S) {frame : Frame} {k : ℕ}
    (hpc : S.pc t = .drain frame (.serve k)) :
    Inv count (S.move t ({ S.mem with served := (frame.job, k) :: S.mem.served },
      .drain frame .sub)) := by
  obtain ⟨hjob, -⟩ := hinv.counts_drain hpc
  have hk : k < S.mem.chunks := (hinv.thread t).serve frame k hpc
  refine hinv.move rfl rfl rfl rfl le_rfl (.inr ⟨_, k, hjob, rfl⟩) (fun j hj => .inl hj)
    (fun _ _ => Iff.rfl) hinv.free
    (hinv.thread_drain hpc rfl rfl rfl (fun k' h => by cases h) fun k' h => by cases h) ?_
    (fun j hj hcounts => ?_)
    (hinv.done_keep (by rw [hpc]; exact nofun) (Finset.Subset.refl _) le_rfl)
  · rw [hpc]
    cases frame <;> rfl
  · obtain rfl := Option.some.inj (hjob.symm.trans hj)
    refine hcounts.move rfl rfl rfl (fun k' hk' => ?_) (fun k' hk' h => ?_) ?_ (.inr ?_)
    · rw [hpc]
      show ((frame.job, k) :: S.mem.served).count (frame.job, k') + 0 + _ =
        _ + (if k = k' then 1 else 0) + _
      rw [List.count_cons]
      simp only [beq_iff_eq, Prod.mk.injEq, true_and, Nat.add_zero]
    · refine fun hmem => (List.mem_cons.mp hmem).elim (fun heq => ?_) h
      have := (Prod.mk.inj heq).2
      omega
    · rw [hpc]
      rfl
    · rw [hpc]
      exact le_rfl

theorem Inv.sub (hinv : Inv count S) {frame : Frame} (hpc : S.pc t = .drain frame .sub)
    {d : Drain} (hd : d = .notify ∨ d = .take) :
    Inv count (S.move t ({ S.mem with remaining := S.mem.remaining - 1 }, .drain frame d)) := by
  refine hinv.move rfl rfl rfl rfl le_rfl (.inl rfl) (fun j hj => .inl hj)
    (fun _ _ => Iff.rfl) hinv.free
    (hinv.thread_drain hpc rfl rfl rfl (fun k' h => ?_) fun k' h => ?_) ?_
    (fun j hj hcounts => ?_)
    (hinv.done_keep (by rw [hpc]; exact nofun) (Finset.Subset.refl _) le_rfl)
  · obtain rfl | rfl := hd <;> cases h
  · obtain rfl | rfl := hd <;> cases h
  · rw [hpc]
    cases frame <;> rfl
  · -- the thread itself has a chunk that is in `remaining_`
    have hpos : 1 ≤ S.mem.remaining := by
      have hsum := Finset.single_le_sum (f := fun u => (S.pc u).left S.mem.chunks)
        (fun _ _ => Nat.zero_le _) (Finset.mem_univ t)
      rw [hpc] at hsum
      have : 1 ≤ ∑ u, (S.pc u).left S.mem.chunks := hsum
      have := hcounts.remaining
      omega
    refine hcounts.move rfl rfl rfl (fun k' hk' => ?_) (fun k' _ h => h) ?_ (.inr ?_) <;> rw [hpc]
    · obtain rfl | rfl := hd <;> rfl
    · have hleft : Pc.left S.mem.chunks (.drain frame d : Pc W) = 0 := by
        obtain rfl | rfl := hd <;> rfl
      rw [hleft]
      show S.mem.remaining - 1 + 1 + (S.mem.chunks - S.mem.next) =
        S.mem.remaining + 0 + (S.mem.chunks - S.mem.next)
      omega
    · exact Nat.add_le_add_left (Nat.zero_le _) _

theorem Inv.notify (hinv : Inv count S) {frame : Frame} (hpc : S.pc t = .drain frame .notify)
    {d : Finset T} (hsub : d ⊆ S.mem.done) :
    Inv count (S.move t ({ S.mem with done := d }, .drain frame .take)) := by
  refine hinv.move rfl rfl rfl rfl le_rfl (.inl rfl) (fun j hj => .inl hj)
    (fun _ _ => Iff.rfl) hinv.free
    (hinv.thread_drain hpc rfl rfl rfl (fun k' h => by cases h) fun k' h => by cases h) ?_
    (fun j hj hcounts => ?_) (hinv.done_keep (by rw [hpc]; exact nofun) hsub le_rfl)
  · rw [hpc]
    cases frame <;> rfl
  · refine hcounts.same rfl rfl rfl rfl rfl rfl (fun k' => ?_) ?_ ?_ <;> rw [hpc]
    · rfl
    · rfl
    · exact le_rfl

/-- **A step of `drain`.** -/
theorem Inv.drain (hinv : Inv count S) {frame : Frame} {d : Drain} (hpc : S.pc t = .drain frame d)
    {pick : Option T} {r : Mem W T × Option Drain}
    (h : S.mem.drain frame.job pick d = some r) :
    Inv count (S.move t (r.1, match r.2 with | some d => .drain frame d | none => frame.back)) := by
  cases d with
  | take =>
    obtain rfl := Option.some.inj h
    exact hinv.take hpc
  | test k =>
    obtain rfl := Option.some.inj h
    by_cases hk : S.mem.chunks ≤ k
    · dsimp only
      rw [if_pos hk]
      exact hinv.back hpc hk
    · dsimp only
      rw [if_neg hk]
      exact hinv.test hpc (not_le.mp hk)
  | serve k =>
    obtain rfl := Option.some.inj h
    exact hinv.serve hpc
  | sub =>
    obtain rfl := Option.some.inj h
    refine hinv.sub hpc ?_
    split
    · exact .inl rfl
    · exact .inr rfl
  | notify =>
    obtain ⟨M, hM, rfl⟩ := Option.map_eq_some_iff.mp h
    obtain ⟨d, hsub, rfl, -⟩ := notifyOne_eq hM
    exact hinv.notify hpc hsub

/-! ## The other steps of the workers -/

omit [Fintype T] [DecidableEq T] in
/-- What a worker in `ready_.wait` knows. -/
theorem ThreadInv.await {s : ℕ} (h : M.lock ≠ some t) : ThreadInv M t (.await s) :=
  ⟨⟨fun h => absurd h id, fun hlock => absurd hlock h⟩, fun j h => (by cases h),
    fun h => absurd h id, fun s h => (by cases h), fun f k h => (by cases h),
    fun f k h => (by cases h), fun j h => (by cases h), fun j h => by cases h⟩

theorem Inv.leave (hinv : Inv count S) {s j : ℕ} (hpc : S.pc t = .leave s j) {d : Finset T}
    (hd : (∀ u ∈ S.mem.done, ∀ v ∈ S.mem.done, u = v) → d = ∅) :
    Inv count (S.move t ({ S.mem with active := S.mem.active - 1, done := d }, .await s)) := by
  have hthread := hinv.thread t
  rw [hpc] at hthread
  -- only the one caller with `caller_` is blocked
  have hempty : d = ∅ := hd fun u hu v hv => by
    obtain ⟨⟨j, hj⟩, -⟩ := hinv.done u hu
    obtain ⟨⟨k, hk⟩, -⟩ := hinv.done v hv
    exact hinv.locks_unique (by rw [hj]; trivial) (by rw [hk]; trivial)
  refine hinv.move rfl rfl rfl rfl le_rfl (.inl rfl) (fun j hj => .inl hj)
    (fun _ _ => Iff.rfl) hinv.free (.await fun h => hthread.locks.mpr h) ?_
    (fun j hj hcounts => ?_) fun u hu => ?_
  · have hpos : 1 ≤ S.mem.active := by
      have hsum := Finset.single_le_sum (f := fun u => (S.pc u).counted)
        (fun _ _ => Nat.zero_le _) (Finset.mem_univ t)
      rw [hpc] at hsum
      exact hinv.active ▸ hsum
    rw [hpc]
    show S.mem.active - 1 + 1 = S.mem.active + 0
    omega
  · refine hcounts.same rfl rfl rfl rfl rfl rfl (fun k' => ?_) ?_ ?_ <;> rw [hpc]
    · rfl
    · rfl
    · show 1 ≤ if s = S.mem.generation then 1 else 0
      rw [if_pos (hthread.seen s rfl)]
  · have hmem : u ∈ d := hu
    rw [hempty] at hmem
    exact absurd hmem (Finset.notMem_empty u)

theorem Inv.await (hinv : Inv count S) {s : ℕ} (hpc : S.pc t = .await s) :
    Inv count (S.move t (S.mem.await t s)) := by
  have hthread := hinv.thread t
  rw [hpc] at hthread
  have hlock : S.mem.lock ≠ some t := fun h => hthread.locks.mpr h
  unfold Mem.await
  split
  · refine hinv.move rfl rfl rfl rfl le_rfl (.inl rfl) (fun j hj => .inl hj)
      (fun _ _ => Iff.rfl) hinv.free (.await hlock) ?_ (fun j hj hcounts => ?_)
      (hinv.done_keep (by rw [hpc]; exact nofun) (Finset.Subset.refl _) le_rfl)
    · rw [hpc]
    · refine hcounts.same rfl rfl rfl rfl rfl rfl (fun k' => ?_) ?_ ?_ <;> rw [hpc]
  · rename_i hnew
    split
    · rename_i hjob
      refine hinv.move rfl rfl rfl rfl le_rfl (.inl rfl) (fun j hj => .inl hj)
        (fun _ _ => Iff.rfl) hinv.free (.await hlock) ?_ (fun j hj => ?_)
        (hinv.done_keep (by rw [hpc]; exact nofun) (Finset.Subset.refl _) le_rfl)
      · rw [hpc]
        rfl
      · cases hjob.symm.trans hj
    · rename_i j hjob
      refine hinv.move rfl rfl rfl rfl le_rfl (.inl rfl) (fun j hj => .inl hj)
        (fun _ _ => Iff.rfl) hinv.free ?_ ?_ (fun j hj hcounts => ?_)
        (hinv.done_keep (by rw [hpc]; exact nofun) (Finset.Subset.refl _) (Nat.le_succ _))
      · exact ⟨hthread.locks, fun j' h => Option.some.inj h ▸ hjob, fun h => absurd h id,
          fun s' h => (Option.some.inj h).symm, fun f k h => (by cases h), fun f k h => (by cases h),
          fun j h => (by cases h), fun j h => by cases h⟩
      · rw [hpc]
        rfl
      · refine hcounts.same rfl rfl rfl rfl rfl rfl (fun k' => ?_) ?_ ?_ <;> rw [hpc]
        · rfl
        · rfl
        · show (if s = S.mem.generation then 1 else 0) ≤ 0
          rw [if_neg fun h => hnew h.symm]

/-! ## The steps of `run` -/

/-- A caller moves with `caller_` and outside of `drain`, or without a job. -/
theorem Inv.move_caller (hinv : Inv count S) {lock : Option T} {ready : Finset T}
    {returned : List ℕ}
    (hreturned : ∀ j ∈ returned, j ∈ S.mem.returned ∨
      j < S.mem.works.length ∧ S.mem.job ≠ some j)
    (hlock : ∀ u, u ≠ t → (lock = some u ↔ S.mem.lock = some u))
    (hfree : lock = none → S.mem.job = none)
    (hthread : ThreadInv { S.mem with lock := lock, ready := ready, returned := returned } t p)
    (hne : ∀ j, S.pc t ≠ .wait j) (hcounted : p.counted = (S.pc t).counted)
    (hholds : ∀ k, p.holds k = (S.pc t).holds k) (hleft : ∀ n, p.left n = (S.pc t).left n)
    (hover : ∀ n g, (S.pc t).over n g ≤ p.over n g) :
    Inv count (S.move t ({ S.mem with lock := lock, ready := ready, returned := returned }, p)) :=
  hinv.move rfl rfl rfl rfl le_rfl (.inl rfl) hreturned hlock hfree hthread
    (congrArg (S.mem.active + ·) hcounted.symm)
    (fun _ _ hcounts => hcounts.same rfl rfl rfl rfl rfl rfl hholds (hleft _) (hover _ _))
    (hinv.done_keep hne (Finset.Subset.refl _) le_rfl)

theorem Inv.call (hinv : Inv count S) (hpc : S.pc t = .idle) (work : W) :
    Inv count (S.move t (S.mem, .lock work)) := by
  have hthread := hinv.thread t
  rw [hpc] at hthread
  refine hinv.move_caller (fun j hj => .inl hj) (fun _ _ => Iff.rfl) hinv.free ?_
    (by rw [hpc]; exact nofun) (by rw [hpc]; rfl) (fun k => by rw [hpc]; rfl)
    (fun n => by rw [hpc]; rfl) fun n g => by rw [hpc]; exact le_rfl
  exact ⟨hthread.locks, fun j h => (by cases h), fun h => absurd h id, fun s h => (by cases h),
    fun f k h => (by cases h), fun f k h => (by cases h), fun j h => (by cases h),
    fun j h => by cases h⟩

theorem Inv.lock (hinv : Inv count S) {work : W} (hpc : S.pc t = .lock work)
    (hlock : S.mem.lock = none) :
    Inv count (S.move t ({ S.mem with lock := some t }, .set work)) := by
  refine hinv.move_caller (fun j hj => .inl hj) (fun u hu => ?_) (fun h => by cases h) ?_
    (by rw [hpc]; exact nofun) (by rw [hpc]; rfl) (fun k => by rw [hpc]; rfl)
    (fun n => by rw [hpc]; rfl) fun n g => by rw [hpc]; exact le_rfl
  · rw [hlock]
    exact ⟨fun h => absurd (Option.some.inj h).symm hu, fun h => by cases h⟩
  · exact ⟨⟨fun _ => rfl, fun _ => trivial⟩, fun j h => (by cases h), fun _ => hinv.free hlock,
      fun s h => (by cases h), fun f k h => (by cases h), fun f k h => (by cases h),
      fun j h => (by cases h), fun j h => by cases h⟩

theorem Inv.ready (hinv : Inv count S) {j : ℕ} (hpc : S.pc t = .ready j) :
    Inv count (S.move t ({ S.mem with ready := ∅ }, .drain (.caller j) .take)) := by
  have hthread := hinv.thread t
  rw [hpc] at hthread
  refine hinv.move_caller (fun j hj => .inl hj) (fun _ _ => Iff.rfl) hinv.free ?_
    (by rw [hpc]; exact nofun) (by rw [hpc]; rfl) (fun k => by rw [hpc]; rfl)
    (fun n => by rw [hpc]; rfl) fun n g => by rw [hpc]; exact le_rfl
  exact ⟨hthread.locks, hthread.job, fun h => absurd h id, fun s h => (by cases h),
    fun f k h => (by cases h), fun f k h => (by cases h), fun j h => (by cases h),
    fun j h => by cases h⟩

theorem Inv.unlock (hinv : Inv count S) {j : ℕ} (hpc : S.pc t = .unlock j) :
    Inv count (S.move t ({ S.mem with lock := none, returned := j :: S.mem.returned }, .idle)) := by
  have hthread := hinv.thread t
  rw [hpc] at hthread
  have hjob : S.mem.job = none := hthread.free trivial
  have hlock : S.mem.lock = some t := hthread.locks.mp trivial
  refine hinv.move_caller (fun j' hj => ?_) (fun u hu => ?_) (fun _ => hjob) ?_
    (by rw [hpc]; exact nofun) (by rw [hpc]; rfl) (fun k => by rw [hpc]; rfl)
    (fun n => by rw [hpc]; rfl) fun n g => by rw [hpc]; exact le_rfl
  · obtain rfl | hj := List.mem_cons.mp hj
    · exact .inr ⟨hthread.unlock j' rfl, by rw [hjob]; exact nofun⟩
    · exact .inl hj
  · rw [hlock]
    exact ⟨fun h => (by cases h), fun h => absurd (Option.some.inj h).symm hu⟩
  · exact ⟨⟨fun h => absurd h id, fun h => by cases h⟩, fun j h => (by cases h), fun h => absurd h id,
      fun s h => (by cases h), fun f k h => (by cases h), fun f k h => (by cases h),
      fun j h => (by cases h), fun j h => by cases h⟩

omit [Fintype T] [DecidableEq T] in
/-- Without a job set up no thread has one. -/
theorem ThreadInv.job_none (h : ThreadInv M t p) (hjob : M.job = none) : p.job = none := by
  cases hp : p.job with
  | none => rfl
  | some j => cases hjob.symm.trans (h.job j hp)

/-- A thread that has no job counts for no chunk. -/
theorem holds_eq_zero {p : Pc W} (h : p.job = none) (k : ℕ) : p.holds k = 0 := by
  cases p <;> first | rfl | cases h

theorem left_eq_zero {p : Pc W} (h : p.job = none) (n : ℕ) : p.left n = 0 := by
  cases p <;> first | rfl | cases h

theorem seen_eq_none {p : Pc W} (h : p.job = none) : p.seen = none := by
  cases p <;> first | rfl | cases h

theorem Pc.Free.locks {p : Pc W} (h : p.Free) : p.Locks := by
  cases p <;> trivial

/-- A thread with a job is counted or has `caller_`. -/
theorem counted_or_locks {p : Pc W} {j : ℕ} (h : p.job = some j) : p.counted = 1 ∨ p.Locks := by
  cases p with
  | leave => exact .inl rfl
  | ready => exact .inr trivial
  | wait => exact .inr trivial
  | drain frame d =>
    cases frame with
    | worker => exact .inl rfl
    | caller => exact .inr trivial
  | _ => cases h

theorem Inv.set (hinv : Inv count S) {work : W} (hpc : S.pc t = .set work) :
    Inv count (S.move t (S.mem.set count work, .ready S.mem.works.length)) := by
  have hthread := hinv.thread t
  rw [hpc] at hthread
  have hjob : S.mem.job = none := hthread.free trivial
  have hlock : S.mem.lock = some t := hthread.locks.mp trivial
  have hlen : (S.mem.works ++ [work]).length = S.mem.works.length + 1 := by
    rw [List.length_append, List.length_singleton]
  have hnone : ∀ u, ((S.move t (S.mem.set count work, .ready S.mem.works.length)).pc u).job = none ∨
      u = t := fun u => by
    by_cases hu : u = t
    · exact .inr hu
    · rw [move_pc_of_ne hu]
      exact .inl ((hinv.thread u).job_none hjob)
  refine ⟨forall_move (P := ThreadInv _) ?_ fun u hu => ?_, ?_, fun h => ?_, ?_, fun j hj => ?_,
    fun j w hw hne k => ?_, fun e he => ?_, fun u hu => ?_, fun j hj => ?_⟩
  · exact ⟨hthread.locks, fun j h => h, fun h => absurd h id, fun s h => (by cases h),
      fun f k h => (by cases h), fun f k h => (by cases h), fun j h => (by cases h),
      fun j h => by cases h⟩
  · have hu' := hinv.thread u
    have hpu := hu'.job_none hjob
    have hnl : ¬(S.pc u).Locks := fun h =>
      hu (Option.some.inj ((hu'.locks.mp h).symm.trans hlock))
    refine ⟨hu'.locks, fun j h => ?_, fun h => ?_, fun s h => ?_, fun f k h => ?_, fun f k h => ?_,
      fun j h => ?_, fun j h => ?_⟩
    · cases hpu.symm.trans h
    · exact absurd h.locks hnl
    · cases (seen_eq_none hpu).symm.trans h
    · rw [h] at hpu
      cases hpu
    · rw [h] at hpu
      cases hpu
    · rw [h] at hpu
      cases hpu
    · rw [h] at hnl
      exact absurd trivial hnl
  · exact (congrArg (· + 1) hinv.generation).trans hlen.symm
  · exact absurd (h.symm.trans hlock) nofun
  · refine hinv.active.trans (sum_move_eq Pc.counted ?_).symm
    rw [hpc]
    rfl
  · obtain rfl := Option.some.inj hj
    have hserved : ∀ k, (S.mem.works.length, k) ∉ S.mem.served := fun k hk =>
      lt_irrefl _ (hinv.served _ hk)
    refine ⟨⟨work, List.getElem?_concat_length .., rfl⟩, hlen.symm,
      fun k _ => ?_, fun k _ => hserved k, ?_, Nat.zero_le _⟩
    · rw [Finset.sum_eq_zero fun u _ => ?_]
      · exact List.count_eq_zero.mpr (hserved k)
      · obtain h | rfl := hnone u
        · exact holds_eq_zero h k
        · rw [move_pc_self]
          rfl
    · rw [Finset.sum_eq_zero fun u _ => ?_]
      · rfl
      · obtain h | rfl := hnone u
        · exact left_eq_zero h _
        · rw [move_pc_self]
          rfl
  · have hj : j ≠ S.mem.works.length := fun h => hne (congrArg some h.symm)
    replace hw : (S.mem.works ++ [work])[j]? = some w := hw
    have hlt : j < S.mem.works.length := by
      have := (List.getElem?_eq_some_iff.mp hw).1
      omega
    rw [List.getElem?_append_left hlt] at hw
    exact hinv.past j w hw (by rw [hjob]; exact nofun) k
  · exact lt_of_lt_of_eq (Nat.lt_succ_of_lt (hinv.served e he)) hlen.symm
  · obtain ⟨⟨j, hj⟩, -⟩ := hinv.done u hu
    cases hjob.symm.trans ((hinv.thread u).job j (by rw [hj]; rfl))
  · have hlt := (hinv.returned j hj).1
    exact ⟨lt_of_lt_of_eq (Nat.lt_succ_of_lt hlt) hlen.symm,
      fun h => absurd (Option.some.inj h) (Nat.ne_of_gt hlt)⟩

omit [DecidableEq T] in
/-- While the caller of a job is out of `drain` and no worker is counted, no other
thread has the job. -/
theorem Inv.job_none (hinv : Inv count S) (hlocks : (S.pc t).Locks) (hactive : S.mem.active = 0)
    {u : T} (hu : u ≠ t) : (S.pc u).job = none := by
  cases h : (S.pc u).job with
  | none => rfl
  | some j =>
    obtain hcounted | hl := counted_or_locks h
    · have hsum : (S.pc u).counted ≤ ∑ v, (S.pc v).counted :=
        Finset.single_le_sum (f := fun v => (S.pc v).counted)
          (fun _ _ => Nat.zero_le _) (Finset.mem_univ u)
      have := hinv.active
      omega
    · exact absurd (hinv.locks_unique hl hlocks) hu

theorem Inv.finish (hinv : Inv count S) {j : ℕ} (hpc : S.pc t = .wait j) (ht : t ∉ S.mem.done)
    (hactive : S.mem.active = 0) :
    Inv count (S.move t ({ S.mem with job := none }, .unlock j)) := by
  have hthread := hinv.thread t
  rw [hpc] at hthread
  have hlocks : (S.pc t).Locks := by rw [hpc]; trivial
  have hjob : S.mem.job = some j := hthread.job j rfl
  have hcounts := hinv.counts j hjob
  refine ⟨forall_move (P := ThreadInv _) ?_ fun u hu => ?_, hinv.generation, fun _ => rfl, ?_,
    fun j hj => (by cases hj), fun j' w hw hne k => ?_, hinv.served, fun u hu => ?_, fun j' hj' => ?_⟩
  · exact ⟨hthread.locks, fun j h => (by cases h), fun _ => rfl, fun s h => (by cases h),
      fun f k h => (by cases h), fun f k h => (by cases h), fun j h => (by cases h),
      fun j' h => by cases h; exact Nat.lt_of_lt_of_eq (Nat.lt_succ_self _) hcounts.last⟩
  · have hu' := hinv.thread u
    have hpu := hinv.job_none hlocks hactive hu
    exact ⟨hu'.locks, fun j h => (by cases hpu.symm.trans h), fun _ => rfl, hu'.seen, hu'.drawn,
      hu'.serve, hu'.out, hu'.unlock⟩
  · refine hinv.active.trans (sum_move_eq Pc.counted ?_).symm
    rw [hpc]
    rfl
  · by_cases hj : j' = j
    · subst hj
      obtain ⟨w', hw', hchunks⟩ := hcounts.work
      obtain rfl := Option.some.inj (hw'.symm.trans hw)
      rw [← hchunks]
      by_cases hk : k < S.mem.chunks
      · have hticket := hcounts.ticket k hk
        rw [Finset.sum_eq_zero fun u _ => ?_,
          if_pos (lt_of_lt_of_le hk (hthread.out j' rfl))] at hticket
        · rw [if_pos hk]
          exact hticket
        · by_cases hu : u = t
          · rw [hu, hpc]
            rfl
          · exact holds_eq_zero (hinv.job_none hlocks hactive hu) k
      · rw [if_neg hk]
        exact List.count_eq_zero.mpr (hcounts.inside k (not_lt.mp hk))
    · exact hinv.past j' w hw (by rw [hjob]; exact fun h => hj (Option.some.inj h).symm) k
  · obtain ⟨⟨j', hj'⟩, -⟩ := hinv.done u hu
    have hut : u = t := hinv.locks_unique (by rw [hj']; trivial) hlocks
    exact absurd (hut ▸ hu) ht
  · exact ⟨(hinv.returned j' hj').1, nofun⟩

omit [DecidableEq T] in
/-- A chunk that is left when the caller is out of `drain` belongs to a worker. -/
theorem Inv.active_pos (hinv : Inv count S) {j : ℕ} (hpc : S.pc t = .wait j)
    (h : ¬(S.mem.remaining = 0 ∧ S.mem.active = 0)) : 0 < S.mem.active := by
  have hthread := hinv.thread t
  rw [hpc] at hthread
  have hcounts := hinv.counts j (hthread.job j rfl)
  refine Nat.pos_of_ne_zero fun hactive => h ⟨?_, hactive⟩
  rw [hcounts.remaining, Nat.sub_eq_zero_of_le (hthread.out j rfl), Nat.zero_add]
  refine Finset.sum_eq_zero fun u _ => ?_
  by_cases hu : u = t
  · rw [hu, hpc]
    rfl
  · exact left_eq_zero (hinv.job_none (by rw [hpc]; trivial) hactive hu) _

theorem Inv.wait (hinv : Inv count S) {j : ℕ} (hpc : S.pc t = .wait j) (ht : t ∉ S.mem.done) :
    Inv count (S.move t (S.mem.wait t j)) := by
  have hthread := hinv.thread t
  rw [hpc] at hthread
  unfold Mem.wait
  split
  · rename_i h
    exact hinv.finish hpc ht h.2
  · rename_i h
    have hpos := hinv.active_pos hpc h
    refine hinv.move rfl rfl rfl rfl le_rfl (.inl rfl) (fun j hj => .inl hj)
      (fun _ _ => Iff.rfl) hinv.free (hthread.mono Iff.rfl rfl rfl rfl le_rfl rfl) ?_
      (fun j hj hcounts => ?_) fun u hu => ⟨?_, hpos⟩
    · rw [hpc]
    · refine hcounts.same rfl rfl rfl rfl rfl rfl (fun k' => ?_) ?_ ?_ <;> rw [hpc]
    · by_cases hu' : u = t
      · subst hu'
        exact ⟨j, move_pc_self⟩
      · rw [move_pc_of_ne hu']
        exact (hinv.done u ((Finset.mem_insert.mp hu).resolve_left hu')).1

/-! ## Every step -/

theorem Inv.spurious (hinv : Inv count S) (t : T) :
    Inv count { S with mem :=
      { S.mem with ready := S.mem.ready.erase t, done := S.mem.done.erase t } } where
  thread u := (hinv.thread u).mono Iff.rfl rfl rfl rfl le_rfl rfl
  generation := hinv.generation
  free := hinv.free
  active := hinv.active
  counts j hj := { hinv.counts j hj with }
  past := hinv.past
  served := hinv.served
  done u hu := hinv.done u (Finset.mem_of_mem_erase hu)
  returned := hinv.returned

theorem Inv.thread_step (hinv : Inv count S) {pick : Option T} {S' : State W T}
    (h : S.thread count t pick = some S') : Inv count S' := by
  unfold State.thread at h
  split at h <;> rename_i hpc
  · obtain ⟨-, h⟩ := Option.ite_none_left_eq_some.mp h
    obtain rfl := Option.some.inj h
    exact hinv.await hpc
  · obtain ⟨M, hM, rfl⟩ := Option.map_eq_some_iff.mp h
    obtain ⟨d, -, rfl, hd⟩ := notifyOne_eq hM
    exact hinv.leave hpc hd
  · cases h
  · obtain ⟨hlock, h⟩ := Option.ite_none_right_eq_some.mp h
    obtain rfl := Option.some.inj h
    exact hinv.lock hpc hlock
  · obtain rfl := Option.some.inj h
    exact hinv.set hpc
  · obtain rfl := Option.some.inj h
    exact hinv.ready hpc
  · obtain ⟨ht, h⟩ := Option.ite_none_left_eq_some.mp h
    obtain rfl := Option.some.inj h
    exact hinv.wait hpc ht
  · obtain rfl := Option.some.inj h
    exact hinv.unlock hpc
  · obtain ⟨r, hr, rfl⟩ := Option.map_eq_some_iff.mp h
    exact hinv.drain hpc hr

theorem Inv.step {a : Action W T} (hinv : Inv count S) {S' : State W T}
    (h : step count S a = some S') : Inv count S' := by
  cases a with
  | call t work =>
    simp only [Pool.step] at h
    split at h
    · obtain rfl := Option.some.inj h
      exact hinv.call ‹_› work
    · cases h
  | thread t pick => exact hinv.thread_step h
  | spurious t =>
    obtain rfl := Option.some.inj h
    exact hinv.spurious t

theorem Inv.reachable {worker : T → Bool} (h : Reachable count worker S) : Inv count S :=
  h.invariant (Inv count) (.start worker) fun _ _ _ hinv _ hstep => hinv.step hstep

/-! ## Progress -/

/-- The thread has called `run`. -/
def Pc.Runs : Pc W → Prop
  | await _ | idle | leave .. | drain (.worker ..) _ => False
  | _ => True

omit [Fintype T] in
theorem notifyOne_some (M : Mem W T) : ∃ pick M', M.notifyOne pick = some M' ∧ M'.done ⊆ M.done := by
  by_cases h : M.done = ∅
  · exact ⟨none, M, if_pos h, Finset.Subset.refl _⟩
  · obtain ⟨u, hu⟩ := Finset.nonempty_iff_ne_empty.mpr h
    exact ⟨some u, _, if_pos hu, Finset.erase_subset u _⟩

omit [Fintype T] in
theorem drain_some (M : Mem W T) (j : ℕ) (d : Drain) :
    ∃ pick r, M.drain j pick d = some r ∧ r.1.done ⊆ M.done := by
  cases d with
  | notify =>
    obtain ⟨pick, M', hM, hsub⟩ := notifyOne_some M
    exact ⟨pick, (M', some .take), by unfold Mem.drain; rw [hM]; rfl, hsub⟩
  | _ => exact ⟨none, _, rfl, Finset.Subset.refl _⟩

variable (count) in
/-- Thread `t` can take a step with which nobody comes to wait for the job. -/
def State.Goes (S : State W T) (t : T) : Prop :=
  ∃ pick S', S.thread count t pick = some S' ∧ S'.mem.done ⊆ S.mem.done

omit [Fintype T] in
theorem goes_drain {frame : Frame} {d : Drain} (hpc : S.pc t = .drain frame d) :
    S.Goes count t := by
  obtain ⟨pick, r, hr, hsub⟩ := drain_some S.mem frame.job d
  refine ⟨pick, S.move t (r.1, match r.2 with | some d => .drain frame d | none => frame.back),
    ?_, hsub⟩
  unfold State.thread
  rw [hpc]
  dsimp only
  rw [hr]
  rfl

/-- While `active_` is not zero, a worker that it counts goes on. -/
theorem Inv.goes_worker (hinv : Inv count S) (hpos : 0 < S.mem.active) :
    ∃ u, (S.pc u).counted = 1 ∧ S.Goes count u := by
  rw [hinv.active] at hpos
  obtain ⟨u, -, hu⟩ := Finset.exists_ne_zero_of_sum_ne_zero (Nat.ne_of_gt hpos)
  cases hpu : S.pc u with
  | leave s j =>
    obtain ⟨pick, M, hM, hsub⟩ := notifyOne_some { S.mem with active := S.mem.active - 1 }
    refine ⟨u, by rw [hpu]; rfl, pick, S.move u (M, .await s), ?_, hsub⟩
    unfold State.thread
    rw [hpu]
    dsimp only
    rw [hM]
    rfl
  | drain frame d =>
    cases frame with
    | worker => exact ⟨u, by rw [hpu]; rfl, goes_drain hpu⟩
    | caller => exact absurd (by rw [hpu]; rfl) hu
  | _ => exact absurd (by rw [hpu]; rfl) hu

/-- The thread that has `caller_` goes on, or a worker does. -/
theorem Inv.goes_locks (hinv : Inv count S) (h : (S.pc t).Locks) :
    ∃ u, ((S.pc u).Runs ∨ (S.pc u).counted = 1) ∧ S.Goes count u := by
  cases hpc : S.pc t with
  | set work =>
    refine ⟨t, .inl (by rw [hpc]; trivial), none,
      S.move t (S.mem.set count work, .ready S.mem.works.length), ?_, Finset.Subset.refl _⟩
    unfold State.thread
    rw [hpc]
  | ready j =>
    refine ⟨t, .inl (by rw [hpc]; trivial), none,
      S.move t ({ S.mem with ready := ∅ }, .drain (.caller j) .take), ?_, Finset.Subset.refl _⟩
    unfold State.thread
    rw [hpc]
  | unlock j =>
    refine ⟨t, .inl (by rw [hpc]; trivial), none,
      S.move t ({ S.mem with lock := none, returned := j :: S.mem.returned }, .idle), ?_,
      Finset.Subset.refl _⟩
    unfold State.thread
    rw [hpc]
  | wait j =>
    by_cases hdone : t ∈ S.mem.done
    · obtain ⟨u, hu, hgoes⟩ := hinv.goes_worker (hinv.done t hdone).2
      exact ⟨u, .inr hu, hgoes⟩
    · by_cases hzero : S.mem.remaining = 0 ∧ S.mem.active = 0
      · refine ⟨t, .inl (by rw [hpc]; trivial), none,
          S.move t ({ S.mem with job := none }, .unlock j), ?_, Finset.Subset.refl _⟩
        unfold State.thread
        rw [hpc]
        dsimp only
        rw [if_neg hdone, Mem.wait, if_pos hzero]
      · obtain ⟨u, hu, hgoes⟩ := hinv.goes_worker (hinv.active_pos hpc hzero)
        exact ⟨u, .inr hu, hgoes⟩
  | drain frame d =>
    rw [hpc] at h
    cases frame with
    | worker => exact absurd h id
    | caller => exact ⟨t, .inl (by rw [hpc]; trivial), goes_drain hpc⟩
  | _ =>
    rw [hpc] at h
    exact absurd h id

/-- **No deadlock**: while a thread has called `run`, one that has or a worker that
is counted goes on. -/
theorem Inv.progress (hinv : Inv count S) (h : (S.pc t).Runs) :
    ∃ u, ((S.pc u).Runs ∨ (S.pc u).counted = 1) ∧ S.Goes count u := by
  cases hpc : S.pc t with
  | lock work =>
    cases hlock : S.mem.lock with
    | none =>
      refine ⟨t, .inl h, none, S.move t ({ S.mem with lock := some t }, .set work), ?_,
        Finset.Subset.refl _⟩
      unfold State.thread
      rw [hpc]
      exact if_pos hlock
    | some u => exact hinv.goes_locks ((hinv.thread u).locks.mpr hlock)
  | drain frame d =>
    cases frame with
    | worker =>
      rw [hpc] at h
      exact absurd h id
    | caller => exact hinv.goes_locks (by rw [hpc]; trivial)
  | set => exact hinv.goes_locks (by rw [hpc]; trivial)
  | ready => exact hinv.goes_locks (by rw [hpc]; trivial)
  | wait => exact hinv.goes_locks (by rw [hpc]; trivial)
  | unlock => exact hinv.goes_locks (by rw [hpc]; trivial)
  | _ =>
    rw [hpc] at h
    exact absurd h id

/-! ## Isolation -/

variable (count) in
/-- What holds of the jobs in every state.

A chunk is passed to `serve` at most once, with the `Work` it is a chunk of, and
exactly once before `run` returns. A thread in `drain` draws tickets from the
counters of the job it has, which is the last one set up, and `run` has not
returned from it. `next_` stays within the chunks and the threads. -/
structure Isolated (S : State W T) : Prop where
  once : ∀ e, S.mem.served.count e ≤ 1
  own : ∀ e ∈ S.mem.served, ∃ w, S.mem.works[e.1]? = some w ∧ e.2 < chunksOf count w
  counters : ∀ t frame d, S.pc t = .drain frame d → frame.job + 1 = S.mem.works.length ∧
    ∃ w, S.mem.works[frame.job]? = some w ∧ S.mem.chunks = chunksOf count w
  live : ∀ t frame d, S.pc t = .drain frame d → frame.job ∉ S.mem.returned
  complete : ∀ j ∈ S.mem.returned, ∃ w, S.mem.works[j]? = some w ∧
    ∀ k < chunksOf count w, S.mem.served.count (j, k) = 1
  next_le : S.mem.job ≠ none → S.mem.next ≤ S.mem.chunks + Fintype.card T
  progress : ∀ t, (S.pc t).Runs →
    ∃ u, ((S.pc u).Runs ∨ (S.pc u).counted = 1) ∧ S.Goes count u

theorem over_le (chunks generation : ℕ) (p : Pc W) : p.over chunks generation ≤ 1 := by
  cases p with
  | drain frame d =>
    cases d with
    | test k =>
      show (if chunks ≤ k then 1 else 0) ≤ 1
      split <;> omega
    | _ => exact Nat.zero_le 1
  | await s =>
    show (if s = generation then 1 else 0) ≤ 1
    split <;> omega
  | leave => exact le_rfl
  | wait => exact le_rfl
  | _ => exact Nat.zero_le 1

omit [DecidableEq T] in
/-- How often a chunk of a job has been served. -/
theorem Inv.count_le (hinv : Inv count S) {j : ℕ} {w : W} (hw : S.mem.works[j]? = some w) (k : ℕ) :
    S.mem.served.count (j, k) ≤ if k < chunksOf count w then 1 else 0 := by
  by_cases hjob : S.mem.job = some j
  · have hcounts := hinv.counts j hjob
    obtain ⟨w', hw', hchunks⟩ := hcounts.work
    obtain rfl := Option.some.inj (hw'.symm.trans hw)
    rw [← hchunks]
    by_cases hk : k < S.mem.chunks
    · have hticket := hcounts.ticket k hk
      rw [if_pos hk]
      split_ifs at hticket <;> omega
    · rw [if_neg hk, List.count_eq_zero.mpr (hcounts.inside k (not_lt.mp hk))]
  · exact Nat.le_of_eq (hinv.past j w hw hjob k)

theorem Inv.isolated (hinv : Inv count S) : Isolated count S where
  once e := by
    by_cases he : e ∈ S.mem.served
    · have hw := List.getElem?_eq_getElem (hinv.served e he)
      refine le_trans (hinv.count_le hw e.2) ?_
      split <;> omega
    · rw [List.count_eq_zero.mpr he]
      exact Nat.zero_le 1
  own e he := by
    have hw := List.getElem?_eq_getElem (hinv.served e he)
    refine ⟨_, hw, not_le.mp fun hle => ?_⟩
    have hcount := hinv.count_le hw e.2
    rw [if_neg (not_lt.mpr hle)] at hcount
    exact List.count_eq_zero.mp (Nat.le_zero.mp hcount) he
  counters t frame d hpc := by
    obtain ⟨-, hcounts⟩ := hinv.counts_drain hpc
    exact ⟨hcounts.last, hcounts.work⟩
  live t frame d hpc hmem := (hinv.returned _ hmem).2 (hinv.counts_drain hpc).1
  complete j hj := by
    obtain ⟨hlt, hne⟩ := hinv.returned j hj
    have hw := List.getElem?_eq_getElem hlt
    refine ⟨_, hw, fun k hk => ?_⟩
    rw [hinv.past j _ hw hne k, if_pos hk]
  next_le hjob := by
    obtain ⟨j, hj⟩ := Option.ne_none_iff_exists'.mp hjob
    refine le_trans (hinv.counts j hj).next_le (Nat.add_le_add_left ?_ _)
    refine le_trans (Finset.sum_le_sum fun u _ => over_le _ _ (S.pc u)) ?_
    exact Nat.le_of_eq (Finset.card_eq_sum_ones Finset.univ).symm
  progress _ h := hinv.progress h

/-- **The jobs of the pool are isolated**, with any workers and callers, in any
interleaving of their steps. -/
theorem pool_isolated {worker : T → Bool} (h : Reachable count worker S) : Isolated count S :=
  (Inv.reachable h).isolated

/-- The literals of the threads below. -/
theorem threads_neZero : NeZero 2 := inferInstance

attribute [local instance] threads_neZero

/-- A worker and the caller share a job of two chunks; the worker is the last to leave. -/
def sharedRun : List (Action ℕ (Fin 2)) :=
  [.call 1 2, .thread 1 none, .thread 1 none, .thread 0 none, .thread 1 none, .thread 0 none,
    .thread 1 none, .thread 0 none, .thread 1 none, .thread 0 none, .thread 1 none, .thread 0 none,
    .thread 1 none, .thread 1 none, .thread 1 none, .thread 1 none, .thread 1 none, .thread 0 none,
    .thread 0 none, .thread 0 (some 1), .thread 1 none, .thread 1 none]

theorem pool_isolated_shared : ∃ S, Transition.run (step id) (.start (· = 0)) sharedRun = some S ∧
    S.mem.returned = [0] ∧ S.mem.served = [(0, 1), (0, 0)] ∧ Isolated id S := by
  have h : (Transition.run (step id) (.start (· = 0)) sharedRun).any fun S =>
      S.mem.returned = [0] ∧ S.mem.served = [(0, 1), (0, 0)] := by decide +kernel
  obtain ⟨S, hrun, h⟩ := (Option.any_eq_true _ _).mp h
  obtain ⟨hreturned, hserved⟩ := of_decide_eq_true h
  exact ⟨S, hrun, hreturned, hserved, @pool_isolated _ _ _ _ _ _ (· = 0)
    (.of_run hrun (Transition.allowedRun_of_forall (fun _ _ => trivial) _ _))⟩

end Pool
