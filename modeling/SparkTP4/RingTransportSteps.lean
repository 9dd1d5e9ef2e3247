import SparkTP4.RingTransportInv

/-!
# The ring transport: what a step keeps

A step of a kernel or of a proxy changes one rank and no queue, but for the post of a write, which
appends it to its queue. A step of the network changes one queue. Each keeps the invariant of the
ranks and of the network (`Inv.step`), and so it holds in every reachable state.
-/

namespace RingTransport

open RingPaths RingPosts

variable {V : Type} {cfg : Setting V} {S S' : State V} {R R' : Rank V} {r p q k n i : ℕ}

/-! ## A step of a kernel -/

section Kernel

variable {D D' : List Task} {t : Task} {recv : ℕ × ℕ × ℕ × ℕ → V}

/-- More tasks have run. -/
theorem Needs.mono (h : Needs cfg r n D t) (hsub : D ⊆ D') : Needs cfg r n D' t := by
  cases t with
  | stage i => exact h
  | setNbytes => exact fun i hi => hsub (h i hi)
  | ring => exact hsub h
  | see b t peer path => exact ⟨h.1, h.2.1, h.2.2.1, fun i hi hb => hsub (h.2.2.2 i hi hb)⟩
  | read peer i => exact ⟨h.1, h.2.1, h.2.2.1, fun t ht e he => hsub (h.2.2.2 t ht e he)⟩

@[simp] theorem exec_op : (R.exec cfg r recv t).op = R.op := by cases t <;> rfl

@[simp] theorem exec_done : (R.exec cfg r recv t).done = t :: R.done := by cases t <;> rfl

@[simp] theorem exec_epoch : (R.exec cfg r recv t).epoch = R.epoch := by cases t <;> rfl

@[simp] theorem exec_result : (R.exec cfg r recv t).result = R.result := by cases t <;> rfl

@[simp] theorem exec_lastSeq : (R.exec cfg r recv t).lastSeq = R.lastSeq := by cases t <;> rfl

@[simp] theorem exec_proxy : (R.exec cfg r recv t).proxy = R.proxy := by cases t <;> rfl

@[simp] theorem exec_opsPosted : (R.exec cfg r recv t).opsPosted = R.opsPosted := by
  cases t <;> rfl

@[simp] theorem exec_flagWrites : (R.exec cfg r recv t).flagWrites = R.flagWrites := by
  cases t <;> rfl

@[simp] theorem exec_outstanding : (R.exec cfg r recv t).outstanding = R.outstanding := by
  cases t <;> rfl

theorem exec_rung : (R.exec cfg r recv t).rung = if t = .ring then R.op else R.rung := by
  unfold Rank.rung
  rw [exec_op, exec_done]
  by_cases ht : t = .ring
  · rw [if_pos ht, if_pos (List.mem_cons.mpr (.inl ht.symm))]
  · rw [if_neg ht]
    refine if_congr ?_ rfl rfl
    rw [List.mem_cons]
    exact or_iff_right fun heq => ht heq.symm

theorem le_exec_rung : R.rung ≤ (R.exec cfg r recv t).rung := by
  rw [exec_rung]
  split_ifs
  · exact R.rung_le
  · exact le_rfl

/-- The send slot after a task. -/
theorem exec_send {slot : ℕ} : (R.exec cfg r recv t).send (slot, i) =
    if t = .stage i ∧ slot = slotOf R.seq then cfg.input r R.op i else R.send (slot, i) := by
  cases t with
  | stage j =>
    show Function.update R.send (slotOf R.seq, j) (cfg.input r R.op j) (slot, i) = _
    rw [Function.update_apply]
    by_cases hij : j = i
    · subst hij
      simp
    · have hne : ¬(slot, i) = (slotOf R.seq, j) := fun heq => hij (Prod.mk.inj heq).2.symm
      have hne' : ¬(Task.stage j = Task.stage i ∧ slot = slotOf R.seq) :=
        fun h => hij (Task.stage.inj h.1)
      rw [if_neg hne, if_neg hne']
  | _ => exact (if_neg fun h => Task.noConfusion h.1).symm

theorem exec_slotNbytes {slot : ℕ} : (R.exec cfg r recv t).slotNbytes slot =
    if t = .setNbytes ∧ slot = slotOf R.seq then cfg.nbytes R.op else R.slotNbytes slot := by
  cases t with
  | setNbytes =>
    show Function.update R.slotNbytes (slotOf R.seq) (cfg.nbytes R.op) slot = _
    rw [Function.update_apply]
    exact if_congr (and_iff_right rfl).symm rfl rfl
  | _ => exact (if_neg fun h => Task.noConfusion h.1).symm

theorem exec_doorbell : (R.exec cfg r recv t).doorbell = if t = .ring then R.seq else R.doorbell := by
  cases t <;> rfl

/-- **A task keeps the invariant of its kernel.** -/
theorem KernelInv.exec (h : KernelInv cfg r R) (hneeds : Needs cfg r R.op R.done t) :
    KernelInv cfg r (R.exec cfg r recv t) := by
  have hslot : slotOf R.seq = R.op % 2 := by rw [h.seq_eq, slotOf_word]
  have hpos := h.op_pos
  refine
    { op_pos := by rw [exec_op]; exact hpos
      epoch := by rw [exec_op, exec_epoch]; exact h.epoch
      needs := fun t' ht' => ?_
      staged := fun i hi => ?_
      held := fun hop i hi => ?_
      sized := fun hmem => ?_
      sized_held := fun hop => ?_
      doorbell := ?_ }
  · rw [exec_op, exec_done]
    rw [exec_done] at ht'
    obtain rfl | ht' := List.mem_cons.mp ht'
    · exact hneeds.mono (List.subset_cons_self t' R.done)
    · exact (h.needs t' ht').mono (List.subset_cons_self t R.done)
  · rw [exec_done] at hi
    rw [exec_op, exec_send]
    split_ifs with hstage
    · rfl
    · obtain heq | hi := List.mem_cons.mp hi
      · exact absurd ⟨heq.symm, hslot.symm⟩ hstage
      · exact h.staged i hi
  · rw [exec_op] at hop hi ⊢
    rw [exec_send, if_neg]
    · exact h.held hop i hi
    · rintro ⟨-, hparity⟩
      omega
  · rw [exec_done] at hmem
    rw [exec_op, exec_slotNbytes]
    split_ifs with hset
    · rfl
    · obtain heq | hmem := List.mem_cons.mp hmem
      · exact absurd ⟨heq.symm, hslot.symm⟩ hset
      · exact h.sized hmem
  · rw [exec_op] at hop ⊢
    rw [exec_slotNbytes, if_neg]
    · exact h.sized_held hop
    · rintro ⟨-, hparity⟩
      omega
  · rw [exec_doorbell, exec_rung]
    split_ifs
    · exact h.seq_eq
    · exact h.doorbell

/-- **The end of a kernel keeps its invariant.** -/
theorem KernelInv.finish (h : KernelInv cfg r R) (hfin : R.finish cfg r = some R') :
    KernelInv cfg r R' ∧ R'.rung = R.rung := by
  unfold Rank.finish at hfin
  split_ifs at hfin with hdone
  obtain rfl := Option.some.inj hfin
  obtain ⟨-, hring, -⟩ := hdone
  have hrung : R.rung = R.op := if_pos hring
  refine ⟨?_, ?_⟩
  · refine
      { op_pos := Nat.succ_pos R.op
        epoch := h.seq_eq
        needs := fun t ht => absurd ht List.not_mem_nil
        staged := fun i hi => absurd hi List.not_mem_nil
        held := fun _ i hi => h.send_eq h.op_pos hrung.ge (Nat.le_succ R.op) hi
        sized := fun hmem => absurd hmem List.not_mem_nil
        sized_held := fun _ => h.size_eq h.op_pos hrung.ge (Nat.le_succ R.op)
        doorbell := ?_ }
    show R.doorbell = word (if Task.ring ∈ [] then R.op + 1 else R.op + 1 - 1)
    rw [if_neg List.not_mem_nil, Nat.add_sub_cancel, ← hrung]
    exact h.doorbell
  · show (if Task.ring ∈ [] then R.op + 1 else R.op + 1 - 1) = R.rung
    rw [if_neg List.not_mem_nil, Nat.add_sub_cancel, hrung]

/-- A step of the proxy is no step of the kernel. -/
theorem KernelInv.proxy (h : KernelInv cfg r R) (error : Bool) (lastSeq : UInt32) (proxy : Proxy)
    (opsPosted : ℕ) (flagWrites outstanding : ℕ × ℕ → ℕ) (failed : Bool) :
    KernelInv cfg r { R with
      error := error
      lastSeq := lastSeq
      proxy := proxy
      opsPosted := opsPosted
      flagWrites := flagWrites
      outstanding := outstanding
      failed := failed } :=
  ⟨h.op_pos, h.epoch, h.needs, h.staged, h.held, h.sized, h.sized_held, h.doorbell⟩

end Kernel

/-! ## A step of a proxy -/

section Proxy

/-- A schedule posts what it should. -/
theorem Setting.posts (cfg : Setting V) (hr : r < cfg.world) (n : ℕ) :
    PostsExact (cfg.ctx r) (cfg.nbytes n) (cfg.schedule r n) :=
  (scheduled_of_setUp cfg.setUp hr).postsExact (word n).toNat (cfg.nbytes_pos n)
    ((cfg.slots r hr).symm ▸ cfg.nbytes_le n) (cfg.nbytes_mod n)

/-- The active paths are those of the context. -/
theorem Setting.mem_activePaths (cfg : Setting V) (hr : r < cfg.world) :
    (p, k) ∈ activePaths (cfg.ctx r) ↔ cfg.ring.Active r p k := by
  have hs := scheduled_of_setUp cfg.setUp hr
  rw [RingPosts.mem_activePaths, Setting.ctx, hs.world_eq, hs.rank_eq]
  exact ⟨fun h => ⟨hr, h.1, h.2.1, h.2.2⟩, fun h => ⟨h.peer, h.other, h.path⟩⟩

theorem Proxy.Holds.mono {proxy : Proxy} {count rung rung' : ℕ} (h : proxy.Holds cfg r count rung)
    (hle : rung ≤ rung') : proxy.Holds cfg r count rung' := by
  cases proxy with
  | idle => exact le_trans h hle
  | stopped => exact le_trans h hle
  | fetch pending => exact ⟨h.1, h.2.trans hle⟩
  | post pending todo => exact ⟨h.1, h.2.1.trans hle, h.2.2⟩

/-- A step of the kernel is no step of the proxy. -/
theorem ProxyInv.kernel (h : ProxyInv cfg r R) (hlast : R'.lastSeq = R.lastSeq)
    (hproxy : R'.proxy = R.proxy) (hposted : R'.opsPosted = R.opsPosted)
    (hwrites : R'.flagWrites = R.flagWrites) (hrung : R.rung ≤ R'.rung) : ProxyInv cfg r R' where
  lastSeq := by rw [hlast, hposted]; exact h.lastSeq
  holds := by rw [hproxy, hposted]; exact h.holds.mono hrung
  past p k ha := by rw [hproxy, hwrites, hposted]; exact h.past p k ha
  ahead p k ha := by rw [hproxy, hwrites, hposted]; exact h.ahead p k ha

/-- What a step of the proxy leaves alone, and how it counts. -/
structure ProxyStep (cfg : Setting V) (r : ℕ) (R R' : Rank V) : Prop where
  kernel : KernelInv cfg r R'
  proxy : ProxyInv cfg r R'
  op : R'.op = R.op
  done : R'.done = R.done
  got : R'.got = R.got
  result : R'.result = R.result
  failed : R'.failed = R.failed

variable (hinv : RankInv cfg r R)

include hinv

/-- **The doorbell** never skips an operation. -/
theorem RankInv.poll (hahead : R.proxy = .idle → R.rung ≤ R.opsPosted + 2)
    (h : R.poll = some R') :
    ProxyStep cfg r R R' ∧ R'.flagWrites = R.flagWrites ∧ R'.outstanding = R.outstanding := by
  unfold Rank.poll at h
  cases hproxy : R.proxy with
  | idle =>
    rw [hproxy] at h
    dsimp only at h
    have hle := hinv.proxy.posted_le
    have hsub : (R.doorbell - R.lastSeq).toNat = R.rung - R.opsPosted := by
      rw [hinv.kernel.doorbell, hinv.proxy.lastSeq]
      have := hahead hproxy
      exact toNat_word_sub hle (by omega)
    split_ifs at h with heq hskip
    · obtain rfl := Option.some.inj h
      exact ⟨⟨hinv.kernel, hinv.proxy, rfl, rfl, rfl, rfl, rfl⟩, rfl, rfl⟩
    · have := hahead hproxy
      rw [hsub, roceSlots] at hskip
      omega
    · obtain rfl := Option.some.inj h
      have hne : R.rung ≠ R.opsPosted := fun hrung => heq (by
        rw [hinv.kernel.doorbell, hinv.proxy.lastSeq, hrung])
      refine ⟨⟨hinv.kernel.proxy .., ⟨hinv.proxy.lastSeq, ?_, ?_, ?_⟩, rfl, rfl, rfl, rfl, rfl⟩,
        rfl, rfl⟩
      · show 0 < (R.doorbell - R.lastSeq).toNat ∧
          R.opsPosted + (R.doorbell - R.lastSeq).toNat ≤ R.rung
        rw [hsub]
        omega
      · exact fun p k _ hpast => hpast.elim
      · refine fun p k ha _ => hinv.proxy.ahead p k ha ?_
        rw [hproxy]
        exact id
  | _ =>
    rw [hproxy] at h
    exact absurd h.symm (Option.some_ne_none R')

/-- **The size** is the one of the operation, and so is the schedule. -/
theorem RankInv.fetch_eq (hahead : R.op ≤ R.opsPosted + 2) (h : R.fetch (cfg.ctx r) = some R') :
    ∃ count, R.proxy = .fetch count ∧
      R' = { R with proxy := .post count (cfg.schedule r (R.opsPosted + 1)) } := by
  unfold Rank.fetch at h
  cases hproxy : R.proxy with
  | fetch count =>
    rw [hproxy] at h
    obtain rfl := Option.some.inj h
    have hholds := hinv.proxy.holds
    rw [hproxy] at hholds
    obtain ⟨hpos, hle⟩ := hholds
    have hseq : R.lastSeq + 1 = word (R.opsPosted + 1) := by
      rw [hinv.proxy.lastSeq, word_succ]
    have hsize : R.slotNbytes (slotOf (R.lastSeq + 1)) = cfg.nbytes (R.opsPosted + 1) := by
      rw [hseq, slotOf_word]
      exact hinv.kernel.size_eq (Nat.succ_pos _) (by omega) (by omega)
    refine ⟨count, rfl, ?_⟩
    rw [hsize, hseq, Setting.schedule]
  | _ =>
    rw [hproxy] at h
    exact absurd h.symm (Option.some_ne_none R')

theorem RankInv.fetch (hr : r < cfg.world) (hahead : R.op ≤ R.opsPosted + 2)
    (h : R.fetch (cfg.ctx r) = some R') :
    ProxyStep cfg r R R' ∧ R'.flagWrites = R.flagWrites ∧ R'.outstanding = R.outstanding := by
  obtain ⟨count, hproxy, rfl⟩ := hinv.fetch_eq hahead h
  have hholds := hinv.proxy.holds
  rw [hproxy] at hholds
  refine ⟨⟨hinv.kernel.proxy .., ⟨hinv.proxy.lastSeq, ⟨hholds.1, hholds.2, [], rfl⟩,
    fun p k ha hpast => ?_, fun p k ha _ => hinv.proxy.ahead p k ha ?_⟩, rfl, rfl, rfl, rfl, rfl⟩,
    rfl, rfl⟩
  · -- the schedule is still to post every path
    exact absurd ((cfg.posts hr _).once.symm.subset ((cfg.mem_activePaths hr).mpr ha)) hpast
  · rw [hproxy]
    exact id

/-- What is left of a schedule. -/
theorem RankInv.schedule (hr : r < cfg.world) {pending : ℕ} {todo : List Act}
    (hproxy : R.proxy = .post pending todo) : ∃ before,
      PostsExact (cfg.ctx r) (cfg.nbytes (R.opsPosted + 1)) (before ++ todo) ∧
      cfg.schedule r (R.opsPosted + 1) = before ++ todo := by
  have hholds := hinv.proxy.holds
  rw [hproxy] at hholds
  obtain ⟨-, -, before, heq⟩ := hholds
  have hposts := cfg.posts hr (R.opsPosted + 1)
  rw [heq] at hposts
  exact ⟨before, hposts, heq⟩

/-- The schedule goes on past a step that posts nothing. -/
theorem RankInv.skip {pending : ℕ} {a : Act} {todo : List Act}
    (hproxy : R.proxy = .post pending (a :: todo)) (hpath : a.path? = none) :
    ProxyStep cfg r R { R with proxy := .post pending todo } := by
  have hholds := hinv.proxy.holds
  rw [hproxy] at hholds
  obtain ⟨hpos, hle, before, heq⟩ := hholds
  have hposted : posted (a :: todo) = posted todo := List.filterMap_cons_none hpath
  refine ⟨hinv.kernel.proxy .., ⟨hinv.proxy.lastSeq, ?_, ?_, ?_⟩, rfl, rfl, rfl, rfl, rfl⟩
  · exact ⟨hpos, hle, before ++ [a], by rw [heq, List.append_assoc]; rfl⟩
  · refine fun p k ha hpast => hinv.proxy.past p k ha ?_
    rw [hproxy, Proxy.Past, hposted]
    exact hpast
  · refine fun p k ha hpast => hinv.proxy.ahead p k ha ?_
    rw [hproxy, Proxy.Past, hposted]
    exact hpast

/-- **A wait** ends, and nothing in the schedule fails. -/
theorem RankInv.await (hr : r < cfg.world) (h : R.await (cfg.ctx r) = some R') :
    ProxyStep cfg r R R' ∧ R'.flagWrites = R.flagWrites ∧ R'.outstanding = R.outstanding := by
  unfold Rank.await at h
  cases hproxy : R.proxy with
  | post pending todo =>
    rw [hproxy] at h
    cases todo with
    | nil => exact absurd h.symm (Option.some_ne_none R')
    | cons a todo =>
      cases a with
      | post => exact absurd h.symm (Option.some_ne_none R')
      | drainPath peer path =>
        dsimp only at h
        split_ifs at h
        obtain rfl := Option.some.inj h
        exact ⟨hinv.skip hproxy rfl, rfl, rfl⟩
      | drainPeer peer =>
        dsimp only at h
        split_ifs at h
        obtain rfl := Option.some.inj h
        exact ⟨hinv.skip hproxy rfl, rfl, rfl⟩
      | fail =>
        obtain ⟨before, hposts, -⟩ := hinv.schedule hr hproxy
        exact absurd (List.mem_append_right before List.mem_cons_self) hposts.no_fail
  | _ =>
    rw [hproxy] at h
    exact absurd h.symm (Option.some_ne_none R')

/-- **An operation is posted.** -/
theorem RankInv.commit (h : R.commit = some R') :
    ProxyStep cfg r R R' ∧ R'.flagWrites = R.flagWrites ∧ R'.outstanding = R.outstanding := by
  unfold Rank.commit at h
  cases hproxy : R.proxy with
  | post pending todo =>
    rw [hproxy] at h
    cases todo with
    | cons a todo => exact absurd h.symm (Option.some_ne_none R')
    | nil =>
      obtain rfl := Option.some.inj h
      have hholds := hinv.proxy.holds
      rw [hproxy] at hholds
      obtain ⟨hpos, hle, -⟩ := hholds
      have hnext : ∀ e, ¬(nextOp pending).Past e := by
        intro e
        unfold nextOp
        split_ifs <;> exact id
      refine ⟨⟨hinv.kernel.proxy .., ⟨?_, ?_, ?_, ?_⟩, rfl, rfl, rfl, rfl, rfl⟩, rfl, rfl⟩
      · show R.lastSeq + 1 = word (R.opsPosted + 1)
        rw [hinv.proxy.lastSeq, word_succ]
      · show (nextOp pending).Holds cfg r (R.opsPosted + 1) R.rung
        unfold nextOp
        split_ifs with hone
        · show R.opsPosted + 1 ≤ R.rung
          omega
        · show 0 < pending - 1 ∧ R.opsPosted + 1 + (pending - 1) ≤ R.rung
          omega
      · exact fun p k _ hpast => absurd hpast (hnext _)
      · refine fun p k ha _ => hinv.proxy.past p k ha ?_
        rw [hproxy]
        exact List.not_mem_nil
  | _ =>
    rw [hproxy] at h
    exact absurd h.symm (Option.some_ne_none R')

/-- The thread ends or begins between two operations. -/
theorem RankInv.stop (h : R.stop = some R' ∨ R.restart = some R') :
    ProxyStep cfg r R R' ∧ R'.flagWrites = R.flagWrites ∧ R'.outstanding = R.outstanding := by
  have hquiet (proxy : Proxy) (hholds : proxy.Holds cfg r R.opsPosted R.rung)
      (hpast : ∀ e, ¬proxy.Past e) (hpast' : ∀ e, ¬R.proxy.Past e) :
      ProxyStep cfg r R { R with proxy := proxy } :=
    ⟨hinv.kernel.proxy .., ⟨hinv.proxy.lastSeq, hholds, fun p k _ h => absurd h (hpast _),
      fun p k ha _ => hinv.proxy.ahead p k ha (hpast' _)⟩, rfl, rfl, rfl, rfl, rfl⟩
  have hholds := hinv.proxy.holds
  unfold Rank.stop Rank.restart at h
  cases hproxy : R.proxy with
  | idle =>
    rw [hproxy] at h hholds
    obtain h | h := h
    · obtain rfl := Option.some.inj h
      exact ⟨hquiet .stopped hholds (fun _ => id) (by rw [hproxy]; exact fun _ => id), rfl, rfl⟩
    · exact absurd h.symm (Option.some_ne_none R')
  | stopped =>
    rw [hproxy] at h hholds
    obtain h | h := h
    · exact absurd h.symm (Option.some_ne_none R')
    · obtain rfl := Option.some.inj h
      exact ⟨hquiet .idle hholds (fun _ => id) (by rw [hproxy]; exact fun _ => id), rfl, rfl⟩
  | _ =>
    rw [hproxy] at h
    obtain h | h := h <;> exact absurd h.symm (Option.some_ne_none R')

/-- **A write is posted**: the next one of its path. -/
theorem RankInv.post (hr : r < cfg.world) {m : Msg V}
    (h : R.post (cfg.ctx r) = some (R', p, k, m)) :
    ProxyStep cfg r R R' ∧ cfg.ring.Active r p k ∧ R.flagWrites (p, k) = R.opsPosted ∧
      R'.flagWrites = Function.update R.flagWrites (p, k) (R.flagWrites (p, k) + 1) ∧
      R'.outstanding = Function.update R.outstanding ((cfg.ctx r).hca p k, p)
        (R.outstanding ((cfg.ctx r).hca p k, p) + 1) ∧
      m = ⟨R.opsPosted + 1, word (R.opsPosted + 1), cfg.stripe r p k (R.opsPosted + 1), []⟩ := by
  unfold Rank.post at h
  cases hproxy : R.proxy with
  | post pending todo =>
    rw [hproxy] at h
    cases todo with
    | nil => exact absurd h.symm (Option.some_ne_none _)
    | cons a todo =>
      cases a with
      | post peer path offset bytes =>
        dsimp only at h
        split_ifs at h
        obtain ⟨rfl, hpath⟩ := Prod.mk.inj (Option.some.inj h)
        obtain ⟨rfl, hmsg⟩ := Prod.mk.inj hpath
        obtain ⟨rfl, rfl⟩ := Prod.mk.inj hmsg
        obtain ⟨before, hposts, heq⟩ := hinv.schedule hr hproxy
        have hholds := hinv.proxy.holds
        rw [hproxy] at hholds
        obtain ⟨hpos, hle, -⟩ := hholds
        have hposted : posted (before ++ .post peer path offset bytes :: todo) =
            posted before ++ (peer, path) :: posted todo := posted_append
        -- the path is posted once, so it is not to be posted again
        have hnodup : (posted before ++ (peer, path) :: posted todo).Nodup := by
          rw [← hposted]
          exact hposts.once.nodup_iff.mpr nodup_activePaths
        have hnot : (peer, path) ∉ posted todo :=
          (List.nodup_cons.mp (List.nodup_append.mp hnodup).2.1).1
        have hactive : cfg.ring.Active r peer path := by
          rw [← cfg.mem_activePaths hr]
          refine hposts.once.subset ?_
          rw [hposted]
          exact List.mem_append_right _ List.mem_cons_self
        have hahead : ¬R.proxy.Past (peer, path) := by
          rw [hproxy]
          exact fun hpast => hpast List.mem_cons_self
        have hwrites := hinv.proxy.ahead peer path hactive hahead
        obtain ⟨hoffset, hbytes⟩ :=
          hposts.stripe peer path offset bytes (List.mem_append_right _ List.mem_cons_self)
        refine ⟨⟨hinv.kernel.proxy .., ⟨hinv.proxy.lastSeq, ?_, fun q j ha hpast => ?_,
          fun q j ha hpast => ?_⟩, rfl, rfl, rfl, rfl, rfl⟩, hactive, hwrites, rfl, rfl, ?_⟩
        · exact ⟨hpos, hle, before ++ [.post peer path offset bytes], by
            rw [heq, List.append_assoc]; rfl⟩
        · show Function.update R.flagWrites (peer, path) (R.flagWrites (peer, path) + 1) (q, j) =
            R.opsPosted + 1
          by_cases hqj : (q, j) = (peer, path)
          · rw [hqj, Function.update_self, hwrites]
          · rw [Function.update_of_ne hqj]
            refine hinv.proxy.past q j ha ?_
            rw [hproxy]
            exact fun hmem => (List.mem_cons.mp hmem).elim hqj hpast
        · show Function.update R.flagWrites (peer, path) (R.flagWrites (peer, path) + 1) (q, j) =
            R.opsPosted
          have hmem : (q, j) ∈ posted todo := not_not.mp hpast
          have hqj : (q, j) ≠ (peer, path) := fun heq => hnot (heq ▸ hmem)
          rw [Function.update_of_ne hqj]
          refine hinv.proxy.ahead q j ha ?_
          rw [hproxy]
          exact fun hpast => hpast (List.mem_cons_of_mem _ hmem)
        · rw [hinv.proxy.lastSeq, ← word_succ, hoffset, hbytes, Setting.stripe, Striping.stripe,
            Nat.zero_add, stripePacks, Nat.mul_div_cancel _ (Nat.succ_pos 15),
            Nat.mul_div_cancel _ (Nat.succ_pos 15)]
          rfl
      | _ => exact absurd h.symm (Option.some_ne_none _)
  | _ =>
    rw [hproxy] at h
    exact absurd h.symm (Option.some_ne_none _)

end Proxy

end RingTransport
