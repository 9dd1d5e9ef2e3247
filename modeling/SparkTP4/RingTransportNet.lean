import Mathlib.Data.List.Range
import SparkTP4.RingTransportSteps

/-!
# The ring transport: the queues

What the steps of a rank and of the network make of the flags, the slots and the queues. A landed
write stays landed; a pack that lands is the one of the operation its receiver waits for, also
where a write of the same slot has been posted on another path.
-/

namespace RingTransport

open RingPaths RingPosts

variable {V : Type} {cfg : Setting V} {S S' : State V} {R R' : Rank V} {r p q k n i : ℕ}
  {m : Msg V}

/-! ## A step of a rank -/

section Rank

theorem setRank_self : (S.setRank r R).rank r = R := by
  show Function.update S.rank r R r = R
  rw [Function.update_self]

theorem setRank_of_ne (h : p ≠ r) : (S.setRank r R).rank p = S.rank p := by
  show Function.update S.rank r R p = S.rank p
  rw [Function.update_of_ne h]

/-- What a rank has posted, when a step posts nothing. -/
theorem flagWrites_setRank (h : R.flagWrites = (S.rank r).flagWrites) :
    ((S.setRank r R).rank p).flagWrites = (S.rank p).flagWrites := by
  by_cases hp : p = r
  · rw [hp, setRank_self, h]
  · rw [setRank_of_ne hp]

theorem landed_setRank (h : R.flagWrites = (S.rank r).flagWrites) :
    (S.setRank r R).landed p q k = S.landed p q k := by
  unfold State.landed
  rw [flagWrites_setRank h]
  rfl

/-- **A step of a rank that posts nothing.** -/
theorem NetInv.setRank (h : NetInv cfg S) (hwrites : R.flagWrites = (S.rank r).flagWrites)
    (hop : (S.rank r).op ≤ R.op)
    (hout : ∀ q k, cfg.ring.Active r q k →
      (S.queue (r, q, k)).length ≤ R.outstanding ((cfg.ctx r).hca q k, q))
    (hseen : ∀ p k, cfg.ring.Active p r k → ∀ b t, Task.see b t p k ∈ R.done →
      R.op ≤ S.landed p r k)
    (hfin : ∀ p k, cfg.ring.Active p r k → R.op ≤ S.landed p r k + 1)
    (hgot : ∀ p i, Task.read p i ∈ R.done → R.got (p, i) = cfg.input p R.op i)
    (hresult : ∀ n, 0 < n → n < R.op → ∀ p < cfg.world, p ≠ r → ∀ i < cfg.packs n,
      R.result n (p, i) = cfg.input p n i) : NetInv cfg (S.setRank r R) where
  path p q k ha := by
    have hpath := h.path p q k ha
    exact
      { numbered := by
          rw [landed_setRank hwrites]
          exact hpath.numbered
        length_le := by
          rw [flagWrites_setRank hwrites]
          exact hpath.length_le
        seq := hpath.seq
        todo := hpath.todo
        taken := hpath.taken
        flagged := fun slot hslot => by
          rw [landed_setRank hwrites]
          exact hpath.flagged slot hslot
        outstanding := by
          by_cases hp : p = r
          · subst hp
            rw [setRank_self]
            exact hout q k ha
          · rw [setRank_of_ne hp]
            exact hpath.outstanding
        seen := fun b t => by
          rw [landed_setRank hwrites]
          by_cases hq : q = r
          · subst hq
            rw [setRank_self]
            exact hseen p k ha b t
          · rw [setRank_of_ne hq]
            exact hpath.seen b t
        finished := by
          rw [landed_setRank hwrites]
          by_cases hq : q = r
          · subst hq
            rw [setRank_self]
            exact hfin p k ha
          · rw [setRank_of_ne hq]
            exact hpath.finished
        received := fun n hle => by
          rw [flagWrites_setRank hwrites]
          refine hpath.received n ?_
          by_cases hq : q = r
          · subst hq
            rw [setRank_self] at hle
            exact hop.trans hle
          · rwa [setRank_of_ne hq] at hle }
  quiet := h.quiet
  got q hq := by
    by_cases hqr : q = r
    · subst hqr
      rw [setRank_self]
      exact hgot
    · rw [setRank_of_ne hqr]
      exact h.got q hq
  result q hq := by
    by_cases hqr : q = r
    · subst hqr
      rw [setRank_self]
      exact hresult
    · rw [setRank_of_ne hqr]
      exact h.result q hq

/-- A step of a rank, with what it changes of the network. -/
theorem Inv.setRank (hinv : Inv cfg S) (hrank : RankInv cfg r R)
    (hnet : NetInv cfg (S.setRank r R)) : Inv cfg (S.setRank r R) where
  rank p hp := by
    by_cases hpr : p = r
    · subst hpr
      rw [setRank_self]
      exact hrank
    · rw [setRank_of_ne hpr]
      exact hinv.rank p hp
  net := hnet

/-- **A step of a proxy that posts nothing.** -/
theorem Inv.proxyStep (hinv : Inv cfg S) (hr : r < cfg.world)
    (h : ProxyStep cfg r (S.rank r) R) (hwrites : R.flagWrites = (S.rank r).flagWrites)
    (hout : ∀ q k, cfg.ring.Active r q k →
      (S.queue (r, q, k)).length ≤ R.outstanding ((cfg.ctx r).hca q k, q)) :
    Inv cfg (S.setRank r R) := by
  refine hinv.setRank ⟨h.kernel, h.proxy⟩ (hinv.net.setRank hwrites h.op.ge hout ?_ ?_ ?_ ?_)
  · rw [h.op, h.done]
    exact fun p k ha => (hinv.net.path p r k ha).seen
  · rw [h.op]
    exact fun p k ha => (hinv.net.path p r k ha).finished
  · rw [h.op, h.done, h.got]
    exact hinv.net.got r hr
  · rw [h.op, h.result]
    exact hinv.net.result r hr

/-- A block that has seen its flags has those of every path. -/
theorem landed_of_seenAll (hinv : Inv cfg S) (ha : cfg.ring.Active p q k) {b : ℕ}
    (h : SeenAll cfg q b (S.rank q).done) : (S.rank q).op ≤ S.landed p q k := by
  have hwaited : Waited (cfg.ctx q) cfg.threads cfg.threads_pos (p, k) :=
    (waited_iff cfg.setUp ha.peer cfg.threads_ge cfg.world_le).mpr ha
  obtain ⟨t, ht, hmem⟩ := hwaited
  exact (hinv.net.path p q k ha).seen b t (h t ht _ hmem)

/-- **A pack whose flags have been seen is there.** -/
theorem recv_eq (hinv : Inv cfg S) (hp : p < cfg.world) (hq : q < cfg.world) (hne : p ≠ q)
    {b : ℕ} (h : SeenAll cfg q b (S.rank q).done) (hi : i < cfg.packs (S.rank q).op) :
    S.recv (q, p, (S.rank q).op % 2, i) = cfg.input p (S.rank q).op i := by
  have hs := scheduled_of_setUp cfg.setUp hp
  have hcount : 0 < (cfg.ctx p).pathCount q :=
    hs.pathCount_pos (by rw [hs.world_eq]; exact hq) (by rw [hs.rank_eq]; exact hne.symm)
  obtain ⟨k, hk, hstripe⟩ := Striping.exists_mem_stripe hcount (Nat.zero_le i)
    (show i < 0 + cfg.packs (S.rank q).op by rwa [Nat.zero_add])
  have ha : cfg.ring.Active p q k := ⟨hp, hq, hne.symm, hk⟩
  have hlanded := landed_of_seenAll hinv ha h
  refine (hinv.net.path p q k ha).received _ le_rfl (hlanded.trans (hinv.landed_le ha).1) i hstripe ?_
  intro m hm hop
  have hlt := (hinv.op_of_mem ha hm).1
  omega

/-- **A task of a kernel.** -/
theorem Inv.exec (hinv : Inv cfg S) (hr : r < cfg.world) {t : Task}
    (hneeds : Needs cfg r (S.rank r).op (S.rank r).done t) (hguard : Guard r S t) :
    Inv cfg (S.setRank r ((S.rank r).exec cfg r S.recv t)) := by
  have hrank := hinv.rank r hr
  refine hinv.setRank ⟨hrank.kernel.exec hneeds, hrank.proxy.kernel exec_lastSeq exec_proxy
    exec_opsPosted exec_flagWrites le_exec_rung⟩ (hinv.net.setRank exec_flagWrites exec_op.ge
      (fun q k ha => ?_) (fun p k ha b u hmem => ?_) (fun p k ha => ?_) (fun p i hmem => ?_) ?_)
  · rw [exec_outstanding]
    exact (hinv.net.path r q k ha).outstanding
  · rw [exec_done] at hmem
    rw [exec_op]
    obtain heq | hmem := List.mem_cons.mp hmem
    · rw [← heq] at hguard
      exact hinv.landed_of_flag ha hguard
    · exact (hinv.net.path p r k ha).seen b u hmem
  · rw [exec_op]
    exact (hinv.net.path p r k ha).finished
  · rw [exec_done] at hmem
    rw [exec_op]
    have hold (hmem : Task.read p i ∈ (S.rank r).done) := hinv.net.got r hr p i hmem
    cases t with
    | read peer j =>
      show Function.update (S.rank r).got (peer, j)
        (S.recv (r, peer, slotOf (S.rank r).seq, j)) (p, i) = _
      by_cases hpi : (p, i) = (peer, j)
      · obtain ⟨rfl, rfl⟩ := Prod.mk.inj hpi
        obtain ⟨hp, hne, hi, hseen⟩ := hneeds
        rw [Function.update_self, hrank.kernel.seq_eq, slotOf_word]
        exact recv_eq hinv hp hr hne hseen hi
      · rw [Function.update_of_ne hpi]
        refine hold ((List.mem_cons.mp hmem).resolve_left fun heq => hpi ?_)
        obtain ⟨rfl, rfl⟩ := Task.read.inj heq
        rfl
    | _ => exact hold ((List.mem_cons.mp hmem).resolve_left Task.noConfusion)
  · rw [exec_op, exec_result]
    exact hinv.net.result r hr

/-- **The end of a kernel.** -/
theorem Inv.finish (hinv : Inv cfg S) (hr : r < cfg.world)
    (h : (S.rank r).finish cfg r = some R) : Inv cfg (S.setRank r R) := by
  have hrank := hinv.rank r hr
  obtain ⟨hkernel, hrung⟩ := hrank.kernel.finish h
  unfold Rank.finish at h
  split_ifs at h with hdone
  obtain rfl := Option.some.inj h
  obtain ⟨-, -, hseen, hread⟩ := hdone
  refine hinv.setRank ⟨hkernel, hrank.proxy.kernel rfl rfl rfl rfl hrung.ge⟩
    (hinv.net.setRank rfl (Nat.le_succ _) (fun q k ha => (hinv.net.path r q k ha).outstanding)
      (fun p k _ b t hmem => absurd hmem List.not_mem_nil) (fun p k ha => ?_)
      (fun p i hmem => absurd hmem List.not_mem_nil) fun n hpos hlt p hp hne i hi => ?_)
  · exact Nat.succ_le_succ (landed_of_seenAll hinv ha (hseen 0 (cfg.grid_pos r _)))
  · show Function.update (S.rank r).result (S.rank r).op (S.rank r).got n (p, i) = _
    obtain hlt | rfl := Nat.lt_succ_iff_lt_or_eq.mp hlt
    · rw [Function.update_of_ne hlt.ne]
      exact hinv.net.result r hr n hpos hlt p hp hne i hi
    · rw [Function.update_self]
      exact hinv.net.got r hr p i (hread p hp hne i hi)

end Rank

/-! ## The paths that a step does not touch -/

/-- **A path keeps its invariant** when its queue, its flags and its slots stay. -/
theorem PathInv.congr (h : PathInv cfg S p q k)
    (hwrites : (S'.rank p).flagWrites (q, k) = (S.rank p).flagWrites (q, k))
    (hqueue : S'.queue (p, q, k) = S.queue (p, q, k))
    (hflag : ∀ slot < 2,
      S'.flag (q, flagAddress p q k slot) = S.flag (q, flagAddress p q k slot))
    (hout : (S.rank p).outstanding ((cfg.ctx p).hca q k, q) ≤
      (S'.rank p).outstanding ((cfg.ctx p).hca q k, q))
    (hop : (S'.rank q).op = (S.rank q).op) (hdone : (S'.rank q).done = (S.rank q).done)
    (hrecv : ∀ n, (S.rank q).op ≤ n → n ≤ (S.rank p).flagWrites (q, k) →
      ∀ i ∈ cfg.stripe p q k n, S.Arrived p q k n i →
      S'.recv (q, p, n % 2, i) = S.recv (q, p, n % 2, i)) : PathInv cfg S' p q k := by
  have hlanded : S'.landed p q k = S.landed p q k := by
    unfold State.landed
    rw [hwrites, hqueue]
  refine
    { numbered := ?_
      length_le := ?_
      seq := ?_
      todo := ?_
      taken := ?_
      flagged := fun slot hslot => ?_
      outstanding := ?_
      seen := ?_
      finished := ?_
      received := fun n hle hn i hi harrived => ?_ }
  · rw [hqueue, hlanded]
    exact h.numbered
  · rw [hqueue, hwrites]
    exact h.length_le
  · rw [hqueue]
    exact h.seq
  · rw [hqueue]
    exact h.todo
  · rw [hqueue]
    exact h.taken
  · rw [hflag slot hslot, hlanded]
    exact h.flagged slot hslot
  · rw [hqueue]
    exact h.outstanding.trans hout
  · rw [hdone, hop, hlanded]
    exact h.seen
  · rw [hop, hlanded]
    exact h.finished
  · rw [hop] at hle
    rw [hwrites] at hn
    have harrived' : S.Arrived p q k n i := by
      unfold State.Arrived at harrived ⊢
      rwa [hqueue] at harrived
    rw [hrecv n hle hn i hi harrived']
    exact h.received n hle hn i hi harrived'

/-- **A step of the network** changes no rank. -/
theorem Inv.network (hinv : Inv cfg S) (hrank : S'.rank = S.rank)
    (hpath : ∀ p q k, cfg.ring.Active p q k → PathInv cfg S' p q k)
    (hquiet : ∀ p q k, ¬cfg.ring.Active p q k → S'.queue (p, q, k) = []) : Inv cfg S' where
  rank r hr := by
    rw [hrank]
    exact hinv.rank r hr
  net :=
    { path := hpath
      quiet := hquiet
      got := by
        rw [hrank]
        exact hinv.net.got
      result := by
        rw [hrank]
        exact hinv.net.result }

/-! ## A post -/

section Post

/-- The path of a post, after it. -/
theorem PathInv.post (h : PathInv cfg S r p k) (hnum : m.op = (S.rank r).flagWrites (p, k) + 1)
    (hseq : m.seq = word m.op) (htodo : m.todo = cfg.stripe r p k m.op) (htaken : m.taken = [])
    (hqueue : S'.queue (r, p, k) = S.queue (r, p, k) ++ [m])
    (hwrites : (S'.rank r).flagWrites (p, k) = (S.rank r).flagWrites (p, k) + 1)
    (hflag : S'.flag = S.flag) (hrecv : S'.recv = S.recv)
    (hout : (S'.rank r).outstanding ((cfg.ctx r).hca p k, p) =
      (S.rank r).outstanding ((cfg.ctx r).hca p k, p) + 1)
    (hop : (S'.rank p).op = (S.rank p).op) (hdone : (S'.rank p).done = (S.rank p).done) :
    PathInv cfg S' r p k := by
  have hle := h.length_le
  have hlen : (S'.queue (r, p, k)).length = (S.queue (r, p, k)).length + 1 := by
    rw [hqueue, List.length_append, List.length_singleton]
  have hlanded : S'.landed r p k = S.landed r p k := by
    unfold State.landed
    omega
  have hmem {m' : Msg V} (hm' : m' ∈ S'.queue (r, p, k)) : m' ∈ S.queue (r, p, k) ∨ m' = m := by
    rw [hqueue] at hm'
    exact (List.mem_append.mp hm').imp_right List.mem_singleton.mp
  refine
    { numbered := ?_
      length_le := by omega
      seq := fun m' hm' => ?_
      todo := fun m' hm' i hi => ?_
      taken := fun m' hm' e he => ?_
      flagged := fun slot hslot => ?_
      outstanding := ?_
      seen := ?_
      finished := ?_
      received := fun n hle hn i hi harrived => ?_ }
  · have hop : m.op = S.landed r p k + 1 + 1 * (S.queue (r, p, k)).length := by
      unfold State.landed
      omega
    rw [hlen, hlanded, hqueue, List.map_append, h.numbered, List.range'_concat, List.map_singleton,
      hop]
  · obtain hm' | rfl := hmem hm'
    · exact h.seq m' hm'
    · exact hseq
  · obtain hm' | rfl := hmem hm'
    · exact h.todo m' hm' i hi
    · exact htodo ▸ hi
  · obtain hm' | rfl := hmem hm'
    · exact h.taken m' hm' e he
    · rw [htaken] at he
      exact absurd he List.not_mem_nil
  · rw [hflag, hlanded]
    exact h.flagged slot hslot
  · rw [hlen, hout]
    exact Nat.succ_le_succ h.outstanding
  · rw [hdone, hop, hlanded]
    exact h.seen
  · rw [hop, hlanded]
    exact h.finished
  · rw [hop] at hle
    rw [hwrites] at hn
    rw [hrecv]
    obtain hn | rfl := Nat.le_or_eq_of_le_succ hn
    · refine h.received n hle hn i hi fun m' hm' => harrived m' ?_
      rw [hqueue]
      exact List.mem_append_left _ hm'
    · -- the packs of the new write have not arrived
      have hnew : m ∈ S'.queue (r, p, k) := by
        rw [hqueue]
        exact List.mem_append_right _ (List.mem_singleton.mpr rfl)
      refine absurd ?_ (harrived m hnew hnum).1
      rw [htodo, hnum]
      exact hi

/-- **A write is appended to its queue.** -/
theorem Inv.post (hinv : Inv cfg S) (hr : r < cfg.world) (h : S.post cfg r = some S') :
    Inv cfg S' := by
  unfold State.post at h
  split_ifs at h
  obtain ⟨⟨R, p, k, m⟩, hpost, rfl⟩ := Option.map_eq_some_iff.mp h
  obtain ⟨hstep, ha, hold, hwrites, hout, rfl⟩ := (hinv.rank r hr).post hr hpost
  have hrank (q : ℕ) : ((S.setRank r R).rank q).op = (S.rank q).op ∧
      ((S.setRank r R).rank q).done = (S.rank q).done := by
    by_cases hq : q = r
    · rw [hq, setRank_self]
      exact ⟨hstep.op, hstep.done⟩
    · rw [setRank_of_ne hq]
      exact ⟨rfl, rfl⟩
  refine
    { rank := fun q hq => ?_
      net := ⟨fun p' q' k' ha' => ?_, fun p' q' k' hna => ?_, fun q hq => ?_, fun q hq => ?_⟩ }
  · show RankInv cfg q ((S.setRank r R).rank q)
    by_cases hqr : q = r
    · subst hqr
      rw [setRank_self]
      exact ⟨hstep.kernel, hstep.proxy⟩
    · rw [setRank_of_ne hqr]
      exact hinv.rank q hq
  · by_cases hpath : (p', q', k') = (r, p, k)
    · obtain ⟨rfl, hqk⟩ := Prod.mk.inj hpath
      obtain ⟨rfl, rfl⟩ := Prod.mk.inj hqk
      have hself : (S.setRank p' R).rank p' = R := setRank_self
      refine (hinv.net.path p' q' k' ha').post ?_ rfl rfl rfl (Function.update_self _ _ _) ?_ rfl
        rfl ?_ (hrank q').1 (hrank q').2
      · rw [hold]
      · show ((S.setRank p' R).rank p').flagWrites (q', k') = _
        rw [hself, hwrites, Function.update_self]
      · show ((S.setRank p' R).rank p').outstanding ((cfg.ctx p').hca q' k', q') = _
        rw [hself, hout, Function.update_self]
    · refine (hinv.net.path p' q' k' ha').congr ?_ (Function.update_of_ne hpath _ _)
        (fun _ _ => rfl) ?_ (hrank q').1 (hrank q').2 fun _ _ _ _ _ _ => rfl
      · show ((S.setRank r R).rank p').flagWrites (q', k') = _
        by_cases hp : p' = r
        · subst hp
          have hne : (q', k') ≠ (p, k) := fun heq => hpath (congrArg (Prod.mk p') heq)
          rw [setRank_self, hwrites, Function.update_of_ne hne]
        · rw [setRank_of_ne hp]
      · show _ ≤ ((S.setRank r R).rank p').outstanding ((cfg.ctx p').hca q' k', q')
        by_cases hp : p' = r
        · subst hp
          rw [setRank_self, hout, Function.update_apply]
          split_ifs with heq
          · rw [heq]
            exact Nat.le_succ _
          · exact le_rfl
        · rw [setRank_of_ne hp]
  · have hpath : (p', q', k') ≠ (r, p, k) := fun heq => hna (by
      obtain ⟨rfl, hqk⟩ := Prod.mk.inj heq
      obtain ⟨rfl, rfl⟩ := Prod.mk.inj hqk
      exact ha)
    exact (Function.update_of_ne hpath _ _).trans (hinv.net.quiet p' q' k' hna)
  · show ∀ p i, Task.read p i ∈ ((S.setRank r R).rank q).done →
      ((S.setRank r R).rank q).got (p, i) = cfg.input p ((S.setRank r R).rank q).op i
    by_cases hqr : q = r
    · subst hqr
      rw [setRank_self, hstep.done, hstep.got, hstep.op]
      exact hinv.net.got q hq
    · rw [setRank_of_ne hqr]
      exact hinv.net.got q hq
  · show ∀ n, 0 < n → n < ((S.setRank r R).rank q).op → ∀ p < cfg.world, p ≠ q →
      ∀ i < cfg.packs n, ((S.setRank r R).rank q).result n (p, i) = cfg.input p n i
    by_cases hqr : q = r
    · subst hqr
      rw [setRank_self, hstep.result, hstep.op]
      exact hinv.net.result q hq
    · rw [setRank_of_ne hqr]
      exact hinv.net.result q hq

end Post

/-! ## The steps of the network -/

section Network

/-- A queue with a write is the one of a path. -/
theorem Inv.active_of_mem (hinv : Inv cfg S) (hm : m ∈ S.queue (p, q, k)) :
    cfg.ring.Active p q k := by
  by_contra hna
  rw [hinv.net.quiet p q k hna] at hm
  exact List.not_mem_nil hm

/-- The other queues are as they were. -/
theorem Inv.quiet_update (hinv : Inv cfg S) (ha : cfg.ring.Active p q k) {L : List (Msg V)}
    {p' q' k' : ℕ} (hna : ¬cfg.ring.Active p' q' k') :
    Function.update S.queue (p, q, k) L (p', q', k') = [] := by
  rw [Function.update_of_ne]
  · exact hinv.net.quiet p' q' k' hna
  · intro heq
    obtain ⟨rfl, hqk⟩ := Prod.mk.inj heq
    obtain ⟨rfl, rfl⟩ := Prod.mk.inj hqk
    exact hna ha

/-- **A write under way finds its packs in the send slot.** -/
theorem Inv.send_eq (hinv : Inv cfg S) (ha : cfg.ring.Active p q k) (hm : m ∈ S.queue (p, q, k))
    (hi : i ∈ cfg.stripe p q k m.op) :
    (S.rank p).send (slotOf m.seq, i) = cfg.input p m.op i := by
  obtain ⟨hle, hrung, hop, -⟩ := hinv.underway ha hm
  have hpos := (hinv.rank q ha.peer).kernel.op_pos
  have hbound := (Striping.bounds_of_mem_stripe ha.path hi).2
  rw [(hinv.net.path p q k ha).seq m hm, slotOf_word]
  exact (hinv.rank p ha.rank).kernel.send_eq (by omega) hrung hop (by omega)

theorem map_set_of_eq {α β : Type} {L : List α} {j : ℕ} {a b : α} (f : α → β)
    (ha : L[j]? = some a) (hf : f b = f a) : (L.set j b).map f = L.map f := by
  refine List.ext_getElem? fun t => ?_
  rw [List.getElem?_map, List.getElem?_map, List.getElem?_set]
  split_ifs with hjt hlt
  · rw [← hjt, ha]
    exact congrArg some hf
  · exact absurd (List.getElem?_eq_some_iff.mp ha).1 hlt
  · rfl

/-- A queue in which one write has been replaced by one of the same operation. -/
theorem PathInv.replace (h : PathInv cfg S p q k) {L : List (Msg V)}
    (hqueue : S'.queue (p, q, k) = L) (hmap : L.map Msg.op = (S.queue (p, q, k)).map Msg.op)
    (hrank : S'.rank = S.rank) (hflag : S'.flag = S.flag)
    (hseq : ∀ m ∈ L, m.seq = word m.op)
    (htodo : ∀ m ∈ L, ∀ i ∈ m.todo, i ∈ cfg.stripe p q k m.op)
    (htaken : ∀ m ∈ L, ∀ e ∈ m.taken, e.1 ∈ cfg.stripe p q k m.op ∧ e.2 = cfg.input p m.op e.1)
    (hreceived : ∀ n, (S.rank q).op ≤ n → n ≤ (S.rank p).flagWrites (q, k) →
      ∀ i ∈ cfg.stripe p q k n, S'.Arrived p q k n i →
        S'.recv (q, p, n % 2, i) = cfg.input p n i) : PathInv cfg S' p q k := by
  have hlen : L.length = (S.queue (p, q, k)).length := by
    rw [← List.length_map (f := Msg.op), hmap, List.length_map]
  have hlanded : S'.landed p q k = S.landed p q k := by
    unfold State.landed
    rw [hrank, hqueue, hlen]
  refine
    { numbered := ?_
      length_le := ?_
      seq := hqueue ▸ hseq
      todo := hqueue ▸ htodo
      taken := hqueue ▸ htaken
      flagged := ?_
      outstanding := ?_
      seen := ?_
      finished := ?_
      received := ?_ }
  · rw [hqueue, hlanded, hmap, hlen]
    exact h.numbered
  · rw [hqueue, hlen, hrank]
    exact h.length_le
  · rw [hflag, hlanded]
    exact h.flagged
  · rw [hqueue, hlen, hrank]
    exact h.outstanding
  · rw [hrank, hlanded]
    exact h.seen
  · rw [hrank, hlanded]
    exact h.finished
  · rw [hrank]
    exact hreceived

/-- **A pack is read from the send slot.** -/
theorem Inv.take (hinv : Inv cfg S) {j : ℕ} (h : S.take p q k j i = some S') : Inv cfg S' := by
  unfold State.take at h
  cases hget : (S.queue (p, q, k))[j]? with
  | none =>
    rw [hget] at h
    exact absurd h.symm (Option.some_ne_none S')
  | some m =>
    rw [hget] at h
    dsimp only at h
    split_ifs at h with hi
    obtain rfl := Option.some.inj h
    have hm : m ∈ S.queue (p, q, k) := List.mem_of_getElem? hget
    have ha := hinv.active_of_mem hm
    have hpath := hinv.net.path p q k ha
    have hsend := hinv.send_eq ha hm (hpath.todo m hm i hi)
    refine hinv.network rfl (fun p' q' k' ha' => ?_) fun p' q' k' hna => hinv.quiet_update ha hna
    by_cases heq : (p', q', k') = (p, q, k)
    swap
    · exact (hinv.net.path p' q' k' ha').congr rfl (Function.update_of_ne heq _ _)
        (fun _ _ => rfl) le_rfl rfl rfl fun _ _ _ _ _ _ => rfl
    obtain ⟨rfl, hqk⟩ := Prod.mk.inj heq
    obtain ⟨rfl, rfl⟩ := Prod.mk.inj hqk
    have hset {m' : Msg V} (hm' : m' ∈ (S.queue (p', q', k')).set j (m.take (S.rank p').send i)) :
        m' ∈ S.queue (p', q', k') ∨ m' = m.take (S.rank p').send i := List.mem_or_eq_of_mem_set hm'
    refine hpath.replace (Function.update_self _ _ _) (map_set_of_eq Msg.op hget rfl) rfl rfl
      (fun m' hm' => ?_) (fun m' hm' i' hi' => ?_) (fun m' hm' e he => ?_)
      fun n hle hn i' hi' harrived => ?_
    · obtain hm' | rfl := hset hm'
      · exact hpath.seq m' hm'
      · exact hpath.seq m hm
    · obtain hm' | rfl := hset hm'
      · exact hpath.todo m' hm' i' hi'
      · exact hpath.todo m hm i' (List.mem_of_mem_filter hi')
    · obtain hm' | rfl := hset hm'
      · exact hpath.taken m' hm' e he
      · obtain rfl | he := List.mem_cons.mp he
        · exact ⟨hpath.todo m hm i hi, hsend⟩
        · exact hpath.taken m hm e he
    · refine hpath.received n hle hn i' hi' fun m' hm' hop => ?_
      -- what is still to be read or to land was so before
      have harrived' (m' : Msg V)
          (hm' : m' ∈ (S.queue (p', q', k')).set j (m.take (S.rank p').send i)) (hop : m'.op = n) :
          i' ∉ m'.todo ∧ ∀ e ∈ m'.taken, e.1 ≠ i' := by
        refine harrived m' ?_ hop
        show m' ∈ Function.update S.queue (p', q', k') _ (p', q', k')
        rw [Function.update_self]
        exact hm'
      obtain ⟨t, ht⟩ := List.getElem?_of_mem hm'
      by_cases htj : t = j
      · obtain rfl : m = m' := Option.some.inj (hget.symm.trans (htj ▸ ht))
        have hnew : m.take (S.rank p').send i ∈
            (S.queue (p', q', k')).set j (m.take (S.rank p').send i) :=
          List.mem_set (List.getElem?_eq_some_iff.mp hget).1 _
        obtain ⟨htodo, htaken⟩ := harrived' _ hnew hop
        refine ⟨fun hmem => ?_, fun e he => htaken e (List.mem_cons_of_mem _ he)⟩
        by_cases hii : i' = i
        · exact htaken _ List.mem_cons_self hii.symm
        · exact htodo (List.mem_filter.mpr ⟨hmem, decide_eq_true hii⟩)
      · have hold : m' ∈ (S.queue (p', q', k')).set j (m.take (S.rank p').send i) := by
          refine List.mem_of_getElem? (i := t) ?_
          rw [List.getElem?_set_ne fun h => htj h.symm]
          exact ht
        exact harrived' m' hold hop

/-- Two operations of one slot that a receiver may still want are the same. -/
theorem Inv.same_op (hinv : Inv cfg S) (ha : cfg.ring.Active p q k) (hm : m ∈ S.queue (p, q, k))
    {k' : ℕ} (ha' : cfg.ring.Active p q k') (hle : (S.rank q).op ≤ n)
    (hn : n ≤ (S.rank p).flagWrites (q, k')) (hparity : n % 2 = m.op % 2) : n = m.op := by
  obtain ⟨hlow, -, -, hhigh⟩ := hinv.underway ha hm
  have hwrites := hinv.writes_le ha'
  have hop := hinv.op_le ha.peer ha.rank
  have hrung := (S.rank p).rung_le
  have hrung' := (S.rank q).rung_le
  omega

/-- **A pack lands** in the slot of its operation. -/
theorem Inv.land (hinv : Inv cfg S) (h : S.land p q k i = some S') : Inv cfg S' := by
  unfold State.land at h
  cases hqueue : S.queue (p, q, k) with
  | nil =>
    rw [hqueue] at h
    exact absurd h.symm (Option.some_ne_none S')
  | cons m rest =>
    rw [hqueue] at h
    dsimp only at h
    cases hfind : m.taken.find? fun e => e.1 = i with
    | none =>
      rw [hfind] at h
      exact absurd h.symm (Option.some_ne_none S')
    | some e =>
      rw [hfind] at h
      obtain rfl := Option.some.inj h
      have hm : m ∈ S.queue (p, q, k) := hqueue ▸ List.mem_cons_self
      have hei : e.1 = i := by simpa using List.find?_some hfind
      have ha := hinv.active_of_mem hm
      have hpath := hinv.net.path p q k ha
      have hvalue := (hpath.taken m hm e (List.mem_of_find?_eq_some hfind)).2
      rw [hei] at hvalue
      have hslot : slotOf m.seq = m.op % 2 := by rw [hpath.seq m hm, slotOf_word]
      -- what lands is what every path of the pair would bring there
      have hrecv {p' q' k' n i' : ℕ} (ha' : cfg.ring.Active p' q' k')
          (hle : (S.rank q').op ≤ n) (hn : n ≤ (S.rank p').flagWrites (q', k'))
          (hold : (q', p', n % 2, i') ≠ (q, p, slotOf m.seq, i) →
            S.recv (q', p', n % 2, i') = cfg.input p' n i') :
          Function.update S.recv (q, p, slotOf m.seq, i) e.2 (q', p', n % 2, i') =
            cfg.input p' n i' := by
        by_cases heq : (q', p', n % 2, i') = (q, p, slotOf m.seq, i)
        · rw [heq, Function.update_self, hvalue]
          obtain ⟨rfl, hpair⟩ := Prod.mk.inj heq
          obtain ⟨rfl, hcell⟩ := Prod.mk.inj hpair
          obtain ⟨hparity, rfl⟩ := Prod.mk.inj hcell
          rw [hinv.same_op ha hm ha' hle hn (hparity.trans hslot)]
        · rw [Function.update_of_ne heq]
          exact hold heq
      refine hinv.network rfl (fun p' q' k' ha' => ?_) fun p' q' k' hna => hinv.quiet_update ha hna
      by_cases heq : (p', q', k') = (p, q, k)
      swap
      · refine (hinv.net.path p' q' k' ha').congr rfl (Function.update_of_ne heq _ _)
          (fun _ _ => rfl) le_rfl rfl rfl fun n hle hn i' hi' harrived => ?_
        have hcontent := (hinv.net.path p' q' k' ha').received n hle hn i' hi' harrived
        exact (hrecv ha' hle hn fun _ => hcontent).trans hcontent.symm
      obtain ⟨rfl, hqk⟩ := Prod.mk.inj heq
      obtain ⟨rfl, rfl⟩ := Prod.mk.inj hqk
      have hland {m' : Msg V} (hm' : m' ∈ m.land i :: rest) :
          m' ∈ S.queue (p', q', k') ∨ m' = m.land i := by
        rw [hqueue]
        exact (List.mem_cons.mp hm').symm.imp_left (List.mem_cons_of_mem m)
      refine hpath.replace (Function.update_self _ _ _) (by rw [hqueue]; rfl) rfl rfl
        (fun m' hm' => ?_) (fun m' hm' i' hi' => ?_) (fun m' hm' e' he' => ?_)
        fun n hle hn i' hi' harrived => ?_
      · obtain hm' | rfl := hland hm'
        · exact hpath.seq m' hm'
        · exact hpath.seq m hm
      · obtain hm' | rfl := hland hm'
        · exact hpath.todo m' hm' i' hi'
        · exact hpath.todo m hm i' hi'
      · obtain hm' | rfl := hland hm'
        · exact hpath.taken m' hm' e' he'
        · exact hpath.taken m hm e' (List.mem_of_mem_filter he')
      · have harrived' (m' : Msg V) (hm' : m' ∈ m.land i :: rest) (hop : m'.op = n) :
            i' ∉ m'.todo ∧ ∀ e ∈ m'.taken, e.1 ≠ i' := by
          refine harrived m' ?_ hop
          show m' ∈ Function.update S.queue (p', q', k') _ (p', q', k')
          rw [Function.update_self]
          exact hm'
        refine hrecv ha' hle hn fun hne => hpath.received n hle hn i' hi' fun m' hm' hop => ?_
        rw [hqueue] at hm'
        obtain rfl | hm' := List.mem_cons.mp hm'
        · obtain ⟨htodo, htaken⟩ := harrived' _ List.mem_cons_self hop
          refine ⟨htodo, fun e' he' hi => ?_⟩
          have hii : i' ≠ i := fun hii => hne (by rw [hii, hslot, hop])
          exact htaken e' (List.mem_filter.mpr ⟨he', decide_eq_true (hi.trans_ne hii)⟩) hi
        · exact harrived' m' (List.mem_cons_of_mem _ hm') hop

/-- The path of a flag, after it. -/
theorem PathInv.pop (h : PathInv cfg S p q k) {rest : List (Msg V)}
    (hqueue : S.queue (p, q, k) = m :: rest) (hempty : m.todo = [] ∧ m.taken = [])
    (hqueue' : S'.queue (p, q, k) = rest) (hrank : S'.rank = S.rank) (hrecv : S'.recv = S.recv)
    (hflag : ∀ slot < 2, S'.flag (q, flagAddress p q k slot) =
      if m.op % 2 = slot then word m.op else S.flag (q, flagAddress p q k slot)) :
    PathInv cfg S' p q k := by
  have hnum := h.numbered
  have hle := h.length_le
  rw [hqueue, List.map_cons, List.length_cons, List.range'_succ] at hnum
  rw [hqueue, List.length_cons] at hle
  obtain ⟨hop, hrest⟩ := List.cons.inj hnum
  have hlanded : S'.landed p q k = S.landed p q k + 1 := by
    unfold State.landed
    rw [hrank, hqueue', hqueue, List.length_cons]
    omega
  have hmem {m' : Msg V} (hm' : m' ∈ S'.queue (p, q, k)) : m' ∈ S.queue (p, q, k) := by
    rw [hqueue'] at hm'
    rw [hqueue]
    exact List.mem_cons_of_mem m hm'
  refine
    { numbered := ?_
      length_le := ?_
      seq := fun m' hm' => h.seq m' (hmem hm')
      todo := fun m' hm' => h.todo m' (hmem hm')
      taken := fun m' hm' => h.taken m' (hmem hm')
      flagged := fun slot hslot => ?_
      outstanding := ?_
      seen := fun b t hsee => ?_
      finished := ?_
      received := fun n hle hn i hi harrived => ?_ }
  · rw [hqueue', hlanded]
    exact hrest
  · rw [hqueue', hrank]
    exact (Nat.le_succ _).trans hle
  · rw [hflag slot hslot, hlanded, h.flagged slot hslot, hop, lastOf, lastOf]
    split_ifs
    · rfl
    · rw [Nat.add_sub_cancel]
    · omega
  · have hout := h.outstanding
    rw [hqueue, List.length_cons] at hout
    rw [hqueue', hrank]
    exact (Nat.le_succ _).trans hout
  · rw [hrank] at hsee ⊢
    rw [hlanded]
    exact Nat.le_succ_of_le (h.seen b t hsee)
  · rw [hrank, hlanded]
    exact Nat.le_succ_of_le h.finished
  · rw [hrank] at hle hn
    rw [hrecv]
    refine h.received n hle hn i hi fun m' hm' hop' => ?_
    rw [hqueue] at hm'
    obtain rfl | hm' := List.mem_cons.mp hm'
    · rw [hempty.1, hempty.2]
      exact ⟨List.not_mem_nil, fun e he => absurd he List.not_mem_nil⟩
    · exact harrived m' (hqueue' ▸ hm') hop'

/-- **A flag lands** after the packs of its write. -/
theorem Inv.landFlag (hinv : Inv cfg S) (h : S.landFlag p q k = some S') : Inv cfg S' := by
  unfold State.landFlag at h
  cases hqueue : S.queue (p, q, k) with
  | nil =>
    rw [hqueue] at h
    exact absurd h.symm (Option.some_ne_none S')
  | cons m rest =>
    rw [hqueue] at h
    dsimp only at h
    split_ifs at h with hempty
    obtain rfl := Option.some.inj h
    have hm : m ∈ S.queue (p, q, k) := hqueue ▸ List.mem_cons_self
    have ha := hinv.active_of_mem hm
    have hpath := hinv.net.path p q k ha
    have hslot : slotOf m.seq = m.op % 2 := by rw [hpath.seq m hm, slotOf_word]
    refine hinv.network rfl (fun p' q' k' ha' => ?_) fun p' q' k' hna => hinv.quiet_update ha hna
    by_cases heq : (p', q', k') = (p, q, k)
    swap
    · -- the flags of the other paths are elsewhere
      refine (hinv.net.path p' q' k' ha').congr rfl (Function.update_of_ne heq _ _)
        (fun slot hslot' => Function.update_of_ne (fun hcell => ?_) _ _) le_rfl rfl rfl
        fun _ _ _ _ _ _ => rfl
      obtain ⟨rfl, haddr⟩ := Prod.mk.inj hcell
      obtain ⟨rfl, rfl, -⟩ := flags_of_setUp cfg.setUp ha' ha hslot'
        (hslot ▸ Nat.mod_lt _ Nat.two_pos) haddr
      exact heq rfl
    obtain ⟨rfl, hqk⟩ := Prod.mk.inj heq
    obtain ⟨rfl, rfl⟩ := Prod.mk.inj hqk
    exact hpath.pop hqueue hempty (Function.update_self _ _ _) rfl rfl fun slot hslot' => by
      show Function.update S.flag (q', flagAddress p' q' k' (slotOf m.seq)) m.seq
        (q', flagAddress p' q' k' slot) = _
      rw [hslot]
      by_cases hs : m.op % 2 = slot
      · rw [hs, Function.update_self, if_pos rfl, hpath.seq m hm]
      · rw [if_neg hs, Function.update_of_ne fun hcell => hs ?_]
        exact (flags_of_setUp cfg.setUp ha ha (Nat.mod_lt _ Nat.two_pos) hslot'
          (Prod.mk.inj hcell).2.symm).2.2

end Network

end RingTransport
