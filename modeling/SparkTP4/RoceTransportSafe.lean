import SparkTP4.RoceTransportNet

/-!
# The RoCE transport: what the kernels read

There is no acknowledgement: a slot is sent and received again two operations
later, the buffers of the two-shot operations in the very next one. The order
of the ranks makes up for it. A write in flight finds what it was posted for in
the send buffer (`Inv.send_eq`), two writes to one region that have not been
overtaken are of one operation (`Inv.same_payload`), and so every pack that has
landed and is still wanted is the peer's (`ContentInv`). The two safety
statements, for the one-shot transport (`OneshotSafe`) and for the two-shot
transport (`TwoshotSafe`), hold in every reachable state of any sequence of
operations.
-/

namespace RoceTransport

open Striping

variable {W H : ℕ} {V : Type} {cfg : Setting W H V} {S S' : State W H V} {r p q : Fin W}
  {h : Fin H} {n : ℕ} {part : Part} {i : ℕ}

/-! ## Posting, read backwards -/

theorem not_taken_nextOp {upto : ℕ} : ¬ (nextOp upto n : Proxy W H).Taken part := by
  unfold nextOp
  split_ifs <;> exact id

/-- An operation that the proxy takes up is posted from its first write on. -/
theorem toPost_of_fetchNext {cur rc : Record} {upto k : ℕ} {proxy : Proxy W H}
    (hnext : fetchNext cfg cur r upto k rc = some proxy) (hne : q ≠ r) (htaken : proxy.Taken part) :
    proxy.ToPost part q h := by
  unfold fetchNext at hnext
  split at hnext
  case h_1 =>
    obtain rfl := Option.some.inj hnext
    exact htaken.elim
  case h_2 =>
    split at hnext
    case h_1 =>
      split_ifs at hnext
      obtain rfl := Option.some.inj hnext
      rcases part with - | c | c
      · exact ⟨rfl, mem_targets.mpr hne⟩
      · exact absurd htaken (Nat.not_lt_zero c)
      · exact absurd htaken (Nat.not_lt_zero c)
    case h_2 =>
      obtain rfl := Option.some.inj hnext
      exact htaken.elim
  case h_3 =>
    obtain rfl := Option.some.inj hnext
    exact htaken.elim
  case h_4 =>
    split_ifs at hnext
    obtain rfl := Option.some.inj hnext
    rcases part with - | c | c
    · exact absurd htaken (by simp [Proxy.Taken])
    · exact absurd htaken (Nat.not_lt_zero c)
    · exact absurd htaken (Nat.not_lt_zero c)

/-- A step of a rank posts nothing. -/
theorem RankStep.posted_back {R : Rank W H V} (hstep : RankStep cfg S r R)
    (hinv : ProxyInv cfg r (S.rank r)) (hposted : R.Posted cfg r q h n part) :
    (S.rank r).Posted cfg r q h n part := by
  have hne := hposted.2.1
  cases hstep with
  | exec t =>
    unfold Rank.Posted at hposted ⊢
    rwa [exec_lastSeq, exec_proxy] at hposted
  | timeout => exact hposted
  | finish => exact hposted
  | stay => exact hposted
  | fail => exact hposted
  | poll => exact ⟨hposted.1, hne, hposted.2.2.imp_right (fun h => h.2.1.elim)⟩
  | fetch hproxy hnext =>
    refine ⟨hposted.1, hne, hposted.2.2.imp_right (fun hrest => ?_)⟩
    obtain ⟨heq, htaken, hto⟩ := hrest
    exact absurd (toPost_of_fetchNext hnext hne htaken) hto
  | commit hproxy hkind =>
    have hholds := hinv.holds
    rw [hproxy] at hholds
    have hone := (hinv.kind_eq hproxy).trans hkind
    obtain rfl := hholds.2.2 hone
    refine ⟨hposted.1, hne, ?_⟩
    rcases hposted.2.2 with hle | ⟨-, htaken, -⟩
    · rcases Nat.lt_or_eq_of_le hle with hlt | rfl
      · exact Or.inl (Nat.le_of_lt_succ hlt)
      · refine Or.inr ⟨rfl, ?_, ?_⟩
        · rw [hproxy]
          rcases part with - | c | c
          · rfl
          · exact absurd (hone.symm.trans hposted.1.2.1) (by decide)
          · exact absurd (hone.symm.trans hposted.1.2.1) (by decide)
        · rw [hproxy]
          exact fun hto => absurd hto.2 List.not_mem_nil
    · exact absurd htaken not_taken_nextOp
  | chooseRs hproxy hkind =>
    refine ⟨hposted.1, hne, hposted.2.2.imp_right (fun hrest => ?_)⟩
    obtain ⟨heq, htaken, hto⟩ := hrest
    rw [hproxy]
    refine ⟨heq, ?_, fun hto => absurd hto.2 List.not_mem_nil⟩
    rcases part with - | c | c
    · exact absurd htaken (by simp [Proxy.Taken])
    · rcases Nat.lt_succ_iff_lt_or_eq.mp htaken with hlt | rfl
      · exact hlt
      · exact absurd ⟨rfl, mem_targets.mpr hne⟩ hto
    · exact htaken
  | chooseAg hproxy hkind =>
    refine ⟨hposted.1, hne, hposted.2.2.imp_right (fun hrest => ?_)⟩
    obtain ⟨heq, htaken, hto⟩ := hrest
    rw [hproxy]
    refine ⟨heq, ?_, fun hto => absurd hto.2 List.not_mem_nil⟩
    rcases part with - | c | c
    · exact absurd htaken (by simp [Proxy.Taken])
    · exact htaken
    · rcases Nat.lt_succ_iff_lt_or_eq.mp htaken with hlt | rfl
      · exact hlt
      · exact absurd ⟨rfl, mem_targets.mpr hne⟩ hto
  | release hproxy hkind hrs hag =>
    refine ⟨hposted.1, hne, ?_⟩
    rcases hposted.2.2 with hle | ⟨-, htaken, -⟩
    · rcases Nat.lt_or_eq_of_le hle with hlt | rfl
      · exact Or.inl (Nat.le_of_lt_succ hlt)
      · refine Or.inr ⟨rfl, ?_, ?_⟩
        · have hhas := hposted.1.2
          have hchunks := hinv.chunks_eq hproxy hkind
          rw [hproxy]
          rcases part with - | c | c
          · have htwo := (hinv.kind_eq hproxy).trans hkind
            exact absurd (htwo.symm.trans hhas) (by decide)
          · exact Nat.lt_of_lt_of_le (hchunks ▸ hhas.2) hrs
          · exact Nat.lt_of_lt_of_le (hchunks ▸ hhas.2) hag
        · rw [hproxy]
          exact fun hto => absurd hto.2 List.not_mem_nil
    · exact absurd htaken not_taken_nextOp

/-! ## What a write carries -/

/-- The packs of a write are packs of its message. -/
theorem mem_packsOf_of_stripeOf {o : Op} (hi : i ∈ stripeOf W H o.packs o.chunkPacks p q h part) :
    i ∈ o.packsOf W p q part :=
  List.mem_range'_1.mpr (bounds_of_mem_stripe h.isLt hi)

theorem base_le_of_packsOf {o : Op} (hi : i ∈ o.packsOf W p q part) :
    msgBase W o.packs p q part ≤ i := by
  rcases part with - | c | c
  · exact Nat.zero_le i
  · exact (bounds_of_mem_chunk hi).1
  · exact (bounds_of_mem_chunk hi).1

/-- **What has been read and received.** A pack that has landed is there as long
as its receiver has not finished the operation, in the reduce-scatter as long
as its sender has not finished it. -/
structure ContentInv (cfg : Setting W H V) (S : State W H V) : Prop where
  received : ∀ (p q : Fin W) (h : Fin H) n part,
    ∀ i ∈ stripeOf W H (cfg.op n).packs (cfg.op n).chunkPacks p q h part,
    (S.rank p).Posted cfg p q h n part →
    (∀ m ∈ S.queue p q h, m.op = n → m.part = part → i ∉ m.todo) →
    (S.rank q).op ≤ n → (∀ c, part = .rs c → (S.rank p).op ≤ n) →
    S.recv (q, p) (regionOf n part) (i - msgBase W (cfg.op n).packs p q part)
      = cfg.payload p n part i
  got : ∀ q part p i, Task.read part p i ∈ (S.rank q).done →
    (S.rank q).got (part, p) i = cfg.payload p (S.rank q).op part i

theorem ContentInv.start : ContentInv cfg (State.start cfg) where
  received p q h n part i _ hposted := by
    rcases hposted.2.2 with hle | ⟨-, htaken, -⟩
    · exact absurd (Nat.le_trans hposted.1.1 hle) (Nat.not_succ_le_zero 0)
    · exact htaken.elim
  got q part p i hmem := absurd hmem List.not_mem_nil

namespace Inv

variable (hinv : Inv cfg S)

include hinv

/-- A posted one-shot payload has been staged. -/
theorem ring_of_posted (hposted : (S.rank p).Posted cfg p q h n part) (heq : n = (S.rank p).op) :
    Task.ring ∈ (S.rank p).done := by
  by_contra hring
  have hseq := (hinv.rank p).kernel.unrung hring
  have hle := Nat.le_trans (posted_le_front hposted) (hinv.rank p).proxy.front_le
  omega

/-- **A write in flight finds its payload in the send buffer.** -/
theorem send_eq (hgot : ∀ q part p i, Task.read part p i ∈ (S.rank q).done →
      (S.rank q).got (part, p) i = cfg.payload p (S.rank q).op part i)
    {m : Msg} (hm : m ∈ S.queue p q h)
    (hi : i ∈ stripeOf W H (cfg.op m.op).packs (cfg.op m.op).chunkPacks p q h m.part) :
    (S.rank p).send (sourceOf m.op m.part) i = cfg.payload p m.op m.part i := by
  have hposted := hinv.net.posted p q h m hm
  have hkernel := (hinv.rank p).kernel
  have hflight := hinv.in_flight hm
  have hmem := mem_packsOf_of_stripeOf hi
  have hhas := hposted.1
  have hpublished := (hinv.rank p).proxy.published m.op m.part hhas
  have hchunk := hinv.op_of_chunk hm
  have hne := hposted.2.1
  have hordered := hposted.2.2.imp_right (fun h => And.intro h.1 h.2.1)
  cases hpart : m.part with
  | one =>
    rw [hpart] at hmem hhas
    have hlt : i < (cfg.op m.op).packs := by
      have := List.mem_range'_1.mp hmem
      simpa [msgStart, msgLength] using this
    refine hkernel.slots m.op i hhas.1 (Nat.le_trans hflight.2.2 (Nat.succ_le_succ hflight.1))
      hhas.2 hlt ?_
    rcases Nat.lt_or_eq_of_le hflight.2.1 with hlt' | heq
    · exact Or.inl hlt'
    · have hring := hinv.ring_of_posted hposted heq
      rw [heq] at hhas hlt
      exact Or.inr ⟨heq, hkernel.staged_of_ring hring hhas.2 hlt⟩
  | rs c =>
    have hop := hchunk (by rw [hpart]; simp)
    have hpub := (hpublished (by rw [hpart]; simp) hordered).resolve_left
      (fun hlt => absurd hop (Nat.ne_of_lt hlt))
    rw [hpart] at hpub hhas hmem
    rw [hop] at hhas hmem ⊢
    have hstage := (hkernel.needs _ hpub.2).2 q hne i hmem
    exact hkernel.staged c i hhas.2.1 hstage
  | ag c =>
    have hop := hchunk (by rw [hpart]; simp)
    have hpub := (hpublished (by rw [hpart]; simp) hordered).resolve_left
      (fun hlt => absurd hop (Nat.ne_of_lt hlt))
    rw [hpart] at hpub hhas hmem
    rw [hop] at hhas hmem ⊢
    have hstore := (hkernel.needs _ hpub.2).2.2 i hmem
    refine (hkernel.stored c i hstore).trans (congrArg cfg.combine (funext (fun q' => ?_)))
    -- the reduced pack is made of the packs that were read
    by_cases hq' : q' = p
    · rw [if_pos hq', hq']
    · rw [if_neg hq']
      exact hgot p (.rs c) q' i ((hkernel.needs _ hstore).2.2 q' hq')

/-- **Two writes to one region are of one operation**, as long as the receiver
and, in the reduce-scatter, the sender have not finished the first. -/
theorem same_payload {m : Msg} {h' : Fin H} (hm : m ∈ S.queue p q h')
    (hposted : (S.rank p).Posted cfg p q h n part) (hq : (S.rank q).op ≤ n)
    (hp : ∀ c, part = .rs c → (S.rank p).op ≤ n)
    (hregion : regionOf n part = regionOf m.op m.part) :
    m.op = n ∧ msgBase W (cfg.op m.op).packs p q m.part = msgBase W (cfg.op n).packs p q part ∧
      ∀ i, cfg.payload p m.op m.part i = cfg.payload p n part i := by
  obtain ⟨hflight, hle, hahead⟩ := hinv.in_flight hm
  have hn := hinv.posted_le_op hposted
  have hposted' := hinv.net.posted p q h' m hm
  have hchunk := hinv.op_of_chunk hm
  cases hpart : m.part with
  | one =>
    rw [hpart] at hregion
    rcases part with - | c | c
    · have hslot : n % 2 = m.op % 2 := Region.slot.inj hregion
      obtain rfl : m.op = n := by omega
      exact ⟨rfl, rfl, fun _ => rfl⟩
    · exact absurd hregion (by simp [regionOf])
    · exact absurd hregion (by simp [regionOf])
  | rs c' =>
    rw [hpart] at hregion
    rcases part with - | c | c
    · exact absurd hregion (by simp [regionOf])
    · have hop := hchunk (by rw [hpart]; simp)
      obtain rfl : m.op = n := hop.trans (Nat.le_antisymm (hp c rfl) hn)
      exact ⟨rfl, rfl, fun _ => rfl⟩
    · exact absurd hregion (by simp [regionOf])
  | ag c' =>
    rw [hpart] at hregion hposted'
    rcases part with - | c | c
    · exact absurd hregion (by simp [regionOf])
    · exact absurd hregion (by simp [regionOf])
    · have hop := hinv.op_le_of_gather hposted q
      have hop' := hinv.op_le_of_gather hposted' q
      obtain rfl : m.op = n := by omega
      exact ⟨rfl, rfl, fun _ => rfl⟩

omit hinv in
/-- A pack of a message whose flags have landed is in its region. -/
theorem recv_eq (hcontent : ContentInv cfg S)
    (hlanded : ∀ h : Fin H, Landed cfg S p q h n part)
    (hi : i ∈ (cfg.op n).packsOf W p q part) (hq : (S.rank q).op ≤ n)
    (hp : ∀ c, part = .rs c → (S.rank p).op ≤ n) :
    S.recv (q, p) (regionOf n part) (i - msgBase W (cfg.op n).packs p q part)
      = cfg.payload p n part i := by
  have hmem := List.mem_range'_1.mp hi
  obtain ⟨k, hk, hstripe⟩ := exists_mem_stripe cfg.hcas_pos hmem.1 hmem.2
  have hlanded' := hlanded ⟨k, hk⟩
  exact hcontent.received p q ⟨k, hk⟩ n part i hstripe hlanded'.1
    (fun m hm hop hpart => absurd hpart (hlanded'.2 m hm hop)) hq hp

end Inv

/-! ## What a step keeps of it -/

namespace Moves

theorem op_le (hmove : Moves cfg S S') (q : Fin W) : (S.rank q).op ≤ (S'.rank q).op := by
  rcases hmove.rank_cases q with ⟨hstep, -⟩ | heq
  · generalize S'.rank q = R at hstep
    cases hstep with
    | exec => exact Nat.le_of_eq exec_op.symm
    | finish => exact Nat.le_succ _
    | _ => exact Nat.le_refl _
  · rw [heq]

/-- A write that was not posted before is now in its queue, with all its packs. -/
theorem posted_back (hmove : Moves cfg S S') (hinv : Inv cfg S)
    (hposted : (S'.rank p).Posted cfg p q h n part) :
    (S.rank p).Posted cfg p q h n part ∨
      ∃ m ∈ S'.queue p q h, m.op = n ∧ m.part = part ∧
        ∀ i ∈ stripeOf W H (cfg.op n).packs (cfg.op n).chunkPacks p q h part, i ∈ m.todo := by
  cases hmove with
  | rank r hstep =>
    by_cases hp : p = r
    · subst hp
      rw [setRank_rank_self] at hposted
      exact Or.inl (hstep.posted_back (hinv.rank p).proxy hposted)
    · rw [setRank_rank_of_ne hp] at hposted
      exact Or.inl hposted
  | @post r upto rs ag rc cur q' h' todo hproxy =>
    have hposted' : ((S.setRank r { S.rank r with
        proxy := .post upto rc rs ag cur todo }).rank p).Posted cfg p q h n part := hposted
    by_cases hp : p = r
    · subst hp
      rw [setRank_rank_self] at hposted'
      obtain ⟨hhas, hne, hle | ⟨rfl, htaken, hto⟩⟩ := hposted'
      · exact Or.inl ⟨hhas, hne, Or.inl hle⟩
      · by_cases hnew : cur = part ∧ q = q' ∧ h = h'
        · obtain ⟨rfl, rfl, rfl⟩ := hnew
          have hholds := (hinv.rank p).proxy.holds
          rw [hproxy] at hholds
          refine Or.inr ⟨rc.msg ((S.rank p).lastSeq + 1) cur p q h, ?_, rfl, rfl, fun i hi => ?_⟩
          · have hqueue : write S.queue p q h (S.queue p q h ++
                [rc.msg ((S.rank p).lastSeq + 1) cur p q h]) p q h = _ := if_pos ⟨rfl, rfl, rfl⟩
            show _ ∈ write S.queue p q h _ p q h
            rw [hqueue]
            exact List.mem_append_right _ (List.mem_singleton.mpr rfl)
          · show i ∈ stripeOf W H (rc.nbytes / packBytes) rc.chunkPacks p q h cur
            rwa [stripeOf_of_record hholds.1 hhas.2]
        · refine Or.inl ⟨hhas, hne, Or.inr ⟨rfl, ?_, ?_⟩⟩
          · rw [hproxy]
            rcases part with - | c | c <;> exact htaken
          · rw [hproxy]
            rintro ⟨hcur, hmem⟩
            rcases List.mem_cons.mp hmem with heq | hmem
            · exact hnew ⟨hcur, Prod.mk.inj heq⟩
            · exact hto ⟨hcur, hmem⟩
    · rw [setRank_rank_of_ne hp] at hposted'
      exact Or.inl hposted'
  | pack => exact Or.inl hposted
  | flag => exact Or.inl hposted

/-- A pack that is not to be delivered any more was delivered before, or by this step. -/
theorem delivered_back (hmove : Moves cfg S S')
    (hgone : ∀ m ∈ S'.queue p q h, m.op = n → m.part = part → i ∉ m.todo) :
    (∀ m ∈ S.queue p q h, m.op = n → m.part = part → i ∉ m.todo) ∨
      ∃ m ∈ S.queue p q h, m.op = n ∧ m.part = part ∧ i ∈ m.todo ∧
        S'.recv = write S.recv (q, p) (regionOf m.op m.part) (i - m.base)
          ((S.rank p).send (sourceOf m.op m.part) i) := by
  cases hmove with
  | rank => exact Or.inl hgone
  | @post r _ _ _ rc cur q' h' _ _ =>
    refine Or.inl (fun m hm => hgone m ?_)
    show m ∈ write S.queue r q' h' _ p q h
    unfold write
    split_ifs with heq
    · obtain ⟨rfl, rfl, rfl⟩ := heq
      exact List.mem_append_left _ hm
    · exact hm
  | @pack p' q' h' m' rest j hqueue hj =>
    by_cases heq : p = p' ∧ q = q' ∧ h = h'
    · obtain ⟨rfl, rfl, rfl⟩ := heq
      have hgone' : ∀ m ∈ { m' with todo := m'.todo.filter (· ≠ j) } :: rest,
          m.op = n → m.part = part → i ∉ m.todo := by
        intro m hm
        refine hgone m ?_
        show m ∈ write S.queue p q h _ p q h
        unfold write
        rwa [if_pos ⟨rfl, rfl, rfl⟩]
      by_cases hij : m'.op = n ∧ m'.part = part ∧ i = j
      · obtain ⟨hop, hpart, rfl⟩ := hij
        exact Or.inr ⟨m', hqueue ▸ List.mem_cons_self, hop, hpart, hj, rfl⟩
      · refine Or.inl (fun m hm hop hpart hi => ?_)
        rcases List.mem_cons.mp (hqueue ▸ hm) with rfl | hrest
        · refine hgone' _ List.mem_cons_self hop hpart (List.mem_filter.mpr ⟨hi, ?_⟩)
          exact decide_eq_true (fun hj => hij ⟨hop, hpart, hj⟩)
        · exact hgone' m (List.mem_cons_of_mem _ hrest) hop hpart hi
    · refine Or.inl (fun m hm => hgone m ?_)
      show m ∈ write S.queue p' q' h' _ p q h
      unfold write
      rwa [if_neg heq]
  | @flag p' q' h' m' rest hqueue htodo =>
    by_cases heq : p = p' ∧ q = q' ∧ h = h'
    · obtain ⟨rfl, rfl, rfl⟩ := heq
      refine Or.inl (fun m hm => ?_)
      rcases List.mem_cons.mp (hqueue ▸ hm) with rfl | hrest
      · intro _ _ hi
        rw [htodo] at hi
        exact absurd hi List.not_mem_nil
      · refine hgone m ?_
        show m ∈ write S.queue p q h rest p q h
        unfold write
        rwa [if_pos ⟨rfl, rfl, rfl⟩]
    · refine Or.inl (fun m hm => hgone m ?_)
      show m ∈ write S.queue p' q' h' rest p q h
      unfold write
      rwa [if_neg heq]

/-- What a step does to the receive buffers. -/
theorem recv_cases (hmove : Moves cfg S S') : S'.recv = S.recv ∨
    ∃ p q h, ∃ m ∈ S.queue p q h, ∃ i ∈ m.todo,
      S'.recv = write S.recv (q, p) (regionOf m.op m.part) (i - m.base)
        ((S.rank p).send (sourceOf m.op m.part) i) := by
  cases hmove with
  | rank => exact Or.inl rfl
  | post => exact Or.inl rfl
  | @pack p q h m rest i hqueue hi =>
    exact Or.inr ⟨p, q, h, m, hqueue ▸ List.mem_cons_self, i, hi, rfl⟩
  | flag => exact Or.inl rfl

theorem received (hmove : Moves cfg S S') (hinv : Inv cfg S) (hcontent : ContentInv cfg S)
    (hi : i ∈ stripeOf W H (cfg.op n).packs (cfg.op n).chunkPacks p q h part)
    (hposted : (S'.rank p).Posted cfg p q h n part)
    (hgone : ∀ m ∈ S'.queue p q h, m.op = n → m.part = part → i ∉ m.todo)
    (hq : (S'.rank q).op ≤ n) (hp : ∀ c, part = .rs c → (S'.rank p).op ≤ n) :
    S'.recv (q, p) (regionOf n part) (i - msgBase W (cfg.op n).packs p q part)
      = cfg.payload p n part i := by
  have hq' : (S.rank q).op ≤ n := Nat.le_trans (hmove.op_le q) hq
  have hp' : ∀ c, part = .rs c → (S.rank p).op ≤ n :=
    fun c hc => Nat.le_trans (hmove.op_le p) (hp c hc)
  rcases hmove.posted_back hinv hposted with hold | ⟨m, hm, hop, hpart, hall⟩
  swap
  · exact absurd (hall i hi) (hgone m hm hop hpart)
  rcases hmove.delivered_back hgone with hgone' | ⟨m, hm, hop, hpart, htodo, hrecv⟩
  · have hbefore := hcontent.received p q h n part i hi hold hgone' hq' hp'
    rcases hmove.recv_cases with hrecv | ⟨p', q', h', m, hm, j, hj, hrecv⟩
    · rw [hrecv]
      exact hbefore
    · rw [hrecv]
      unfold write
      split_ifs with hhit
      · -- the pack of another write lands on this one: it is the same pack
        obtain ⟨hqp, hregion, hoffset⟩ := hhit
        obtain ⟨rfl, rfl⟩ := Prod.mk.inj hqp
        obtain ⟨hop, hbase, hpayload⟩ := hinv.same_payload hm hold hq' hp' hregion
        have hstripe := hinv.net.todo _ _ _ m hm j hj
        have hle := base_le_of_packsOf (mem_packsOf_of_stripeOf hi)
        have hle' := base_le_of_packsOf (mem_packsOf_of_stripeOf hstripe)
        rw [hinv.net.base _ _ _ m hm, hbase] at hoffset
        rw [hbase] at hle'
        obtain rfl : i = j := by omega
        rw [hinv.send_eq hcontent.got hm hstripe, hpayload]
      · exact hbefore
  · have hstripe := hinv.net.todo p q h m hm i htodo
    rw [hrecv, hinv.net.base p q h m hm, hop, hpart]
    unfold write
    rw [if_pos ⟨rfl, rfl, rfl⟩, ← hop, ← hpart]
    exact hinv.send_eq hcontent.got hm hstripe

theorem got (hmove : Moves cfg S S') (hinv : Inv cfg S) (hcontent : ContentInv cfg S)
    (hmem : Task.read part p i ∈ (S'.rank q).done) :
    (S'.rank q).got (part, p) i = cfg.payload p (S'.rank q).op part i := by
  rcases hmove.rank_cases q with ⟨hstep, -⟩ | heq
  swap
  · rw [heq] at hmem ⊢
    exact hcontent.got q part p i hmem
  generalize S'.rank q = R at hstep hmem ⊢
  cases hstep with
  | finish => exact absurd hmem List.not_mem_nil
  | exec t hnew hneeds hguard =>
    rw [exec_done] at hmem
    rw [exec_op]
    have hold : Task.read part p i ≠ t →
        (S.rank q).got (part, p) i = cfg.payload p (S.rank q).op part i :=
      fun hne => hcontent.got q part p i ((List.mem_cons.mp hmem).resolve_left hne)
    cases t
    case read part' p' j =>
      show put (S.rank q).got (part', p') j _ (part, p) i = _
      unfold put
      split_ifs with heq
      · obtain ⟨hpp, rfl⟩ := heq
        obtain ⟨rfl, rfl⟩ := Prod.mk.inj hpp
        obtain ⟨hpart, hne, hi, hsees⟩ := hneeds
        have hpos := (hinv.rank q).kernel.op_pos
        refine Inv.recv_eq hcontent
          (fun h => hinv.net.seen p q h _ part (hsees p hne h)) hi (Nat.le_refl _) ?_
        rintro c rfl
        -- a peer that is further has our reduced chunk, so this read is done
        by_contra hlt
        exact hnew (hinv.read_of_finished hne ⟨hpos, hpart⟩ (Nat.lt_of_not_le hlt) hi)
      · refine hold (fun hread => heq ?_)
        obtain ⟨rfl, rfl, rfl⟩ := Task.read.inj hread
        exact ⟨rfl, rfl⟩
    all_goals exact hold (by simp)
  | _ => exact hcontent.got q part p i hmem

end Moves

/-- **What the kernels read is kept by every step.** -/
theorem ContentInv.moves (hcontent : ContentInv cfg S) (hinv : Inv cfg S)
    (hmove : Moves cfg S S') : ContentInv cfg S' where
  received _ _ _ _ _ _ := hmove.received hinv hcontent
  got _ _ _ _ := hmove.got hinv hcontent

/-- Both invariants hold in every reachable state. -/
theorem inv_of_reachable (hS : Reachable cfg S) : Inv cfg S ∧ ContentInv cfg S :=
  Transition.Reachable.invariant (fun S => Inv cfg S ∧ ContentInv cfg S) ⟨.start, .start⟩
    (fun _ _ _ h _ hstep =>
      ⟨h.1.moves (moves_of_step hstep), h.2.moves h.1 (moves_of_step hstep)⟩) hS

/-! ## A small system -/

/-- The literals of the ranks and of the HCA below. -/
theorem ranks_neZero : NeZero 2 := inferInstance

@[inherit_doc ranks_neZero]
theorem hca_neZero : NeZero 1 := inferInstance

attribute [local instance] ranks_neZero hca_neZero

/-- Two ranks, one HCA, two packs; the kinds of the operations are `kind`. -/
def smallSetting (kind : ℕ → Kind) : Setting 2 1 ℕ where
  op n := match kind n with
    | .oneshot => ⟨.oneshot, 2, 0, 0⟩
    | .twoshot => ⟨.twoshot, 2, 1, 1⟩
  input r n i := 100 * n + 10 * r + i
  combine f := f 0 + f 1
  blocks _ _ := 1
  blockOf _ _ _ _ := 0
  slotBytes := 32
  pipeBytes := 32
  maxChunks := 1
  garbage := 0
  world_ge := Nat.le_refl 2
  hcas_pos := Nat.one_pos
  blocks_pos _ _ := Nat.one_pos
  op_accepted n := by
    cases kind n <;> decide

/-- A one-shot kernel up to its doorbell. -/
def ringActions (r : Fin 2) : List (Action 2 1) :=
  [.exec r (.stage 0 0), .exec r (.stage 0 1), .exec r .setNbytes, .exec r .setKind, .exec r .ring]

/-- A proxy that posts a one-shot operation. -/
def postActions (r : Fin 2) : List (Action 2 1) := [.poll r, .fetch r, .fetch r, .post r]

def landActions (p : Fin 2) : List (Action 2 1) :=
  [.deliver p (1 - p) 0 (some 1), .deliver p (1 - p) 0 (some 0), .deliver p (1 - p) 0 none]

/-- A one-shot kernel from its waits on. -/
def finishActions (r : Fin 2) : List (Action 2 1) :=
  [.exec r (.see 0 .one (1 - r) 0), .exec r (.read .one (1 - r) 0),
    .exec r (.read .one (1 - r) 1), .finish r]

/-- The proxy of rank 0 has posted the first operation and is descheduled before
it commits it; both kernels go on, that of rank 0 to its third doorbell. -/
def lagActions : List (Action 2 1) :=
  ringActions 0 ++ postActions 0 ++ ringActions 1 ++ postActions 1 ++ [.commit 1] ++
    landActions 0 ++ landActions 1 ++ finishActions 0 ++ finishActions 1 ++
    ringActions 1 ++ postActions 1 ++ landActions 1 ++
    ringActions 0 ++ finishActions 0 ++ ringActions 0

def oneshotSetting : Setting 2 1 ℕ := smallSetting (fun _ => .oneshot)

/-- A two-shot operation, then one-shot operations. -/
def mixedSetting : Setting 2 1 ℕ := smallSetting (fun n => if n = 1 then .twoshot else .oneshot)

/-- The state after these actions, if each of them is possible. -/
def after (cfg : Setting W H V) (as : List (Action W H)) : Option (State W H V) :=
  Transition.run (step cfg) (State.start cfg) as

theorem reachable_of_after {as : List (Action W H)} (hrun : after cfg as = some S) :
    Reachable cfg S :=
  Transition.Reachable.of_run hrun (Transition.allowedRun_of_forall (fun _ _ => trivial) _ _)

/-! ## The one-shot transport -/

/-- **The safety of the one-shot transport.** -/
structure OneshotSafe (cfg : Setting W H V) (S : State W H V) : Prop where
  /-- after a block has seen the flags of a peer, and until its kernel has
  finished, the slot holds the payload of the peer -/
  slot_holds : ∀ p q b i, p ≠ q → (cfg.op (S.rank q).op).kind = .oneshot →
    i < (cfg.op (S.rank q).op).packs → Sees q (S.rank q).done b .one →
    S.recv (q, p) (.slot (slotOf (S.rank q).op)) i = cfg.input p (S.rank q).op i
  /-- a write in flight to the slot of the running kernel is of its operation -/
  slot_quiet : ∀ p q h, ∀ m ∈ S.queue p q h,
    regionOf m.op m.part = .slot (slotOf (S.rank q).op) → m.op = (S.rank q).op
  /-- what the kernel has read is the payload -/
  slot_read : ∀ p q i, Task.read .one p i ∈ (S.rank q).done →
    (S.rank q).got (.one, p) i = cfg.input p (S.rank q).op i
  /-- the writes of an operation have landed before the kernel stages over its slot -/
  send_free : ∀ p q h n, q ≠ p → cfg.Has n .one → n + 2 ≤ (S.rank p).op →
    Landed cfg S p q h n .one
  /-- a write in flight finds its payload in the slot -/
  send_held : ∀ p q h, ∀ m ∈ S.queue p q h, m.part = .one →
    ∀ i ∈ stripeOf W H (cfg.op m.op).packs (cfg.op m.op).chunkPacks p q h m.part,
      (S.rank p).send (.slot (slotOf m.op)) i = cfg.input p m.op i
  /-- three doorbells at most are pending, the first of them being posted -/
  pending : ∀ r, (S.rank r).seq ≤ (S.rank r).front + 2
  /-- the proxy never finds a doorbell skipped -/
  not_skipped : ∀ r R, (S.rank r).poll = some R → R.failed = (S.rank r).failed
  /-- the words the proxy is about to read are those of the next operation -/
  words : ∀ r upto k rc, (S.rank r).proxy = .fetch upto k rc →
    RecordOf (cfg.op ((S.rank r).lastSeq + 1))
      ((S.rank r).record (slotOf ((S.rank r).lastSeq + 1)))
  /-- the words the proxy has read are those of the next operation -/
  words_read : ∀ r, (S.rank r).proxy.Holds (cfg.op ((S.rank r).lastSeq + 1))

/-- **The one-shot transport is safe** in every reachable state, also when
two-shot operations are mixed in. -/
theorem oneshot_transport_safe (cfg : Setting W H V) (hS : Reachable cfg S) :
    OneshotSafe cfg S := by
  obtain ⟨hinv, hcontent⟩ := inv_of_reachable hS
  have hpending : ∀ r, (S.rank r).seq ≤ (S.rank r).front + 2 :=
    fun r => Nat.le_trans (hinv.rank r).kernel.seq_le (hinv.ahead r)
  refine
    { slot_holds := ?_
      slot_quiet := ?_
      slot_read := fun p q i hread => hcontent.got q .one p i hread
      send_free := ?_
      send_held := ?_
      pending := hpending
      not_skipped := ?_
      words := fun r upto k rc hproxy => (hinv.rank r).record_next hproxy
      words_read := fun r => (hinv.rank r).proxy.holds }
  · intro p q b i hne hkind hi hsees
    have hmem : i ∈ (cfg.op (S.rank q).op).packsOf W p q .one :=
      List.mem_range'_1.mpr ⟨Nat.zero_le i, by simpa [msgStart, msgLength] using hi⟩
    have hrecv := Inv.recv_eq hcontent
      (fun h => hinv.net.seen p q h b .one (hsees p hne h)) hmem (Nat.le_refl _)
      (fun c hc => absurd hc (by simp))
    exact hrecv
  · intro p q h m hm hregion
    obtain ⟨hflight, hle, hahead⟩ := hinv.in_flight hm
    cases hpart : m.part with
    | one =>
      rw [hpart] at hregion
      have hslot : m.op % 2 = (S.rank q).op % 2 := Region.slot.inj hregion
      omega
    | rs c =>
      rw [hpart] at hregion
      exact absurd hregion (by simp [regionOf])
    | ag c =>
      rw [hpart] at hregion
      exact absurd hregion (by simp [regionOf])
  · intro p q h n hne hhas hlt
    have := hinv.op_le q p
    exact hinv.net.finished p q h n .one (Ne.symm hne) hhas (by omega)
  · intro p q h m hm hpart i hi
    have hsend := hinv.send_eq hcontent.got hm hi
    rw [hpart] at hsend
    exact hsend
  · intro r R hpoll
    unfold Rank.poll at hpoll
    split at hpoll
    case h_1 hidle =>
      have hfront : (S.rank r).front = (S.rank r).lastSeq := by
        unfold Rank.front
        rw [hidle]
      have := hpending r
      split_ifs at hpoll with heq hskip
      · rw [← Option.some.inj hpoll]
      · unfold roceSlots at hskip
        omega
      · rw [← Option.some.inj hpoll]
    case h_2 => exact absurd hpoll.symm (Option.some_ne_none R)

theorem oneshot_transport_safe_lag :
    ∃ S, after oneshotSetting lagActions = some S ∧ OneshotSafe oneshotSetting S := by
  have hrun : (after oneshotSetting lagActions).isSome := by decide +kernel
  obtain ⟨S, hS⟩ := Option.isSome_iff_exists.mp hrun
  exact ⟨S, hS, oneshot_transport_safe oneshotSetting (reachable_of_after hS)⟩

/-- **Three doorbells can be pending** while the proxy posts the first. -/
theorem three_pending : ¬ ∀ cfg : Setting 2 1 ℕ, (∀ n, (cfg.op n).kind = .oneshot) →
    ∀ S, Reachable cfg S → ∀ r, (S.rank r).seq - (S.rank r).lastSeq ≤ roceSlots := by
  intro hall
  have hseq : (after oneshotSetting lagActions).map
      (fun S => (S.rank 0).seq - (S.rank 0).lastSeq) = some 3 := by decide +kernel
  obtain ⟨S, hS, hthree⟩ := Option.map_eq_some_iff.mp hseq
  have hle := hall oneshotSetting (fun _ => rfl) S (reachable_of_after hS) 0
  rw [hthree] at hle
  exact absurd hle (by decide)

/-! ## The two-shot transport -/

/-- **The safety of the two-shot transport.** -/
structure TwoshotSafe (cfg : Setting W H V) (S : State W H V) : Prop where
  /-- when a block that has seen the flags of a chunk reads a pack of it, it is
  the pack of the peer -/
  chunk_holds : ∀ p q part b i, p ≠ q → HasPart (cfg.op (S.rank q).op).kind
      (cfg.op (S.rank q).op).chunks part → i ∈ (cfg.op (S.rank q).op).packsOf W p q part →
    Sees q (S.rank q).done b part → Task.read part p i ∉ (S.rank q).done →
    S.recv (q, p) (regionOf (S.rank q).op part)
      (i - msgBase W (cfg.op (S.rank q).op).packs p q part) = cfg.payload p (S.rank q).op part i
  /-- what the kernel has read is what the peer sent -/
  chunk_read : ∀ p q part i, Task.read part p i ∈ (S.rank q).done →
    (S.rank q).got (part, p) i = cfg.payload p (S.rank q).op part i
  /-- a write of a later operation is in flight only after the reads of its region -/
  recv_free : ∀ p q h, ∀ m ∈ S.queue p q h, m.part ≠ .one → ∀ n part, cfg.Has n part →
    regionOf n part = regionOf m.op m.part → n < m.op →
    ∀ i ∈ (cfg.op n).packsOf W p q part, (S.rank q).Past n (.read part p i)
  /-- the chunks of an earlier operation have landed before a kernel writes the
  send buffer -/
  send_free : ∀ p q h n part, q ≠ p → cfg.Has n part → part ≠ .one → n < (S.rank p).op →
    Landed cfg S p q h n part
  /-- a chunk in flight is of the operation of its sender, and finds its packs in
  the send buffer -/
  send_held : ∀ p q h, ∀ m ∈ S.queue p q h, m.part ≠ .one → m.op = (S.rank p).op ∧
    ∀ i ∈ stripeOf W H (cfg.op m.op).packs (cfg.op m.op).chunkPacks p q h m.part,
      (S.rank p).send .pipe i = cfg.payload p m.op m.part i

/-- **The two-shot transport is safe** in every reachable state of any sequence
of one-shot and two-shot operations. -/
theorem twoshot_transport_safe (cfg : Setting W H V) (hS : Reachable cfg S) :
    TwoshotSafe cfg S := by
  obtain ⟨hinv, hcontent⟩ := inv_of_reachable hS
  refine
    { chunk_holds := ?_
      chunk_read := fun p q part i hread => hcontent.got q part p i hread
      recv_free := ?_
      send_free := fun p q h n part hne hhas hchunk hlt =>
        hinv.landed_of_finished hne hhas hchunk hlt
      send_held := ?_ }
  · intro p q part b i hne hpart hi hsees hnew
    have hpos := (hinv.rank q).kernel.op_pos
    refine Inv.recv_eq hcontent
      (fun h => hinv.net.seen p q h b part (hsees p hne h)) hi (Nat.le_refl _) ?_
    rintro c rfl
    by_contra hlt
    exact hnew (hinv.read_of_finished hne ⟨hpos, hpart⟩ (Nat.lt_of_not_le hlt) hi)
  · intro p q h m hm hchunk n part hhas hregion hlt i hi
    obtain ⟨hflight, hle, hahead⟩ := hinv.in_flight hm
    have hposted := hinv.net.posted p q h m hm
    by_cases hfinished : n < (S.rank q).op
    · exact Or.inl hfinished
    · obtain rfl : n = (S.rank q).op := by omega
      cases hpart : m.part with
      | one => exact absurd hpart hchunk
      | rs c' =>
        rw [hpart] at hregion
        rcases part with - | c | c
        · exact absurd hregion (by simp [regionOf])
        · exact Or.inr ⟨rfl, hinv.read_of_finished (Ne.symm hposted.2.1) hhas (by omega) hi⟩
        · exact absurd hregion (by simp [regionOf])
      | ag c' =>
        rw [hpart] at hposted
        have := hinv.op_le_of_gather hposted q
        omega
  · intro p q h m hm hchunk
    refine ⟨hinv.op_of_chunk hm hchunk, fun i hi => ?_⟩
    have hsend := hinv.send_eq hcontent.got hm hi
    cases hpart : m.part with
    | one => exact absurd hpart hchunk
    | rs c =>
      rw [hpart] at hsend
      exact hsend
    | ag c =>
      rw [hpart] at hsend
      exact hsend

/-- A two-shot kernel up to its first publication, with its proxy. -/
def stageActions (r : Fin 2) : List (Action 2 1) :=
  [.exec r .setNbytes, .exec r .setKind, .exec r .setChunkPacks, .exec r .setChunks, .exec r .ring,
    .exec r (.stage 0 (1 - r)), .exec r (.publish (.rs 0)), .poll r, .fetch r, .fetch r, .fetch r,
    .fetch r, .choose r false, .post r, .deliver r (1 - r) 0 (some (1 - r)),
    .deliver r (1 - r) 0 none]

/-- A two-shot kernel that reduces its shard, and its proxy that releases the buffer. -/
def reduceActions (r : Fin 2) : List (Action 2 1) :=
  [.exec r (.see 0 (.rs 0) (1 - r) 0), .exec r (.read (.rs 0) (1 - r) r), .exec r (.store 0 r),
    .exec r (.publish (.ag 0)), .choose r true, .post r, .deliver r (1 - r) 0 (some r),
    .deliver r (1 - r) 0 none, .release r]

def gatherActions (r : Fin 2) : List (Action 2 1) :=
  [.exec r (.see 0 (.ag 0) (1 - r) 0), .exec r (.read (.ag 0) (1 - r) (1 - r)), .finish r]

def mixedActions : List (Action 2 1) :=
  stageActions 0 ++ stageActions 1 ++ reduceActions 0 ++ reduceActions 1 ++
    gatherActions 0 ++ gatherActions 1 ++ ringActions 0 ++ postActions 0

theorem twoshot_transport_safe_mixed :
    ∃ S, after mixedSetting mixedActions = some S ∧ TwoshotSafe mixedSetting S := by
  have hrun : (after mixedSetting mixedActions).isSome := by decide +kernel
  obtain ⟨S, hS⟩ := Option.isSome_iff_exists.mp hrun
  exact ⟨S, hS, twoshot_transport_safe mixedSetting (reachable_of_after hS)⟩

end RoceTransport
