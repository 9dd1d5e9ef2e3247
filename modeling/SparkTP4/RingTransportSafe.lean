import SparkTP4.RingTransportNet

/-!
# The ring transport: what the kernels read

The invariant holds in every reachable state, for any sizes and any schedule. A wait ends exactly
when the write has landed, though no flag is ever cleared and the words wrap; what a block reads
after its waits is the input of the peer for this very operation; no send slot is staged again
while a write from it is under way; and no proxy fails for a reason of its own.
-/

namespace RingTransport

open RingPaths RingPosts

variable {V : Type} {cfg : Setting V} {S S' : State V} {R R' : Rank V} {r p q k n i : ℕ}

/-! ## Every step -/

/-- A ring has two ranks. -/
theorem Setting.two_le_world (cfg : Setting V) (hr : r < cfg.world) : 2 ≤ cfg.world := by
  have h := cfg.setUp.started r hr
  unfold Node.start at h
  obtain ⟨_, -, h⟩ := FallibleLoop.bind_eq_ok.mp h
  cases hlayout : roceLayout cfg.ring.world (cfg.ring.node r).slotBytes with
  | none =>
    rw [hlayout] at h
    cases h
  | some layout =>
    unfold roceLayout at hlayout
    split_ifs at hlayout with hbad
    exact not_lt.mp fun hlt => hbad (.inl hlt)

/-- Another rank. -/
theorem Setting.exists_peer (cfg : Setting V) (hr : r < cfg.world) :
    ∃ p, cfg.ring.Active r p 0 := by
  have htwo := cfg.two_le_world hr
  by_cases hzero : r = 0
  · exact ⟨1, cfg.active_zero hr htwo (by omega)⟩
  · exact ⟨0, cfg.active_zero hr (by omega) (Ne.symm hzero)⟩

theorem Inv.start : Inv cfg (State.start cfg) where
  rank r hr :=
    { kernel :=
        { op_pos := Nat.one_pos
          epoch := rfl
          needs := fun t ht => absurd ht List.not_mem_nil
          staged := fun i hi => absurd hi List.not_mem_nil
          held := fun h => absurd h (Nat.lt_irrefl 1)
          sized := fun h => absurd h List.not_mem_nil
          sized_held := fun h => absurd h (Nat.lt_irrefl 1)
          doorbell := rfl }
      proxy :=
        { lastSeq := rfl
          holds := Nat.zero_le _
          past := fun p k _ h => h.elim
          ahead := fun p k _ _ => rfl } }
  net :=
    { path := fun p q k ha =>
        { numbered := rfl
          length_le := Nat.zero_le _
          seq := fun m hm => absurd hm List.not_mem_nil
          todo := fun m hm => absurd hm List.not_mem_nil
          taken := fun m hm => absurd hm List.not_mem_nil
          flagged := fun slot _ => by
            show 0 = word (if 0 % 2 = slot then 0 else 0 - 1)
            rw [ite_self]
            rfl
          outstanding := Nat.zero_le _
          seen := fun b t h => absurd h List.not_mem_nil
          finished := le_rfl
          received := fun n hle hn => absurd (hle.trans hn) (Nat.not_succ_le_zero 0) }
      quiet := fun p q k _ => rfl
      got := fun q _ p i h => absurd h List.not_mem_nil
      result := fun q _ n hpos hlt => absurd hlt (Nat.not_lt.mpr hpos) }

/-- Between two operations, a kernel is at most two ahead. -/
theorem Inv.op_le_posted (hinv : Inv cfg S) (hr : r < cfg.world)
    (hpast : ∀ e, ¬(S.rank r).proxy.Past e) : (S.rank r).op ≤ (S.rank r).opsPosted + 2 := by
  obtain ⟨p, ha⟩ := cfg.exists_peer hr
  have hop := hinv.op_le_writes ha
  rwa [(hinv.rank r hr).proxy.ahead p 0 ha (hpast _)] at hop

/-- A step of a rank that neither its kernel nor its schedule takes. -/
theorem Inv.mark (hinv : Inv cfg S) (hr : r < cfg.world) (error failed : Bool) :
    Inv cfg (S.setRank r { S.rank r with error := error, failed := failed }) := by
  have hrank := hinv.rank r hr
  exact hinv.setRank ⟨hrank.kernel.proxy .., hrank.proxy.kernel rfl rfl rfl rfl le_rfl⟩
    (hinv.net.setRank rfl le_rfl (fun q k ha => (hinv.net.path r q k ha).outstanding)
      (fun p k ha => (hinv.net.path p r k ha).seen)
      (fun p k ha => (hinv.net.path p r k ha).finished) (hinv.net.got r hr) (hinv.net.result r hr))

/-- **A completion** is taken of a write that has landed. -/
theorem Inv.complete (hinv : Inv cfg S) (hr : r < cfg.world)
    (h : (S.rank r).complete (cfg.ctx r) (S.queue (r, p, k)).length p k = some R) :
    Inv cfg (S.setRank r R) := by
  unfold Rank.complete at h
  dsimp only at h
  split_ifs at h with hguard
  obtain rfl := Option.some.inj h
  have hrank := hinv.rank r hr
  refine hinv.proxyStep hr ⟨hrank.kernel.proxy .., hrank.proxy.kernel rfl rfl rfl rfl le_rfl, rfl,
    rfl, rfl, rfl, rfl⟩ rfl fun q j ha => ?_
  have hout := (hinv.net.path r q j ha).outstanding
  show _ ≤ Function.update (S.rank r).outstanding _ _ _
  rw [Function.update_apply]
  split_ifs with heq
  · -- the device has one path to the peer
    obtain ⟨hhca, rfl⟩ := Prod.mk.inj heq
    have hs := scheduled_of_setUp cfg.setUp hr
    obtain rfl : j = k := hs.different q (by rw [hs.world_eq]; exact ha.peer)
      (by rw [hs.rank_eq]; exact ha.other) j ha.path k hguard.1 hhca
    have hlt := hguard.2
    omega
  · exact hout

/-- A step of a proxy that posts nothing, when it is taken. -/
theorem Inv.byProxy (hinv : Inv cfg S) (hr : r < cfg.world) {f : Rank V → Option (Rank V)}
    (hf : ∀ R, f (S.rank r) = some R → ProxyStep cfg r (S.rank r) R ∧
      R.flagWrites = (S.rank r).flagWrites ∧ R.outstanding = (S.rank r).outstanding)
    (h : S.byProxy r f = some S') : Inv cfg S' := by
  unfold State.byProxy at h
  split_ifs at h
  obtain ⟨R, hR, rfl⟩ := Option.map_eq_some_iff.mp h
  obtain ⟨hstep, hwrites, hout⟩ := hf R hR
  refine hinv.proxyStep hr hstep hwrites fun q k ha => ?_
  rw [hout]
  exact (hinv.net.path r q k ha).outstanding

/-- The doorbell has rung for two operations at most that are not posted. -/
theorem Inv.poll (hinv : Inv cfg S) (hr : r < cfg.world) (h : (S.rank r).poll = some R) :
    ProxyStep cfg r (S.rank r) R ∧ R.flagWrites = (S.rank r).flagWrites ∧
      R.outstanding = (S.rank r).outstanding := by
  refine (hinv.rank r hr).poll (fun hidle => ?_) h
  have hop := hinv.op_le_posted hr (by rw [hidle]; exact fun _ => id)
  exact (S.rank r).rung_le.trans hop

/-- A size is read when the kernel is at most two operations ahead. -/
theorem Inv.op_le_fetch (hinv : Inv cfg S) (hr : r < cfg.world)
    (h : (S.rank r).fetch (cfg.ctx r) = some R) : (S.rank r).op ≤ (S.rank r).opsPosted + 2 := by
  refine hinv.op_le_posted hr fun e hpast => ?_
  unfold Rank.fetch at h
  cases hproxy : (S.rank r).proxy with
  | fetch count =>
    rw [hproxy] at hpast
    exact hpast
  | _ =>
    rw [hproxy] at h
    exact absurd h.symm (Option.some_ne_none R)

theorem Inv.fetch (hinv : Inv cfg S) (hr : r < cfg.world)
    (h : (S.rank r).fetch (cfg.ctx r) = some R) :
    ProxyStep cfg r (S.rank r) R ∧ R.flagWrites = (S.rank r).flagWrites ∧
      R.outstanding = (S.rank r).outstanding :=
  (hinv.rank r hr).fetch hr (hinv.op_le_fetch hr h) h

/-- **Every step keeps the invariant.** -/
theorem Inv.step (hinv : Inv cfg S) {a : Action} (h : step cfg S a = some S') : Inv cfg S' := by
  unfold RingTransport.step at h
  split_ifs at h with hr
  cases a with
  | exec r t =>
    unfold stepOf at h
    dsimp only at h
    split_ifs at h with hexec
    obtain rfl := Option.some.inj h
    exact hinv.exec hr hexec.2.1 hexec.2.2
  | timeout r =>
    obtain rfl := Option.some.inj h
    exact hinv.mark hr true (S.rank r).failed
  | finish r =>
    obtain ⟨R, hR, rfl⟩ := Option.map_eq_some_iff.mp h
    exact hinv.finish hr hR
  | poll r => exact hinv.byProxy hr (fun R hR => hinv.poll hr hR) h
  | fetch r => exact hinv.byProxy hr (fun R hR => hinv.fetch hr hR) h
  | post r => exact hinv.post hr h
  | await r => exact hinv.byProxy hr (fun R hR => (hinv.rank r hr).await hr hR) h
  | commit r => exact hinv.byProxy hr (fun R hR => (hinv.rank r hr).commit hR) h
  | complete r peer path =>
    have hcomplete : S.byProxy r
      (Rank.complete (cfg.ctx r) (S.queue (r, peer, path)).length peer path) = some S' := h
    unfold State.byProxy at hcomplete
    split_ifs at hcomplete
    obtain ⟨R, hR, rfl⟩ := Option.map_eq_some_iff.mp hcomplete
    exact hinv.complete hr hR
  | giveUp r =>
    obtain rfl := Option.some.inj h
    exact hinv.mark hr (S.rank r).error true
  | stop r => exact hinv.byProxy hr (fun R hR => (hinv.rank r hr).stop (.inl hR)) h
  | restart r => exact hinv.byProxy hr (fun R hR => (hinv.rank r hr).stop (.inr hR)) h
  | take p q path j i => exact hinv.take h
  | land p q path i => exact hinv.land h
  | flag p q path => exact hinv.landFlag h

/-- **The invariant holds in every reachable state.** -/
theorem inv_of_reachable (h : Reachable cfg S) : Inv cfg S :=
  h.invariant (Inv cfg) Inv.start fun _ _ _ hinv _ hs => hinv.step hs

/-! ## Safety -/

/-- A flag is the one that is waited for exactly when its write has landed. -/
theorem Inv.flag_iff (hinv : Inv cfg S) (ha : cfg.ring.Active p q k) :
    S.flag (q, waitAddress q p k (slotOf (S.rank q).seq)) = (S.rank q).seq ↔
      (S.rank q).op ≤ S.landed p q k := by
  refine ⟨hinv.landed_of_flag ha, fun hle => ?_⟩
  have hkernel := (hinv.rank q ha.peer).kernel
  have hlanded := (hinv.landed_le ha).1
  have hwrites := hinv.writes_le ha
  have hop := hinv.op_le ha.peer ha.rank
  have hrung := (S.rank q).rung_le
  have hrung' := (S.rank p).rung_le
  show S.flag (q, flagAddress p q k (slotOf (S.rank q).seq)) = (S.rank q).seq
  rw [hkernel.seq_eq, slotOf_word,
    (hinv.net.path p q k ha).flagged _ (Nat.mod_lt _ Nat.two_pos)]
  refine congrArg word ?_
  -- the operation after this one has the other slot
  unfold lastOf
  split_ifs <;> omega

/-- **The safety of the ring transport.** -/
structure TransportSafe (cfg : Setting V) (S : State V) : Prop where
  /-- a wait ends when the write it is for has landed, and not before -/
  waits : ∀ p q k, cfg.ring.Active p q k →
    (S.flag (q, waitAddress q p k (slotOf (S.rank q).seq)) = (S.rank q).seq ↔
      (S.rank q).op ≤ S.landed p q k)
  /-- after its waits, a block finds the input of every peer for this operation -/
  slot_holds : ∀ p < cfg.world, ∀ q < cfg.world, p ≠ q → ∀ b,
    SeenAll cfg q b (S.rank q).done → ∀ i < cfg.packs (S.rank q).op,
    S.recv (q, p, (S.rank q).op % 2, i) = cfg.input p (S.rank q).op i
  /-- what a finished operation has read is the input of every peer -/
  finished : ∀ q < cfg.world, ∀ n, 0 < n → n < (S.rank q).op → ∀ p < cfg.world, p ≠ q →
    ∀ i < cfg.packs n, (S.rank q).result n (p, i) = cfg.input p n i
  /-- no rank is more than one operation ahead -/
  together : ∀ p < cfg.world, ∀ q < cfg.world, (S.rank q).op ≤ (S.rank p).op + 1
  /-- a write under way finds what it was posted for in the send slot -/
  send_held : ∀ p q k, cfg.ring.Active p q k → ∀ m ∈ S.queue (p, q, k), ∀ i ∈ m.todo,
    (S.rank p).send (slotOf m.seq, i) = cfg.input p m.op i
  /-- between two operations, every path has had one write for each operation -/
  counted : ∀ r < cfg.world, (S.rank r).proxy = .idle → ∀ p k, cfg.ring.Active r p k →
    (S.rank r).flagWrites (p, k) = (S.rank r).opsPosted
  /-- no proxy finds a doorbell skipped, a wrong size or a path without its device -/
  no_fail : ∀ r < cfg.world, ∀ R, ((S.rank r).poll = some R ∨
    (S.rank r).fetch (cfg.ctx r) = some R ∨ (S.rank r).await (cfg.ctx r) = some R) →
    R.failed = (S.rank r).failed

theorem fourRing_world_le : fourRing.world ≤ 8 := by decide

/-- Four ranks on the canonical map, with operations of one pack. -/
def fourSetting : Setting ℕ where
  ring := fourRing
  py := asciiPy
  setUp := setUp_fourRing
  slotBytes := 4096
  slots _ _ := rfl
  nbytes _ := 16
  nbytes_pos _ := Nat.succ_ne_zero 15
  nbytes_le _ := Nat.le_of_ble_eq_true rfl
  nbytes_mod _ := rfl
  input r n i := 100 * r + 10 * n + i
  threads := 8
  threads_pos := Nat.succ_pos 7
  threads_ge := le_rfl
  world_le := fourRing_world_le
  grid _ _ := 1
  grid_pos _ _ := Nat.one_pos
  garbage := 0

/-- The kernel of a rank up to its doorbell, and the post of its proxy. -/
def ringActions (r : ℕ) : List Action :=
  [.exec r (.stage 0), .exec r .setNbytes, .exec r .ring, .poll r, .fetch r] ++
    List.replicate 8 (.post r) ++ [.commit r]

/-- The deliveries of a rank; the one pack is on the first path. -/
def deliverActions (r : ℕ) : List Action :=
  (activePaths (fourCtx r)).flatMap fun e =>
    (if e.2 = 0 then [.take r e.1 0 0 0, .land r e.1 0 0] else []) ++ [.flag r e.1 e.2]

/-- The waits and reads of a rank. -/
def readActions (r : ℕ) : List Action :=
  ((List.range 8).flatMap fun t =>
    (fourSetting.waits r t).map fun e => .exec r (.see 0 t e.1 e.2)) ++
  ((List.range 4).filter (· ≠ r)).map (fun p => .exec r (.read p 0)) ++ [.finish r]

/-- One operation on every rank. -/
def fourRun : List Action :=
  (List.range 4).flatMap ringActions ++ (List.range 4).flatMap deliverActions ++
    (List.range 4).flatMap readActions

end RingTransport
