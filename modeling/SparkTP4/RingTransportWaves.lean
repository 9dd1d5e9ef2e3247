import SparkTP4.RingTransportSafe

/-!
# The waves of the ring transport

Large payloads are posted in waves so that the writes of two waves do not compete in the network.
This is what the waits of the schedule achieve: a path that the proxy has waited for since it was
posted has nothing under way (`WaveOk`), because completions come after the flags and a path is
posted once. So the writes under way of the operation that is being posted are always of one wave,
in whatever order the queues deliver.
-/

namespace RingTransport

open RingPaths RingPosts

variable {V : Type} {cfg : Setting V} {S S' : State V} {R R' : Rank V} {r p q k n i : ℕ}
  {m : Msg V}

/-- The writes of the operation that is being posted are on paths that have not been waited for. -/
def UnderWay (S : State V) (r : ℕ) (before : List Act) : Prop :=
  ∀ q k, ∀ m ∈ S.queue (r, q, k), m.op = (S.rank r).opsPosted + 1 → (q, k) ∈ pending before

/-- **The schedule of a rank** and what it has under way. -/
def WaveOk (cfg : Setting V) (S : State V) (r : ℕ) : Prop :=
  ∀ count todo, (S.rank r).proxy = .post count todo → ∃ before,
    cfg.schedule r ((S.rank r).opsPosted + 1) = before ++ todo ∧ UnderWay S r before

/-! ## The steps -/

/-- Nothing changes but that writes leave the queues. -/
theorem WaveOk.congr (h : WaveOk cfg S r) (hproxy : (S'.rank r).proxy = (S.rank r).proxy)
    (hposted : (S'.rank r).opsPosted = (S.rank r).opsPosted)
    (hqueue : ∀ q k, ∀ m' ∈ S'.queue (r, q, k), ∃ m ∈ S.queue (r, q, k), m.op = m'.op) :
    WaveOk cfg S' r := by
  intro count todo htodo
  rw [hproxy] at htodo
  obtain ⟨before, heq, hunder⟩ := h count todo htodo
  refine ⟨before, by rw [hposted]; exact heq, fun q k m' hm' hop => ?_⟩
  obtain ⟨m, hm, hmop⟩ := hqueue q k m' hm'
  rw [hposted] at hop
  exact hunder q k m hm (hmop.trans hop)

/-- A step of a rank is no step of another. -/
theorem WaveOk.other (h : WaveOk cfg S r) (hne : r ≠ p) : WaveOk cfg (S.setRank p R) r :=
  h.congr (by rw [setRank_of_ne hne]) (by rw [setRank_of_ne hne]) fun _ _ m hm => ⟨m, hm, rfl⟩

/-- A step of a rank that leaves its schedule alone. -/
theorem WaveOk.same (h : WaveOk cfg S r) (hproxy : R.proxy = (S.rank p).proxy)
    (hposted : R.opsPosted = (S.rank p).opsPosted) : WaveOk cfg (S.setRank p R) r := by
  by_cases hne : r = p
  · subst hne
    exact h.congr (by rw [setRank_self, hproxy]) (by rw [setRank_self, hposted])
      fun _ _ m hm => ⟨m, hm, rfl⟩
  · exact h.other hne

/-- A rank that is not in a schedule. -/
theorem waveOk_of_not_post (h : ∀ count todo, (S.rank r).proxy ≠ .post count todo) :
    WaveOk cfg S r := fun count todo htodo => absurd htodo (h count todo)

/-- A step after which a proxy is not in a schedule. -/
theorem WaveOk.leave (h : WaveOk cfg S r) (hpost : ∀ count todo, R.proxy ≠ .post count todo) :
    WaveOk cfg (S.setRank p R) r := by
  by_cases hne : r = p
  · subst hne
    exact waveOk_of_not_post (by rw [setRank_self]; exact hpost)
  · exact h.other hne

/-- **A schedule begins** with nothing under way. -/
theorem Inv.waveOk_fetch (hinv : Inv cfg S) (hr : r < cfg.world) (hok : ∀ r, WaveOk cfg S r)
    (h : (S.rank r).fetch (cfg.ctx r) = some R) (r' : ℕ) : WaveOk cfg (S.setRank r R) r' := by
  by_cases hne : r' = r
  swap
  · exact (hok r').other hne
  subst hne
  obtain ⟨count, hproxy, rfl⟩ := (hinv.rank r' hr).fetch_eq (hinv.op_le_fetch hr h) h
  intro count' todo htodo
  rw [setRank_self] at htodo ⊢
  obtain ⟨rfl, rfl⟩ := Proxy.post.inj htodo
  refine ⟨[], rfl, fun q k m hm hop => ?_⟩
  have ha : cfg.ring.Active r' q k := hinv.active_of_mem hm
  have hle := (hinv.op_of_mem ha hm).2
  rw [(hinv.rank r' hr).proxy.ahead q k ha (by rw [hproxy]; exact id)] at hle
  rw [setRank_self] at hop
  dsimp only at hop
  omega

/-- A path with no write outstanding has none under way. -/
theorem Inv.queue_nil (hinv : Inv cfg S) (ha : cfg.ring.Active p q k)
    (h : (S.rank p).outstanding ((cfg.ctx p).hca q k, q) = 0) : S.queue (p, q, k) = [] := by
  have hle := (hinv.net.path p q k ha).outstanding
  rw [h] at hle
  exact List.length_eq_zero_iff.mp (Nat.le_zero.mp hle)

/-- **A schedule goes on past a wait.** -/
theorem Inv.waveOk_await (hinv : Inv cfg S) (hok : ∀ r, WaveOk cfg S r)
    (h : (S.rank r).await (cfg.ctx r) = some R) (r' : ℕ) : WaveOk cfg (S.setRank r R) r' := by
  by_cases hne : r' = r
  swap
  · exact (hok r').other hne
  subst hne
  -- a wait passes when the paths it is for are empty
  have hskip {count : ℕ} {a : Act} {todo : List Act}
      (hproxy : (S.rank r').proxy = .post count (a :: todo))
      (hempty : ∀ q k before, (q, k) ∈ pending before → (q, k) ∉ Act.pending (pending before) a →
        S.queue (r', q, k) = []) :
      WaveOk cfg (S.setRank r' { S.rank r' with proxy := .post count todo }) r' := by
    intro count' todo' htodo
    rw [setRank_self] at htodo ⊢
    obtain ⟨rfl, rfl⟩ := Proxy.post.inj htodo
    obtain ⟨before, heq, hunder⟩ := hok r' count (a :: todo) hproxy
    refine ⟨before ++ [a], by rw [List.append_assoc]; exact heq, fun q k m hm hop => ?_⟩
    rw [setRank_self] at hop
    have hmem := hunder q k m hm hop
    rw [pending, List.foldl_append]
    by_contra hnot
    have hnil := hempty q k before hmem hnot
    change m ∈ S.queue (r', q, k) at hm
    rw [hnil] at hm
    exact List.not_mem_nil hm
  unfold Rank.await at h
  cases hproxy : (S.rank r').proxy with
  | post count todo =>
    rw [hproxy] at h
    cases todo with
    | nil => exact absurd h.symm (Option.some_ne_none R)
    | cons a todo =>
      cases a with
      | post => exact absurd h.symm (Option.some_ne_none R)
      | drainPath peer path =>
        dsimp only at h
        split_ifs at h with hzero
        obtain rfl := Option.some.inj h
        refine hskip hproxy fun q k before hmem hnot => ?_
        have hqk : (q, k) = (peer, path) := by
          by_contra hne
          exact hnot (List.mem_filter.mpr ⟨hmem, decide_eq_true hne⟩)
        obtain ⟨rfl, rfl⟩ := Prod.mk.inj hqk
        by_contra hne
        obtain ⟨m, hm⟩ := List.exists_mem_of_ne_nil _ hne
        exact hne (hinv.queue_nil (hinv.active_of_mem hm) hzero)
      | drainPeer peer =>
        dsimp only at h
        split_ifs at h with hzero
        obtain rfl := Option.some.inj h
        refine hskip hproxy fun q k before hmem hnot => ?_
        have hq : q = peer := by
          by_contra hne
          exact hnot (List.mem_filter.mpr ⟨hmem, decide_eq_true hne⟩)
        subst hq
        by_contra hne
        obtain ⟨m, hm⟩ := List.exists_mem_of_ne_nil _ hne
        have ha := hinv.active_of_mem hm
        exact hne (hinv.queue_nil ha (hzero k ha.path))
      | fail =>
        obtain rfl := Option.some.inj h
        exact (hok r').same hproxy.symm rfl
  | _ =>
    rw [hproxy] at h
    exact absurd h.symm (Option.some_ne_none R)

/-- **A post** puts its path among those that are pending. -/
theorem waveOk_post (hok : ∀ r, WaveOk cfg S r) (h : S.post cfg r = some S') (r' : ℕ) :
    WaveOk cfg S' r' := by
  unfold State.post at h
  split_ifs at h
  obtain ⟨⟨R, p, k, m⟩, hpost, rfl⟩ := Option.map_eq_some_iff.mp h
  unfold Rank.post at hpost
  cases hproxy : (S.rank r).proxy with
  | post count todo =>
    rw [hproxy] at hpost
    cases todo with
    | nil => exact absurd hpost.symm (Option.some_ne_none _)
    | cons a todo =>
      cases a with
      | post peer path offset bytes =>
        dsimp only at hpost
        split_ifs at hpost
        obtain ⟨rfl, hpath⟩ := Prod.mk.inj (Option.some.inj hpost)
        obtain ⟨rfl, hmsg⟩ := Prod.mk.inj hpath
        obtain ⟨rfl, rfl⟩ := Prod.mk.inj hmsg
        by_cases hne : r' = r
        swap
        · refine (hok r').congr (congrArg Rank.proxy (setRank_of_ne hne))
            (congrArg Rank.opsPosted (setRank_of_ne hne)) fun q j m' hm' => ⟨m', ?_, rfl⟩
          change m' ∈ Function.update S.queue (r, peer, path) _ (r', q, j) at hm'
          rwa [Function.update_of_ne fun heq => hne (Prod.mk.inj heq).1] at hm'
        subst hne
        intro count' todo' htodo
        change ((S.setRank r' _).rank r').proxy = _ at htodo
        rw [setRank_self] at htodo
        obtain ⟨rfl, rfl⟩ := Proxy.post.inj htodo
        obtain ⟨before, heq, hunder⟩ := hok r' count _ hproxy
        refine ⟨before ++ [.post peer path offset bytes], ?_, fun q j m' hm' hop => ?_⟩
        · show cfg.schedule r' (((S.setRank r' _).rank r').opsPosted + 1) = _
          rw [setRank_self, List.append_assoc]
          exact heq
        · change m'.op = ((S.setRank r' _).rank r').opsPosted + 1 at hop
          rw [setRank_self] at hop
          change m' ∈ Function.update S.queue (r', peer, path) _ (r', q, j) at hm'
          rw [pending, List.foldl_append]
          by_cases hqj : (q, j) = (peer, path)
          · exact List.mem_cons.mpr (.inl hqj)
          · have hne : (r', q, j) ≠ (r', peer, path) := fun h => hqj (Prod.mk.inj h).2
            rw [Function.update_of_ne hne] at hm'
            exact List.mem_cons_of_mem _ (hunder q j m' hm' hop)
      | _ => exact absurd hpost.symm (Option.some_ne_none _)
  | _ =>
    rw [hproxy] at hpost
    exact absurd hpost.symm (Option.some_ne_none _)

/-- A step of the proxy of a rank, when it is taken. -/
theorem waveOk_byProxy {f : Rank V → Option (Rank V)}
    (hf : ∀ R, f (S.rank r) = some R → ∀ r', WaveOk cfg (S.setRank r R) r')
    (h : S.byProxy r f = some S') (r' : ℕ) : WaveOk cfg S' r' := by
  unfold State.byProxy at h
  split_ifs at h
  obtain ⟨R, hR, rfl⟩ := Option.map_eq_some_iff.mp h
  exact hf R hR r'

/-- The doorbell is read outside of a schedule. -/
theorem waveOk_poll (hok : ∀ r, WaveOk cfg S r) (h : (S.rank r).poll = some R) (r' : ℕ) :
    WaveOk cfg (S.setRank r R) r' := by
  refine (hok r').leave fun count todo => ?_
  unfold Rank.poll at h
  cases hproxy : (S.rank r).proxy with
  | idle =>
    rw [hproxy] at h
    dsimp only at h
    split_ifs at h
    · obtain rfl := Option.some.inj h
      rw [hproxy]
      exact Proxy.noConfusion
    · obtain rfl := Option.some.inj h
      exact Proxy.noConfusion
    · obtain rfl := Option.some.inj h
      exact Proxy.noConfusion
  | _ =>
    rw [hproxy] at h
    exact absurd h.symm (Option.some_ne_none R)

theorem waveOk_commit (hok : ∀ r, WaveOk cfg S r) (h : (S.rank r).commit = some R) (r' : ℕ) :
    WaveOk cfg (S.setRank r R) r' := by
  refine (hok r').leave fun count todo => ?_
  unfold Rank.commit at h
  cases hproxy : (S.rank r).proxy with
  | post count' todo' =>
    rw [hproxy] at h
    cases todo' with
    | cons a todo' => exact absurd h.symm (Option.some_ne_none R)
    | nil =>
      obtain rfl := Option.some.inj h
      show nextOp count' ≠ _
      unfold nextOp
      split_ifs <;> exact Proxy.noConfusion
  | _ =>
    rw [hproxy] at h
    exact absurd h.symm (Option.some_ne_none R)

theorem waveOk_stop (hok : ∀ r, WaveOk cfg S r)
    (h : (S.rank r).stop = some R ∨ (S.rank r).restart = some R) (r' : ℕ) :
    WaveOk cfg (S.setRank r R) r' := by
  refine (hok r').leave fun count todo => ?_
  unfold Rank.stop Rank.restart at h
  cases hproxy : (S.rank r).proxy with
  | idle =>
    rw [hproxy] at h
    obtain h | h := h
    · obtain rfl := Option.some.inj h
      exact Proxy.noConfusion
    · exact absurd h.symm (Option.some_ne_none R)
  | stopped =>
    rw [hproxy] at h
    obtain h | h := h
    · exact absurd h.symm (Option.some_ne_none R)
    · obtain rfl := Option.some.inj h
      exact Proxy.noConfusion
  | _ =>
    rw [hproxy] at h
    obtain h | h := h <;> exact absurd h.symm (Option.some_ne_none R)

/-- **A step of the network** takes nothing on. -/
theorem waveOk_network (hok : ∀ r, WaveOk cfg S r) (recv : ℕ × ℕ × ℕ × ℕ → V)
    (flag : ℕ × ℕ → UInt32) {e : ℕ × ℕ × ℕ} {L : List (Msg V)}
    (h : ∀ m' ∈ L, ∃ m ∈ S.queue e, m.op = m'.op) (r' : ℕ) :
    WaveOk cfg { S with recv := recv, flag := flag, queue := Function.update S.queue e L } r' := by
  refine (hok r').congr rfl rfl fun q k m' hm' => ?_
  change m' ∈ Function.update S.queue e L (r', q, k) at hm'
  by_cases heq : (r', q, k) = e
  · rw [heq, Function.update_self] at hm'
    rw [heq]
    exact h m' hm'
  · rw [Function.update_of_ne heq] at hm'
    exact ⟨m', hm', rfl⟩

theorem waveOk_take (hok : ∀ r, WaveOk cfg S r) {j : ℕ} (h : S.take p q k j i = some S') (r' : ℕ) :
    WaveOk cfg S' r' := by
  unfold State.take at h
  cases hget : (S.queue (p, q, k))[j]? with
  | none =>
    rw [hget] at h
    exact absurd h.symm (Option.some_ne_none S')
  | some m =>
    rw [hget] at h
    dsimp only at h
    split_ifs at h
    obtain rfl := Option.some.inj h
    refine waveOk_network hok _ _ (fun m' hm' => ?_) r'
    obtain hm' | rfl := List.mem_or_eq_of_mem_set hm'
    · exact ⟨m', hm', rfl⟩
    · exact ⟨m, List.mem_of_getElem? hget, rfl⟩

theorem waveOk_land (hok : ∀ r, WaveOk cfg S r) (h : S.land p q k i = some S') (r' : ℕ) :
    WaveOk cfg S' r' := by
  unfold State.land at h
  cases hqueue : S.queue (p, q, k) with
  | nil =>
    rw [hqueue] at h
    exact absurd h.symm (Option.some_ne_none S')
  | cons m rest =>
    rw [hqueue] at h
    dsimp only at h
    cases hfind : m.taken.find? fun e => e.1 = i with
    | none =>
      rw [hfind] at h
      exact absurd h.symm (Option.some_ne_none S')
    | some e =>
      rw [hfind] at h
      obtain rfl := Option.some.inj h
      refine waveOk_network hok _ _ (fun m' hm' => ?_) r'
      rw [hqueue]
      obtain rfl | hm' := List.mem_cons.mp hm'
      · exact ⟨m, List.mem_cons_self, rfl⟩
      · exact ⟨m', List.mem_cons_of_mem m hm', rfl⟩

theorem waveOk_landFlag (hok : ∀ r, WaveOk cfg S r) (h : S.landFlag p q k = some S') (r' : ℕ) :
    WaveOk cfg S' r' := by
  unfold State.landFlag at h
  cases hqueue : S.queue (p, q, k) with
  | nil =>
    rw [hqueue] at h
    exact absurd h.symm (Option.some_ne_none S')
  | cons m rest =>
    rw [hqueue] at h
    dsimp only at h
    split_ifs at h
    obtain rfl := Option.some.inj h
    refine waveOk_network hok _ _ (fun m' hm' => ⟨m', ?_, rfl⟩) r'
    rw [hqueue]
    exact List.mem_cons_of_mem m hm'

/-- **Every step keeps the schedules** and what they have under way. -/
theorem waveOk_step (hinv : Inv cfg S) (hok : ∀ r, WaveOk cfg S r) {a : Action}
    (h : step cfg S a = some S') (r' : ℕ) : WaveOk cfg S' r' := by
  unfold RingTransport.step at h
  split_ifs at h with hr
  cases a with
  | exec r t =>
    unfold stepOf at h
    dsimp only at h
    split_ifs at h
    obtain rfl := Option.some.inj h
    exact (hok r').same exec_proxy exec_opsPosted
  | timeout r =>
    obtain rfl := Option.some.inj h
    exact (hok r').same rfl rfl
  | finish r =>
    obtain ⟨R, hR, rfl⟩ := Option.map_eq_some_iff.mp h
    unfold Rank.finish at hR
    split_ifs at hR
    obtain rfl := Option.some.inj hR
    exact (hok r').same rfl rfl
  | poll r => exact waveOk_byProxy (fun R hR => waveOk_poll hok hR) h r'
  | fetch r => exact waveOk_byProxy (fun R hR => hinv.waveOk_fetch hr hok hR) h r'
  | post r => exact waveOk_post hok h r'
  | await r => exact waveOk_byProxy (fun R hR => hinv.waveOk_await hok hR) h r'
  | commit r => exact waveOk_byProxy (fun R hR => waveOk_commit hok hR) h r'
  | complete r peer path =>
    refine waveOk_byProxy (fun R hR r' => ?_) h r'
    unfold Rank.complete at hR
    dsimp only at hR
    split_ifs at hR
    obtain rfl := Option.some.inj hR
    exact (hok r').same rfl rfl
  | giveUp r =>
    obtain rfl := Option.some.inj h
    exact (hok r').same rfl rfl
  | stop r => exact waveOk_byProxy (fun R hR => waveOk_stop hok (.inl hR)) h r'
  | restart r => exact waveOk_byProxy (fun R hR => waveOk_stop hok (.inr hR)) h r'
  | take p q path j i => exact waveOk_take hok h r'
  | land p q path i => exact waveOk_land hok h r'
  | flag p q path => exact waveOk_landFlag hok h r'

theorem waveOk_of_reachable (h : Reachable cfg S) : Inv cfg S ∧ ∀ r, WaveOk cfg S r := by
  refine h.invariant (fun S => Inv cfg S ∧ ∀ r, WaveOk cfg S r)
    ⟨Inv.start, fun r => waveOk_of_not_post fun _ _ => Proxy.noConfusion⟩ ?_
  exact fun S a S' hS _ hs => ⟨hS.1.step hs, waveOk_step hS.1 hS.2 hs⟩

/-- A rank with two paths to everyone and the schedule `mixed2`. -/
def waveNode (r : ℕ) : Node :=
  { fourNode r with
    env :=
      { peerHcaMaps := some ("1=0/2,2=0/3,3=1/3; 0=1/3,2=0/2,3=0/3;" ++
          "0=1/2,1=1/3,3=0/2; 0=0/2,1=1/2,2=1/3").toList
        waveMode := some "mixed2".toList
        twoWaveThreshold := some "16".toList }
    machine := ⟨true, fun _ => ⟨16, false, 2⟩, fun _ _ => true⟩ }

@[irreducible] def waveCtx (r : ℕ) : Ctx :=
  okOr ⟨4, r, 4, 0, 0, 0, ⟨0, 0, 0, 0, 0, 0, 0, 0⟩, 4, .two, 0, [], [], noTables⟩
    ((waveNode r).start asciiPy 4 r)

theorem start_waveNode (hr : r < 4) : (waveNode r).start asciiPy 4 r = .ok (waveCtx r) := by
  have hall : ∀ r < 4, ((waveNode r).start asciiPy 4 r).isOk = true := by decide +kernel
  rw [waveCtx, ← eq_okOr (hall r hr)]

def waveBlobs : List Blob :=
  (List.range 4).map fun r => localBlob (waveCtx r) (waveNode r).devices

@[irreducible] def waveLinks (r : ℕ) : Except ConnectError Links :=
  roceConnect (waveCtx r) (waveNode r).devices (waveNode r).modifies waveBlobs

def waveRing : Ring where
  world := 4
  node := waveNode
  ctx := waveCtx
  blobs := waveBlobs
  links r := okOr noLinks (waveLinks r)

theorem connect_waveNode (hr : r < 4) :
    roceConnect (waveRing.ctx r) (waveRing.node r).devices (waveRing.node r).modifies
      waveRing.blobs = .ok (waveRing.links r) := by
  have hall : ∀ r < 4, (waveLinks r).isOk = true := by decide +kernel
  have hrun : roceConnect (waveRing.ctx r) (waveRing.node r).devices (waveRing.node r).modifies
      waveRing.blobs = waveLinks r := by
    unfold waveLinks
    rfl
  rw [hrun]
  exact eq_okOr (hall r hr)

theorem setUp_waveRing : waveRing.SetUp asciiPy where
  started _ hr := start_waveNode hr
  published := by rfl
  connected _ hr := connect_waveNode hr
  distinct := by
    have hn : ∀ r < 4, (waveCtx r).nHca = 4 := by decide +kernel
    rintro ⟨r, h, p⟩ ⟨r', h', p'⟩ hq hq' heq
    have hh : h < 4 := (hn r hq.1) ▸ hq.2.1
    have hh' : h' < 4 := (hn r' hq'.1) ▸ hq'.2.1
    have hgid : 4 * r + h = 4 * r' + h' := congrArg Prod.fst heq
    have hqp : 4 * h + p + 1 = 4 * h' + p' + 1 := congrArg Prod.snd heq
    obtain rfl : r = r' := by omega
    obtain rfl : h = h' := by omega
    obtain rfl : p = p' := by omega
    rfl

theorem waveRing_world_le : waveRing.world ≤ 8 := by decide

def waveSetting : Setting ℕ :=
  { fourSetting with
    ring := waveRing
    setUp := setUp_waveRing
    slots := fun _ _ => rfl
    world_le := waveRing_world_le }

/-- A proxy is in a schedule. -/
def Proxy.posting : Proxy → Bool
  | .post .. => true
  | _ => false

/-- The first rank, with two writes of its first wave under way. -/
def waveRun : List Action :=
  [.exec 0 (.stage 0), .exec 0 .setNbytes, .exec 0 .ring, .poll 0, .fetch 0, .post 0, .post 0]

end RingTransport
