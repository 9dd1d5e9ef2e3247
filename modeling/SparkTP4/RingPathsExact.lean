import SparkTP4.RingPathsAdmit

/-!
# Every path of the ring ends at the path of the peer

A rank gives the queue pair of each path the address that the peer's map has for the same path,
and the devices of the paths to one peer are different, so what `roce_connect` leaves behind is
known path by path (`Linked`). The two ends of a path count alike, publish what they have, and
so have each other's address; and an address is that of one queue pair only.
-/

namespace RingPaths

open FallibleLoop

/-! ## One rank -/

section Rank

variable {c : Ctx} {d : Devices} {modifies : ℕ → ℕ → QpAttr → Bool} {blobs : List Blob}
  {peer : ℕ → Blob} {D D' : ℕ → ℕ → Prop} {s : Links} {p k : ℕ}

/-- The attributes of the queue pair of a path. -/
def pathAttr (c : Ctx) (d : Devices) (peer : ℕ → Blob) (p k : ℕ) : QpAttr :=
  rtrAttr c d (c.hca p k) ((peer p).peerHca c.rank k) p (peer p)

/-- The other end of a path. -/
def pathRemote (c : Ctx) (peer : ℕ → Blob) (p k : ℕ) : Remote :=
  ⟨(peer p).peerHca c.rank k, (peer p).rkey ((peer p).peerHca c.rank k),
    (peer p).qpNum ((peer p).peerHca c.rank k) c.rank⟩

/-- The paths `D` are connected, and no other. -/
structure Linked (c : Ctx) (d : Devices) (peer : ℕ → Blob) (D : ℕ → ℕ → Prop) (s : Links) :
    Prop where
  qp : ∀ h p attr, s.qp h p = some attr ↔ ∃ k, D p k ∧ h = c.hca p k ∧ attr = pathAttr c d peer p k
  remote : ∀ p k, D p k → s.remote p k = some (pathRemote c peer p k)

theorem Linked.congr (h : Linked c d peer D s) (hD : ∀ p k, D p k ↔ D' p k) :
    Linked c d peer D' s where
  qp h' p attr := by
    rw [h.qp]
    exact exists_congr fun k => and_congr_left fun _ => hD p k
  remote p k hk := h.remote p k ((hD p k).mpr hk)

/-- **One path more.** -/
theorem Linked.path {t t' : Links × ℕ} (h : Linked c d peer D t.1)
    (hnew : ∀ k', D p k' → c.hca p k' ≠ c.hca p k)
    (hok : connectPath c d modifies p (peer p) t k = .ok t') :
    Linked c d peer (fun q j => D q j ∨ q = p ∧ j = k) t'.1 := by
  unfold connectPath at hok
  dsimp only at hok
  split_ifs at hok
  obtain rfl := Except.ok.inj hok
  refine ⟨fun h' q attr => ?_, fun q j hj => ?_⟩
  · show (if h' = c.hca p k ∧ q = p then some (pathAttr c d peer p k) else t.1.qp h' q) = _ ↔ _
    by_cases hq : h' = c.hca p k ∧ q = p
    · -- this queue pair is the one of the new path only
      obtain ⟨rfl, rfl⟩ := hq
      rw [if_pos ⟨rfl, rfl⟩]
      constructor
      · intro heq
        exact ⟨k, .inr ⟨rfl, rfl⟩, rfl, (Option.some.inj heq).symm⟩
      · rintro ⟨k', hk' | ⟨-, rfl⟩, hh, rfl⟩
        · exact absurd hh.symm (hnew k' hk')
        · rfl
    · rw [if_neg hq, h.qp]
      refine exists_congr fun k' => ⟨fun hk' => ⟨.inl hk'.1, hk'.2⟩, ?_⟩
      rintro ⟨hk' | ⟨rfl, rfl⟩, hh, hattr⟩
      · exact ⟨hk', hh, hattr⟩
      · exact absurd ⟨hh, rfl⟩ hq
  · show (if q = p ∧ j = k then some (pathRemote c peer p k) else t.1.remote q j) = _
    by_cases hq : q = p ∧ j = k
    · rw [if_pos hq, hq.1, hq.2]
    · rw [if_neg hq]
      exact h.remote q j (hj.resolve_right hq)

/-- The paths to the ranks below `i`. -/
def Below (c : Ctx) (i p k : ℕ) : Prop := p < i ∧ p ≠ c.rank ∧ k < c.pathCount p

/-- The devices of the paths to a peer are different. -/
def DifferentHcas (c : Ctx) : Prop :=
  ∀ p < c.world, p ≠ c.rank → ∀ k < c.pathCount p, ∀ k' < c.pathCount p,
    c.hca p k = c.hca p k' → k = k'

/-- **One rank more.** -/
theorem Linked.rank {s' : Links} (hdiff : DifferentHcas c) (hp : p < c.world)
    (hblob : blobs[p]? = some (peer p)) (h : Linked c d peer (Below c p) s)
    (hok : connectPeer c d modifies blobs s p = .ok s') :
    Compatible c p (peer p) ∧ Linked c d peer (Below c (p + 1)) s' := by
  unfold connectPeer at hok
  rw [hblob] at hok
  dsimp only at hok
  by_cases hcomp : Compatible c p (peer p)
  swap
  · rw [if_pos hcomp] at hok
    exact nomatch hok
  rw [if_neg (not_not.mpr hcomp)] at hok
  refine ⟨hcomp, ?_⟩
  by_cases hown : p = c.rank
  · rw [if_pos hown] at hok
    obtain rfl := Except.ok.inj hok
    refine h.congr fun q j => and_congr_left fun hq => ?_
    have hne : q ≠ p := hown ▸ hq.1
    omega
  · rw [if_neg hown] at hok
    obtain ⟨t, hfold, ht⟩ := bind_eq_ok.mp hok
    obtain rfl := Except.ok.inj ht
    have hstart : Linked c d peer (fun q j => Below c p q j ∨ q = p ∧ j < 0)
        { s with peerAddr := Function.update s.peerAddr p (peer p).regionAddr } :=
      Linked.congr ⟨h.qp, h.remote⟩ fun q j => by simp
    have hend := foldlM_range_inv
      (fun i (t : Links × ℕ) => Linked c d peer (fun q j => Below c p q j ∨ q = p ∧ j < i) t.1)
      (fun i hi t t' ht hok => ?_) hstart hfold
    · refine hend.congr fun q j => ⟨?_, fun hq => ?_⟩
      · rintro (hq | ⟨rfl, hj⟩)
        · exact ⟨Nat.lt_succ_of_lt hq.1, hq.2⟩
        · exact ⟨Nat.lt_succ_self q, hown, hj⟩
      · obtain hlt | rfl := Nat.lt_succ_iff_lt_or_eq.mp hq.1
        · exact .inl ⟨hlt, hq.2⟩
        · exact .inr ⟨rfl, hq.2.2⟩
    · refine (ht.path (fun k' hk' heq => ?_) hok).congr fun q j => ?_
      · obtain hk' | ⟨-, hk'⟩ := hk'
        · exact absurd hk'.1 (lt_irrefl p)
        · exact hk'.ne (hdiff p hp hown k' (hk'.trans hi) i hi heq)
      · rw [or_assoc]
        refine or_congr_right ?_
        rw [← and_or_left]
        refine and_congr_right fun _ => ?_
        omega

/-- **What `roce_connect` leaves behind**: every path is connected, and the metadata of every
rank is compatible. -/
theorem roceConnect_ok {links : Links} (hdiff : DifferentHcas c)
    (hblob : ∀ p < c.world, blobs[p]? = some (peer p))
    (hok : roceConnect c d modifies blobs = .ok links) :
    (∀ p < c.world, Compatible c p (peer p)) ∧ Linked c d peer (Below c c.world) links := by
  unfold roceConnect at hok
  split_ifs at hok
  refine foldlM_range_inv (fun i s => (∀ p < i, Compatible c p (peer p)) ∧
    Linked c d peer (Below c i) s) (fun i hi s s' hs hok => ?_) ⟨fun p hp => ?_, ?_, ?_⟩ hok
  · obtain ⟨hcomp, hlinked⟩ := Linked.rank hdiff hi (hblob i hi) hs.2 hok
    refine ⟨fun p hp => ?_, hlinked⟩
    obtain hlt | rfl := Nat.lt_succ_iff_lt_or_eq.mp hp
    · exact hs.1 p hlt
    · exact hcomp
  · exact absurd hp (Nat.not_lt_zero p)
  · intro h p attr
    exact ⟨fun heq => (nomatch heq), fun ⟨_, hk, _⟩ => absurd hk.1 (Nat.not_lt_zero p)⟩
  · exact fun p k hk => absurd hk.1 (Nat.not_lt_zero p)

end Rank

/-! ## The two ends of a path -/

section Created

variable {c : Ctx} {nd : Node} {world rank opposite p k : ℕ} {m : List (List ℤ)}

theorem Created.pathCount (h : Created c nd world rank opposite m) (hp : p < world) :
    c.pathCount p = peerPathCount world rank opposite p := by
  rw [Ctx.pathCount, h.pathCounts]
  exact getD_map_range (fun (p : ℕ) => peerPathCount world rank opposite p) 0 hp

/-- The device of a path is the one of the map. -/
theorem Created.hca (h : Created c nd world rank opposite m) (hp : p < world) (hne : p ≠ rank)
    (hk : k < c.pathCount p) : c.hca p k ∈ Finset.range c.nHca ∧ ∃ hlt : k < (m.getD p []).length,
      ((c.hca p k : ℕ) : ℤ) = (m.getD p []).get ⟨k, hlt⟩ := by
  have hrow := h.accepted.row p hp hne
  have hlt : k < (m.getD p []).length := by
    rwa [hrow.length, ← h.pathCount hp]
  have hstored : c.hca p k = ((m.getD p []).getD k 0).toNat := by
    have hget : (m.map storedRow).getD p [] = storedRow (m.getD p []) := by
      simp [List.getD_eq_getElem?_getD, h.accepted.length.symm ▸ hp]
    rw [Ctx.hca, h.peerHca, hget, storedRow, List.getD_append _ _ _ _ hlt]
  rw [List.getD_eq_getElem _ _ hlt] at hstored
  obtain ⟨hzero, hn⟩ := hrow.range _ (List.getElem_mem hlt)
  refine ⟨Finset.mem_range.mpr (by omega), hlt, ?_⟩
  rw [hstored]
  exact Int.toNat_of_nonneg hzero

theorem Created.hca_lt (h : Created c nd world rank opposite m) (hp : p < world) (hne : p ≠ rank)
    (hk : k < c.pathCount p) : c.hca p k < c.nHca :=
  Finset.mem_range.mp (h.hca hp hne hk).1

/-- **The devices of the paths to a peer are different.** -/
theorem Created.differentHcas (h : Created c nd world rank opposite m) : DifferentHcas c := by
  intro p hp hne k hk k' hk' heq
  rw [h.world] at hp
  rw [h.rank] at hne
  obtain ⟨-, hlt, hget⟩ := h.hca hp hne hk
  obtain ⟨-, hlt', hget'⟩ := h.hca hp hne hk'
  rw [heq] at hget
  have hfin := (h.accepted.row p hp hne).nodup.injective_get (hget.symm.trans hget')
  exact congrArg Fin.val hfin

end Created

/-- The ranks count the paths between them alike. -/
theorem peerPathCount_comm {world r p opposite : ℕ} (hr : r < world) (hp : p < world) :
    peerPathCount world r opposite p = peerPathCount world p opposite r := by
  unfold peerPathCount
  refine if_congr eq_comm rfl (if_congr (and_congr_right fun hw => ?_) rfl rfl)
  subst hw
  omega

namespace Ring

variable {py : Py} {g : Ring} {r p k : ℕ}

/-- What a rank has published. -/
def blob (g : Ring) (r : ℕ) : Blob := localBlob (g.ctx r) (g.node r).devices

theorem getElem?_blobs (h : g.SetUp py) (hr : r < g.world) : g.blobs[r]? = some (g.blob r) := by
  have hsome : (fun r => roceLocalBlob (g.ctx r) (g.node r).devices blobBytes) =
      fun r => some (g.blob r) := by
    funext r
    exact if_neg (lt_irrefl blobBytes)
  have hall := h.published
  rw [hsome] at hall
  rw [← Option.some.inj ((List.mapM_pure (m := Option)).symm.trans hall), List.getElem?_map,
    List.getElem?_range hr]
  rfl

/-- A rank that has been set up: it has a map, and its paths are connected. -/
structure Known (g : Ring) (r : ℕ) (m : List (List ℤ)) : Prop where
  created : Created (g.ctx r) (g.node r) g.world r (g.ctx r).oppositePaths m
  compatible : ∀ p < g.world, (g.ctx p).oppositePaths = (g.ctx r).oppositePaths
  linked : Linked (g.ctx r) (g.node r).devices g.blob (Below (g.ctx r) g.world) (g.links r)

theorem exists_known (h : g.SetUp py) (hr : r < g.world) : ∃ m, g.Known r m := by
  obtain ⟨opposite, m, -, hc⟩ := created_of_start hr (h.started r hr)
  have hworld := hc.world
  obtain ⟨hcomp, hlinked⟩ := roceConnect_ok hc.differentHcas
    (fun p hp => getElem?_blobs h (hworld ▸ hp)) (h.connected r hr)
  rw [hworld] at hcomp hlinked
  exact ⟨m, hc.opposite.symm ▸ hc, fun p hp => (hcomp p hp).2.2.2.2.1, hlinked⟩

/-- **The way back**: the peer has the same path to the rank. -/
theorem Active.back (h : g.SetUp py) (ha : g.Active r p k) : g.Active p r k := by
  obtain ⟨m, hr⟩ := exists_known h ha.rank
  obtain ⟨m', hp⟩ := exists_known h ha.peer
  refine ⟨ha.peer, ha.rank, ha.other.symm, ?_⟩
  rw [hp.created.pathCount ha.rank, hr.compatible p ha.peer,
    ← peerPathCount_comm ha.rank ha.peer, ← hr.created.pathCount ha.peer]
  exact ha.path

theorem Active.made (h : g.SetUp py) (ha : g.Active r p k) : g.Made ((g.ctx r).postQp p k) := by
  obtain ⟨m, hr⟩ := exists_known h ha.rank
  have hrank : (g.ctx r).rank = r := hr.created.rank
  unfold Ctx.postQp Made
  dsimp only
  rw [hrank]
  exact ⟨ha.rank, hr.created.hca_lt ha.peer ha.other ha.path, ha.peer, ha.other⟩

/-- The device that the peer has published for a path. -/
theorem peerHca_blob (h : g.SetUp py) (ha : g.Active p r k) :
    (g.blob p).peerHca r k = (g.ctx p).hca r k ∧ (g.ctx p).hca r k < (g.ctx p).nHca := by
  obtain ⟨m, hp⟩ := exists_known h ha.rank
  have hlt := hp.created.hca_lt ha.peer ha.other ha.path
  refine ⟨?_, hlt⟩
  show (if r < (g.ctx p).world ∧ r ≠ (g.ctx p).rank ∧ k < (g.ctx p).pathCount r then
    (g.ctx p).hca r k % 256 else 255) = _
  rw [hp.created.world, hp.created.rank, if_pos ⟨ha.peer, ha.other, ha.path⟩,
    Nat.mod_eq_of_lt (lt_of_lt_of_le hlt (hp.created.hcas.trans (by norm_num)))]

/-- The number that the peer has published for the queue pair of a path. -/
theorem qpNum_blob (h : g.SetUp py) (ha : g.Active p r k) :
    (g.blob p).qpNum ((g.ctx p).hca r k) r = (g.node p).devices.qpNum ((g.ctx p).hca r k) r := by
  obtain ⟨m, hp⟩ := exists_known h ha.rank
  show (if (g.ctx p).hca r k < (g.ctx p).nHca ∧ r < (g.ctx p).world then
    if r = (g.ctx p).rank then 0 else (g.node p).devices.qpNum ((g.ctx p).hca r k) r else 0) = _
  rw [hp.created.world, hp.created.rank, if_pos ⟨(peerHca_blob h ha).2, ha.peer⟩,
    if_neg ha.other]

/-- **The address that a path is given** is that of the other end. -/
theorem pathAttr_address (h : g.SetUp py) (ha : g.Active r p k) :
    ((pathAttr (g.ctx r) (g.node r).devices g.blob p k).dgid,
      (pathAttr (g.ctx r) (g.node r).devices g.blob p k).destQpNum) =
    g.address ((g.ctx p).postQp r k) := by
  obtain ⟨m, hr⟩ := exists_known h ha.rank
  obtain ⟨m', hp⟩ := exists_known h ha.peer
  obtain ⟨hhca, hlt⟩ := peerHca_blob h (ha.back h)
  have hgid : (g.blob p).gid ((g.ctx p).hca r k) = (g.node p).devices.gid ((g.ctx p).hca r k) :=
    if_pos hlt
  unfold pathAttr rtrAttr address Ctx.postQp
  dsimp only
  rw [hr.created.rank, hp.created.rank, hhca, hgid, qpNum_blob h (ha.back h)]

/-- **Connected** are the queue pairs of paths, to their other ends. -/
theorem connectedTo_iff (h : g.SetUp py) {q q' : Qp} (hq : g.Made q) (hq' : g.Made q') :
    g.ConnectedTo q q' ↔ ∃ k, g.Active q.rank q.peer k ∧ q = (g.ctx q.rank).postQp q.peer k ∧
      q' = (g.ctx q.peer).postQp q.rank k := by
  obtain ⟨m, hr⟩ := exists_known h hq.1
  have hrank : (g.ctx q.rank).rank = q.rank := hr.created.rank
  constructor
  · rintro ⟨attr, hattr, haddr⟩
    obtain ⟨k, hbelow, hhca, rfl⟩ := (hr.linked.qp _ _ _).mp hattr
    have ha : g.Active q.rank q.peer k := ⟨hq.1, hbelow.1, hq.2.2.2, hbelow.2.2⟩
    rw [pathAttr_address h ha] at haddr
    refine ⟨k, ha, ?_, (h.distinct _ _ ((ha.back h).made h) hq' haddr).symm⟩
    rw [Ctx.postQp, hrank, ← hhca]
  · rintro ⟨k, ha, hpost, rfl⟩
    refine ⟨_, (hr.linked.qp _ _ _).mpr ⟨k, ⟨ha.peer, ?_, ha.path⟩, ?_, rfl⟩,
      pathAttr_address h ha⟩
    · rw [hrank]
      exact ha.other
    · exact congrArg Qp.hca hpost

/-- Different paths have different queue pairs. -/
theorem Active.eq_of_postQp (h : g.SetUp py) {k' : ℕ} (ha : g.Active r p k)
    (ha' : g.Active r p k') (heq : (g.ctx r).postQp p k = (g.ctx r).postQp p k') : k = k' := by
  obtain ⟨m, hr⟩ := exists_known h ha.rank
  refine hr.created.differentHcas p ?_ ?_ k ha.path k' ha'.path (congrArg Qp.hca heq)
  · rw [hr.created.world]
    exact ha.peer
  · rw [hr.created.rank]
    exact ha.other

/-- **The two ends of a path have each other.** -/
theorem Active.paired (h : g.SetUp py) (ha : g.Active r p k) : g.Paired r p k := by
  obtain ⟨m, hr⟩ := exists_known h ha.rank
  obtain ⟨m', hp⟩ := exists_known h ha.peer
  have hback := ha.back h
  have hmade := ha.made h
  have hmade' := hback.made h
  have hrank : ((g.ctx r).postQp p k).rank = r := hr.created.rank
  refine ⟨hback, hmade, fun q hq => ?_, fun q hq => ?_, ?_⟩
  · rw [connectedTo_iff h hmade hq, hrank]
    constructor
    · rintro ⟨k', ha', hpost, rfl⟩
      rw [ha.eq_of_postQp h ha' hpost]
      rfl
    · rintro rfl
      exact ⟨k, ha, rfl, rfl⟩
  · rw [connectedTo_iff h hq hmade']
    constructor
    · rintro ⟨k', ha', hpost, heq⟩
      -- the other end is on the same path of the same two ranks
      obtain ⟨m'', hq'⟩ := exists_known h ha'.peer
      have hp' : p = q.peer := by
        have hranks := congrArg Qp.rank heq
        rwa [Ctx.postQp, Ctx.postQp, hp.created.rank, hq'.created.rank] at hranks
      have hr' : r = q.rank := congrArg Qp.peer heq
      rw [← hp', ← hr'] at ha' heq hpost
      rw [hpost, hback.eq_of_postQp h (ha'.back h) heq]
    · rintro rfl
      exact ⟨k, hrank.symm ▸ ha, by rw [hrank]; rfl, by rw [hrank]; rfl⟩
  · obtain ⟨hhca, hlt⟩ := peerHca_blob h hback
    have hkey : (g.blob p).rkey ((g.ctx p).hca r k) =
        (g.node p).devices.rkey ((g.ctx p).hca r k) := if_pos hlt
    rw [hr.linked.remote p k ⟨ha.peer, hr.created.rank.symm ▸ ha.other, ha.path⟩, pathRemote,
      hr.created.rank, hhca, hkey, qpNum_blob h hback]

end Ring

/-- A proxy that is created has the map that was accepted. -/
theorem Created.stores {c : Ctx} {nd : Node} {world rank opposite : ℕ} {m : List (List ℤ)}
    (h : Created c nd world rank opposite m) : c.Stores m where
  peerHca := h.peerHca
  pathCount p hp := by
    rw [h.accepted.length] at hp
    rw [h.pathCount hp, h.rank]
    by_cases hne : p = rank
    · rw [if_pos hne, hne, peerPathCount, if_pos rfl]
    · rw [if_neg hne, (h.accepted.row p hp hne).length]

/-- **Path maps agree, and queue pairs match.** -/
theorem paths_exact (py : Py) : PathsExact py where
  admitted _ _ _ _ _ _ hwave hn hrank hlayout h :=
    admitted_of_selectPaths hwave hn hrank hlayout h
  stored n world rank opposite mapping c hrank h hstart := by
    obtain ⟨opposite', m', h', hc⟩ := created_of_start hrank hstart
    obtain ⟨-, rfl⟩ := Prod.mk.inj (Except.ok.inj (h'.symm.trans h))
    exact hc.stores
  paired _ h _ _ _ ha := ha.paired h

/-! ## Four ranks -/

/-- Decimal digits, and blanks. -/
def asciiPy : Py where
  space c := c = ' '
  int text :=
    if text ≠ [] ∧ text.all Char.isDigit then
      some (text.foldl (fun n c => 10 * n + (c.toNat - '0'.toNat)) 0 : ℕ)
    else none

/-- A rank with four devices, in four-path mode. -/
def fourNode (r : ℕ) : Node where
  env :=
    { oppositePaths := some "4".toList
      peerHcaMaps := some ("1=0/2,2=0/3/2/1,3=1/3; 0=1/3,2=0/2,3=0/3/2/1;" ++
        "0=1/2/3/0,1=1/3,3=0/2; 0=0/2,1=1/2/3/0,2=1/3").toList }
  hcaNames := canonicalHcas
  region := 4096
  slotBytes := 4096
  machine := ⟨true, fun _ => ⟨0, false, 0⟩, fun _ _ => true⟩
  devices := ⟨fun h => h + 1, fun h => h, fun h => 4 * r + h, fun _ => 5, fun h p => 4 * h + p + 1⟩
  modifies _ _ _ := true

/-- The value of a computation that succeeds. -/
def okOr {ε α : Type} (d : α) : Except ε α → α
  | .ok a => a
  | .error _ => d

theorem eq_okOr {ε α : Type} {d : α} {x : Except ε α} (h : x.isOk = true) :
    x = .ok (okOr d x) := by
  cases x with
  | ok a => rfl
  | error e => exact nomatch h

@[irreducible] def fourCtx (r : ℕ) : Ctx :=
  okOr ⟨4, r, 4, 0, 0, 0, ⟨0, 0, 0, 0, 0, 0, 0, 0⟩, 4, .two, 0, [], [], noTables⟩
    ((fourNode r).start asciiPy 4 r)

theorem start_fourNode {r : ℕ} (hr : r < 4) :
    (fourNode r).start asciiPy 4 r = .ok (fourCtx r) := by
  have hall : ∀ r < 4, ((fourNode r).start asciiPy 4 r).isOk = true := by decide +kernel
  rw [fourCtx, ← eq_okOr (hall r hr)]

def fourBlobs : List Blob :=
  (List.range 4).map fun r => localBlob (fourCtx r) (fourNode r).devices

@[irreducible] def fourLinks (r : ℕ) : Except ConnectError Links :=
  roceConnect (fourCtx r) (fourNode r).devices (fourNode r).modifies fourBlobs

/-- Four ranks on the canonical map. -/
def fourRing : Ring where
  world := 4
  node := fourNode
  ctx := fourCtx
  blobs := fourBlobs
  links r := okOr noLinks (fourLinks r)

theorem connect_fourNode {r : ℕ} (hr : r < 4) :
    roceConnect (fourRing.ctx r) (fourRing.node r).devices (fourRing.node r).modifies
      fourRing.blobs = .ok (fourRing.links r) := by
  have hall : ∀ r < 4, (fourLinks r).isOk = true := by decide +kernel
  have hrun : roceConnect (fourRing.ctx r) (fourRing.node r).devices (fourRing.node r).modifies
      fourRing.blobs = fourLinks r := by
    unfold fourLinks
    rfl
  rw [hrun]
  exact eq_okOr (hall r hr)

theorem setUp_fourRing : fourRing.SetUp asciiPy where
  started _ hr := start_fourNode hr
  published := by rfl
  connected _ hr := connect_fourNode hr
  distinct := by
    have hn : ∀ r < 4, (fourCtx r).nHca = 4 := by decide +kernel
    rintro ⟨r, h, p⟩ ⟨r', h', p'⟩ hq hq' heq
    have hh : h < 4 := (hn r hq.1) ▸ hq.2.1
    have hh' : h' < 4 := (hn r' hq'.1) ▸ hq'.2.1
    have hgid : 4 * r + h = 4 * r' + h' := congrArg Prod.fst heq
    have hqp : 4 * h + p + 1 = 4 * h' + p' + 1 := congrArg Prod.snd heq
    obtain rfl : r = r' := by omega
    obtain rfl : h = h' := by omega
    obtain rfl : p = p' := by omega
    rfl

/-- The fourth path between two opposite ranks. -/
theorem paths_exact_fourRing : fourRing.Paired 0 2 3 :=
  (paths_exact asciiPy).paired fourRing setUp_fourRing 0 2 3
    ⟨by decide, by decide, by decide, by decide +kernel⟩

end RingPaths
