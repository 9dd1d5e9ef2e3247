import SparkTP4.RingPosts

/-!
# Every schedule posts every path once

The waves, the ranks in turn and the rounds over the devices are each a rearrangement of the
paths to the other ranks. Where the schedule comes from a table – the masks of the waves, the
tables of four-path mode –, this is a fact about the four ranks; the stripes follow the number of
paths to the peer in all of them.
-/

namespace RingPosts

open RingPaths Striping FallibleLoop

/-! ## What a proxy has to schedule -/

/-- The rows of the canonical map, as they are stored. -/
def fourRows (rank : ℕ) : List (List ℤ) := (canonicalMap.getD rank []).map storedRow

/-- The tables of the canonical map. -/
def fourTables (rank : ℕ) : Except CreateError Tables :=
  fillTables ⟨4, rank, canonicalHcas, 0, 0, 0, 4, []⟩ (fourRows rank)

/-- What the schedules rest on. -/
structure Scheduled (c : Ctx) (world rank slotBytes : ℕ) : Prop where
  rank_lt : rank < world
  world_eq : c.world = world
  rank_eq : c.rank = rank
  slot_eq : c.slotBytes = slotBytes
  pathCount : ∀ p < world, c.pathCount p = peerPathCount world rank c.oppositePaths p
  different : DifferentHcas c
  /-- two paths to every rank, or the tables of the canonical map -/
  paths : c.oppositePaths = 2 ∨ c.oppositePaths = 4 ∧ world = 4 ∧
    c.peerHca = fourRows rank ∧ fourTables rank = .ok c.tables

section Start

variable {py : Py} {nd : Node} {world rank : ℕ} {c : Ctx} {mach : Machine} {env : Env} {a : Args}

theorem roceCreate_tables (h : roceCreate mach env a = .ok c) :
    c.slotBytes = a.slotBytes ∧ fillTables a c.peerHca = .ok c.tables := by
  unfold roceCreate at h
  obtain ⟨layout, hgeo, h⟩ := bind_eq_ok.mp h
  cases hmem : mach.calloc with
  | false =>
    rw [hmem] at h
    cases h
  | true =>
    rw [hmem] at h
    obtain ⟨waveMode, -, h⟩ := bind_eq_ok.mp h
    obtain ⟨threshold, -, h⟩ := bind_eq_ok.mp h
    obtain ⟨peerHca, -, h⟩ := bind_eq_ok.mp h
    obtain ⟨-, -, h⟩ := bind_eq_ok.mp h
    obtain ⟨tables, htables, h⟩ := bind_eq_ok.mp h
    obtain ⟨-, -, h⟩ := bind_eq_ok.mp h
    obtain rfl := Except.ok.inj h
    exact ⟨rfl, htables⟩

/-- **A rank that has started** has what its schedules rest on. -/
theorem scheduled_of_start (hrank : rank < world) (h : nd.start py world rank = .ok c) :
    Scheduled c world rank nd.slotBytes := by
  obtain ⟨opposite, m, hselect, hc⟩ := created_of_start hrank h
  obtain ⟨-, hacc, hopp⟩ := selectPaths_ok hrank hselect
  have hcreate : ∃ layout flattened,
      roceCreate nd.machine nd.env (nd.args world rank opposite layout flattened) = .ok c := by
    unfold Node.start at h
    rw [hselect] at h
    obtain ⟨_, hsel, h⟩ := bind_eq_ok.mp h
    obtain rfl := Except.ok.inj hsel
    cases hlayout : roceLayout world nd.slotBytes with
    | none =>
      rw [hlayout] at h
      cases h
    | some layout =>
      rw [hlayout] at h
      obtain ⟨flattened, -, h⟩ := bind_eq_ok.mp h
      exact ⟨layout, flattened, mapError_eq_ok.mp h⟩
  obtain ⟨layout, flattened, hcreate⟩ := hcreate
  obtain ⟨hslot, htables⟩ := roceCreate_tables hcreate
  refine ⟨hrank, hc.world, hc.rank, hslot, fun p hp => ?_, hc.differentHcas, ?_⟩
  · rw [hc.pathCount hp, hc.opposite]
  · rw [hc.opposite]
    refine hopp.imp_right ?_
    rintro ⟨rfl, rfl, hnames, rfl⟩
    refine ⟨rfl, rfl, hc.peerHca, ?_⟩
    rw [fillTables_eq, hc.peerHca] at htables
    rw [← htables]
    show _ = fillTables ⟨4, rank, nd.hcaNames, 0, 0, 0, 4, []⟩ (fourRows rank)
    rw [hnames]
    rfl

end Start

/-! ## Lists of posts -/

section Lists

variable {A B : List Act} {P paths : List (ℕ × ℕ)} {peers : List ℕ} {s : Stripes}

@[simp] theorem posted_nil : posted [] = [] := rfl

@[simp] theorem posted_append : posted (A ++ B) = posted A ++ posted B := List.filterMap_append

@[simp] theorem posted_map_postPath : posted (paths.map (postPath s)) = paths := by
  induction paths with
  | nil => rfl
  | cons e paths ih => exact congrArg (e :: ·) ih

@[simp] theorem posted_map_drainPath :
    posted (paths.map fun e => .drainPath e.1 e.2) = [] := by
  induction paths with
  | nil => rfl
  | cons e paths ih => exact ih

@[simp] theorem posted_map_drainPeer : posted (peers.map .drainPeer) = [] := by
  induction peers with
  | nil => rfl
  | cons p peers ih => exact ih

@[simp] theorem posted_postPeer {c : Ctx} {p : ℕ} : posted (postPeer c s p) = peerPaths c p :=
  posted_map_postPath

theorem posted_flatMap {α : Type} {L : List α} {f : α → List Act} :
    posted (L.flatMap f) = L.flatMap fun x => posted (f x) := by
  induction L with
  | nil => rfl
  | cons x L ih => rw [List.flatMap_cons, posted_append, ih, List.flatMap_cons]

/-- What is pending has been pending, or has been posted. -/
theorem mem_pending {e : ℕ × ℕ} (h : e ∈ A.foldl Act.pending P) : e ∈ P ∨ e ∈ posted A := by
  induction A generalizing P with
  | nil => exact .inl h
  | cons a A ih =>
    obtain hmem | hmem := ih h
    · cases a with
      | post p k offset bytes =>
        obtain rfl | hmem := List.mem_cons.mp hmem
        · exact .inr List.mem_cons_self
        · exact .inl hmem
      | drainPath p k => exact .inl (List.mem_of_mem_filter hmem)
      | drainPeer p => exact .inl (List.mem_of_mem_filter hmem)
      | fail => exact .inl hmem
    · refine .inr ?_
      cases a with
      | post p k offset bytes => exact List.mem_cons_of_mem _ hmem
      | _ => exact hmem

theorem pending_subset_posted : pending A ⊆ posted A :=
  fun _ h => (mem_pending h).resolve_left List.not_mem_nil

theorem mem_drainPaths {e : ℕ × ℕ} (h : e ∈ (paths.map fun e => .drainPath e.1 e.2).foldl Act.pending P) :
    e ∈ P ∧ e ∉ paths := by
  induction paths generalizing P with
  | nil => exact ⟨h, List.not_mem_nil⟩
  | cons e' paths ih =>
    obtain ⟨hmem, hnot⟩ := ih h
    obtain ⟨hP, hne⟩ := List.mem_filter.mp hmem
    have hne' : e ≠ e' := by simpa using hne
    exact ⟨hP, fun hm => (List.mem_cons.mp hm).elim hne' hnot⟩

theorem mem_drainPeers {e : ℕ × ℕ} (h : e ∈ (peers.map Act.drainPeer).foldl Act.pending P) :
    e ∈ P ∧ e.1 ∉ peers := by
  induction peers generalizing P with
  | nil => exact ⟨h, List.not_mem_nil⟩
  | cons p peers ih =>
    obtain ⟨hmem, hnot⟩ := ih h
    obtain ⟨hP, hne⟩ := List.mem_filter.mp hmem
    have hne' : e.1 ≠ p := by simpa using hne
    exact ⟨hP, fun hm => (List.mem_cons.mp hm).elim hne' hnot⟩

/-- **A wave leaves nothing pending.** -/
theorem pending_wave {c : Ctx} {mask : ℕ} : pending (wave c s mask) = [] := by
  refine List.eq_nil_iff_forall_not_mem.mpr fun e h => ?_
  rw [pending, wave, List.foldl_append] at h
  obtain ⟨hmem, hnot⟩ := mem_drainPaths h
  have hposted := (mem_pending hmem).resolve_left List.not_mem_nil
  rw [posted_map_postPath] at hposted
  exact hnot hposted

/-- Posts to peers that are then waited for leave nothing pending. -/
theorem pending_drainPeers {c : Ctx} :
    pending (peers.flatMap (postPeer c s) ++ peers.map .drainPeer) = [] := by
  refine List.eq_nil_iff_forall_not_mem.mpr fun e h => ?_
  rw [pending, List.foldl_append] at h
  obtain ⟨hmem, hnot⟩ := mem_drainPeers h
  have hposted := (mem_pending hmem).resolve_left List.not_mem_nil
  rw [posted_flatMap] at hposted
  obtain ⟨p, hp, he⟩ := List.mem_flatMap.mp hposted
  rw [posted_postPeer] at he
  obtain ⟨k, -, rfl⟩ := List.mem_map.mp he
  exact hnot hp

/-- At every point of the schedule, what is pending is of one wave. -/
def InWaves (ws : List (List (ℕ × ℕ))) (acts : List Act) : Prop :=
  ∀ before after, acts = before ++ after → ∃ wave ∈ ws, pending before ⊆ wave

variable {ws : List (List (ℕ × ℕ))} {w : List (ℕ × ℕ)}

theorem inWaves_of_posted (hw : w ∈ ws) (h : posted A ⊆ w) : InWaves ws A := by
  rintro before after rfl
  refine ⟨w, hw, fun e he => h ?_⟩
  rw [posted_append]
  exact List.mem_append_left _ (pending_subset_posted he)

/-- **The next wave** begins when nothing is pending. -/
theorem InWaves.append (hA : InWaves ws A) (hnil : pending A = []) (hB : InWaves ws B) :
    InWaves ws (A ++ B) := by
  intro before after h
  obtain ⟨C, rfl, rfl⟩ | ⟨C, rfl, rfl⟩ := List.append_eq_append_iff.mp h
  · obtain ⟨w, hw, hsub⟩ := hB C after rfl
    refine ⟨w, hw, ?_⟩
    rw [pending, List.foldl_append]
    change (List.foldl Act.pending (pending A) C) ⊆ w
    rw [hnil]
    exact hsub
  · exact hA before C rfl

theorem inWaves_masks {c : Ctx} : ∀ {masks : List ℕ}, masks ≠ [] →
    InWaves (masks.map (masked c)) (masks.flatMap (wave c s)) := by
  suffices h : ∀ masks : List ℕ, ∀ ws : List (List (ℕ × ℕ)), ws ≠ [] → (∀ m ∈ masks, masked c m ∈ ws) →
      InWaves ws (masks.flatMap (wave c s)) from
    fun {masks} hne => h masks _ (by simpa using hne) fun m hm => List.mem_map_of_mem hm
  intro masks ws hne
  obtain ⟨w, hw⟩ := List.exists_mem_of_ne_nil ws hne
  induction masks with
  | nil => exact fun _ => inWaves_of_posted hw (List.nil_subset w)
  | cons m masks ih =>
    intro hmem
    rw [List.flatMap_cons]
    refine InWaves.append (inWaves_of_posted (hmem m List.mem_cons_self) ?_) pending_wave
      (ih fun m' hm' => hmem m' (List.mem_cons_of_mem m hm'))
    rw [wave, posted_append, posted_map_postPath, posted_map_drainPath, List.append_nil]
    exact List.Subset.refl _

end Lists

/-! ## The stripes -/

/-- A step with the stripe that belongs to its path. -/
def Act.Sound (c : Ctx) (nbytes : ℕ) : Act → Prop
  | .post p k offset bytes => offset = packOffset (nbytes / 16) (c.pathCount p) k * 16 ∧
      bytes = stripePacks (nbytes / 16) (c.pathCount p) k * 16
  | .fail => False
  | _ => True

theorem pathPacks_eq {nbytes count k : ℕ} (hk : k < count) :
    pathPacks nbytes count k = stripePacks (nbytes / 16) count k := if_pos hk

theorem stripeOffset_eq {nbytes count k : ℕ} (hk : k ≤ count) :
    stripeOffset nbytes count k = packOffset (nbytes / 16) count k * 16 := by
  induction k with
  | zero => exact (Nat.zero_mul 16).symm
  | succ k ih =>
    rw [stripeOffset, ih (Nat.le_of_succ_le hk), pathPacks_eq hk, ← Nat.add_mul]
    rfl

section Sound

variable {c : Ctx} {nbytes count : ℕ} {A B : List Act} {paths : List (ℕ × ℕ)} {peers : List ℕ}

theorem sound_postPath {e : ℕ × ℕ} (hcount : c.pathCount e.1 = count) (hk : e.2 < count) :
    (postPath (splitStripes nbytes count) e).Sound c nbytes := by
  subst hcount
  exact ⟨stripeOffset_eq hk.le, congrArg (· * 16) (pathPacks_eq hk)⟩

theorem sound_map_postPath (h : ∀ e ∈ paths, c.pathCount e.1 = count ∧ e.2 < count) :
    ∀ a ∈ paths.map (postPath (splitStripes nbytes count)), a.Sound c nbytes := by
  intro a ha
  obtain ⟨e, he, rfl⟩ := List.mem_map.mp ha
  exact sound_postPath (h e he).1 (h e he).2

theorem sound_append (hA : ∀ a ∈ A, a.Sound c nbytes) (hB : ∀ a ∈ B, a.Sound c nbytes) :
    ∀ a ∈ A ++ B, a.Sound c nbytes :=
  fun a ha => (List.mem_append.mp ha).elim (hA a) (hB a)

theorem sound_flatMap {α : Type} {L : List α} {f : α → List Act}
    (h : ∀ x ∈ L, ∀ a ∈ f x, a.Sound c nbytes) : ∀ a ∈ L.flatMap f, a.Sound c nbytes := by
  intro a ha
  obtain ⟨x, hx, hax⟩ := List.mem_flatMap.mp ha
  exact h x hx a hax

theorem sound_map_drainPath :
    ∀ a ∈ paths.map fun e => Act.drainPath e.1 e.2, a.Sound c nbytes := by
  intro a ha
  obtain ⟨e, -, rfl⟩ := List.mem_map.mp ha
  trivial

theorem sound_map_drainPeer : ∀ a ∈ peers.map Act.drainPeer, a.Sound c nbytes := by
  intro a ha
  obtain ⟨p, -, rfl⟩ := List.mem_map.mp ha
  trivial

end Sound

/-! ## The paths -/

section Paths

variable {c : Ctx} {world rank slotBytes nbytes p : ℕ} {e : ℕ × ℕ}

theorem mem_otherRanks : p ∈ otherRanks c ↔ p < c.world ∧ p ≠ c.rank := by
  rw [otherRanks, List.mem_filter, List.mem_range, decide_eq_true_iff]

theorem mem_peerPaths : e ∈ peerPaths c p ↔ e.1 = p ∧ e.2 < c.pathCount p := by
  obtain ⟨q, k⟩ := e
  rw [peerPaths, List.mem_map]
  constructor
  · rintro ⟨k', hk', heq⟩
    obtain ⟨rfl, rfl⟩ := Prod.mk.inj heq
    exact ⟨rfl, List.mem_range.mp hk'⟩
  · rintro ⟨rfl, hk⟩
    exact ⟨k, List.mem_range.mpr hk, rfl⟩

theorem mem_activePaths :
    e ∈ activePaths c ↔ e.1 < c.world ∧ e.1 ≠ c.rank ∧ e.2 < c.pathCount e.1 := by
  rw [activePaths, List.mem_flatMap]
  constructor
  · rintro ⟨q, hq, he⟩
    obtain ⟨rfl, hk⟩ := mem_peerPaths.mp he
    exact ⟨(mem_otherRanks.mp hq).1, (mem_otherRanks.mp hq).2, hk⟩
  · rintro ⟨hlt, hne, hk⟩
    exact ⟨e.1, mem_otherRanks.mpr ⟨hlt, hne⟩, mem_peerPaths.mpr ⟨rfl, hk⟩⟩

theorem nodup_activePaths : (activePaths c).Nodup := by
  rw [activePaths, List.nodup_flatMap]
  refine ⟨fun p _ => List.nodup_range.map fun _ _ heq => (Prod.mk.inj heq).2, ?_⟩
  refine (List.nodup_range.filter _).imp fun {p q} hpq => ?_
  intro e hp hq
  exact hpq ((mem_peerPaths.mp hp).1.symm.trans (mem_peerPaths.mp hq).1)

theorem Scheduled.pathCount_two (h : Scheduled c world rank slotBytes) (hopp : c.oppositePaths = 2)
    (hp : p < world) (hne : p ≠ rank) : c.pathCount p = 2 := by
  rw [h.pathCount p hp, hopp, peerPathCount, if_neg (mod_cast hne), ite_self]

/-- Two paths to everyone: the bits of the masks are all paths. -/
theorem Scheduled.maskBits_eq (h : Scheduled c world rank slotBytes) (hopp : c.oppositePaths = 2) :
    maskBits c = activePaths c := by
  rw [maskBits, activePaths, List.flatMap_def, List.flatMap_def]
  refine congrArg List.flatten (List.map_congr_left fun p hp => ?_)
  obtain ⟨hlt, hne⟩ := mem_otherRanks.mp hp
  rw [peerPaths, h.pathCount_two hopp (h.world_eq ▸ hlt) (h.rank_eq ▸ hne)]
  rfl

/-- Two paths to everyone: the posts have the half stripes. -/
theorem Scheduled.sound_half (h : Scheduled c world rank slotBytes) (hopp : c.oppositePaths = 2)
    {paths : List (ℕ × ℕ)} (hpaths : paths ⊆ activePaths c) :
    ∀ a ∈ paths.map (postPath (splitStripes nbytes layoutPaths)), a.Sound c nbytes := by
  refine sound_map_postPath fun e he => ?_
  obtain ⟨hlt, hne, hk⟩ := mem_activePaths.mp (hpaths he)
  have htwo := h.pathCount_two hopp (h.world_eq ▸ hlt) (h.rank_eq ▸ hne)
  rw [htwo] at hk
  exact ⟨htwo, hk⟩

theorem masked_subset {mask : ℕ} : masked c mask ⊆ maskBits c := by
  intro e he
  obtain ⟨t, ht, rfl⟩ := List.mem_map.mp he
  exact (List.mem_zipIdx' (List.mem_of_mem_filter ht)).2 ▸ List.getElem_mem _

/-- **The masks cover the paths**, each once. -/
theorem perm_masks (hworld : c.world = 4) (hrank : c.rank < 4) :
    ((mixedMasks.getD c.rank []).flatMap (masked c)).Perm (maskBits c) ∧
      ((strictMasks.getD c.rank []).flatMap (masked c)).Perm (maskBits c) := by
  have hall : ∀ rank < 4, ∀ c : Ctx, c.world = 4 → c.rank = rank →
      ((mixedMasks.getD c.rank []).flatMap (masked c)).Perm (maskBits c) ∧
      ((strictMasks.getD c.rank []).flatMap (masked c)).Perm (maskBits c) := by
    intro rank hrank c hworld hr
    unfold masked maskBits otherRanks
    rw [hworld, hr]
    interval_cases rank <;> decide
  exact hall c.rank hrank c hworld rfl

/-- **The opposite rank and the neighbours** are the other ranks. -/
theorem perm_ranks (hworld : c.world = 4) (hrank : c.rank < 4) :
    (opposite c :: directRanks c).Perm (otherRanks c) := by
  have hall : ∀ rank < 4, ∀ c : Ctx, c.world = 4 → c.rank = rank →
      (opposite c :: directRanks c).Perm (otherRanks c) := by
    intro rank hrank c hworld hr
    unfold opposite directRanks distance otherRanks
    rw [hworld, hr]
    interval_cases rank <;> decide
  exact hall c.rank hrank c hworld rfl

/-! ## The schedules of two paths -/

section Schedules

variable (h : Scheduled c world rank slotBytes) (hopp : c.oppositePaths = 2)
  {s : Stripes} {masks : List ℕ}

include h hopp

theorem Scheduled.sound_postPeers {peers : List ℕ} (hpeers : peers ⊆ otherRanks c) :
    ∀ a ∈ peers.flatMap (postPeer c (splitStripes nbytes layoutPaths)), a.Sound c nbytes := by
  refine sound_flatMap fun q hq => h.sound_half hopp fun e he => ?_
  exact List.mem_flatMap.mpr ⟨q, hpeers hq, he⟩

theorem Scheduled.sound_wave {mask : ℕ} :
    ∀ a ∈ wave c (splitStripes nbytes layoutPaths) mask, a.Sound c nbytes :=
  sound_append (h.sound_half hopp (h.maskBits_eq hopp ▸ masked_subset)) sound_map_drainPath

omit h hopp in
theorem posted_masks : posted (masks.flatMap (wave c s)) = masks.flatMap (masked c) := by
  rw [posted_flatMap]
  refine congrArg (fun f => masks.flatMap f) (funext fun mask => ?_)
  rw [wave, posted_append, posted_map_postPath, posted_map_drainPath, List.append_nil]

omit h hopp in
theorem posted_peers {peers : List ℕ} :
    posted (peers.flatMap (postPeer c s)) = peers.flatMap (peerPaths c) := by
  rw [posted_flatMap]
  exact congrArg (fun f => peers.flatMap f) (funext fun q => posted_postPeer)

omit h hopp in
theorem postPeer_eq : postPeer c s p = [p].flatMap (postPeer c s) :=
  (List.flatMap_singleton _ p).symm

omit h hopp in
theorem drainPeer_eq : [Act.drainPeer p] = [p].map .drainPeer := rfl

/-- What a schedule with waves has: the stripes, all paths, and its waves. -/
structure WavesExact (c : Ctx) (nbytes : ℕ) (ws : List (List (ℕ × ℕ))) (acts : List Act) : Prop where
  sound : ∀ a ∈ acts, a.Sound c nbytes
  once : (posted acts).Perm (activePaths c)
  inWaves : InWaves ws acts

theorem Scheduled.masks_exact (hmasks : (masks.flatMap (masked c)).Perm (maskBits c))
    (hne : masks ≠ []) :
    WavesExact c nbytes (masks.map (masked c))
      (masks.flatMap (wave c (splitStripes nbytes layoutPaths))) where
  sound := sound_flatMap fun _ _ => h.sound_wave hopp
  once := by
    rw [posted_masks, ← h.maskBits_eq hopp]
    exact hmasks
  inWaves := inWaves_masks hne

theorem Scheduled.oppositeFirst_exact (hranks : (opposite c :: directRanks c).Perm (otherRanks c)) :
    WavesExact c nbytes [peerPaths c (opposite c), (directRanks c).flatMap (peerPaths c)]
      (oppositeFirst c (splitStripes nbytes layoutPaths)) := by
  rw [oppositeFirst, postPeer_eq, drainPeer_eq]
  refine ⟨sound_append (sound_append (h.sound_postPeers hopp ?_) sound_map_drainPeer)
    (h.sound_postPeers hopp ?_), ?_, InWaves.append (inWaves_of_posted List.mem_cons_self ?_)
    pending_drainPeers (inWaves_of_posted (List.mem_cons_of_mem _ List.mem_cons_self) ?_)⟩
  · exact fun q hq => hranks.subset (List.mem_cons.mpr (.inl (List.mem_singleton.mp hq)))
  · exact fun q hq => hranks.subset (List.mem_cons_of_mem _ hq)
  · rw [posted_append, posted_append, posted_map_drainPeer, List.append_nil, posted_peers,
      posted_peers, ← List.flatMap_append]
    exact hranks.flatMap_right _
  · rw [posted_append, posted_map_drainPeer, List.append_nil, posted_peers, List.flatMap_singleton]
    exact List.Subset.refl _
  · rw [posted_peers]
    exact List.Subset.refl _

theorem Scheduled.directFirst_exact (hranks : (opposite c :: directRanks c).Perm (otherRanks c)) :
    WavesExact c nbytes [(directRanks c).flatMap (peerPaths c), peerPaths c (opposite c)]
      (directFirst c (splitStripes nbytes layoutPaths)) := by
  rw [directFirst, postPeer_eq]
  refine ⟨sound_append (sound_append (h.sound_postPeers hopp ?_) sound_map_drainPeer)
    (h.sound_postPeers hopp ?_), ?_, InWaves.append (inWaves_of_posted List.mem_cons_self ?_)
    pending_drainPeers (inWaves_of_posted (List.mem_cons_of_mem _ List.mem_cons_self) ?_)⟩
  · exact fun q hq => hranks.subset (List.mem_cons_of_mem _ hq)
  · exact fun q hq => hranks.subset (List.mem_cons.mpr (.inl (List.mem_singleton.mp hq)))
  · rw [posted_append, posted_append, posted_map_drainPeer, List.append_nil, posted_peers,
      posted_peers, ← List.flatMap_append]
    exact (List.perm_append_comm.trans hranks).flatMap_right _
  · rw [posted_append, posted_map_drainPeer, List.append_nil, posted_peers]
    exact List.Subset.refl _
  · rw [posted_peers, List.flatMap_singleton]
    exact List.Subset.refl _

/-- **Each schedule with waves.** -/
theorem Scheduled.waveSchedule_exact (hworld : c.world = 4) (mode : WaveMode) :
    WavesExact c nbytes (waves c mode)
      (waveSchedule c (splitStripes nbytes layoutPaths) mode) := by
  have hrank : c.rank < 4 := by rw [h.rank_eq, ← hworld, h.world_eq]; exact h.rank_lt
  have hne : ∀ rank < 4, mixedMasks.getD rank [] ≠ [] ∧ strictMasks.getD rank [] ≠ [] := by decide
  cases mode with
  | mixedTwo => exact h.masks_exact hopp (perm_masks hworld hrank).1 (hne _ hrank).1
  | strictThree => exact h.masks_exact hopp (perm_masks hworld hrank).2 (hne _ hrank).2
  | oppositeFirst => exact h.oppositeFirst_exact hopp (perm_ranks hworld hrank)
  | two => exact h.directFirst_exact hopp (perm_ranks hworld hrank)
  | balanced32 => exact h.directFirst_exact hopp (perm_ranks hworld hrank)

end Schedules

/-! ## The schedule of four paths -/

/-- The paths in the order of `balanced32_post`. -/
def balancedPaths (t : Tables) (rank seq : ℕ) : List (Option (ℕ × ℕ)) :=
  (balancedOrder rank seq).map fun e => tablePath t (fourRows rank) e.1 e.2

/-- All paths of four-path mode. -/
def fourPaths (rank : ℕ) : List (ℕ × ℕ) :=
  ((List.range 4).filter (· ≠ rank)).flatMap fun (p : ℕ) =>
    (List.range (peerPathCount 4 rank 4 p)).map (p, ·)

/-- A path that a table names is one of the class that the table is for. -/
def InTable (rank : ℕ) (postDirect : Bool) (path : ℕ × ℕ) : Prop :=
  path.1 < 4 ∧ path.1 ≠ rank ∧
    peerPathCount 4 rank 4 path.1 = (if postDirect then layoutPaths else maxPaths) ∧
    path.2 < peerPathCount 4 rank 4 path.1

instance decidableInTable (rank : ℕ) (postDirect : Bool) (path : ℕ × ℕ) :
    Decidable (InTable rank postDirect path) := inferInstanceAs (Decidable (_ ∧ _))

/-- **The rounds over the devices** name every path once, for each rank and generation. -/
theorem balancedPaths_exact {t : Tables} {rank seq : ℕ} (hrank : rank < 4) (hseq : seq < 4)
    (ht : fourTables rank = .ok t) :
    (balancedPaths t rank seq).reduceOption.Perm (fourPaths rank) ∧
      ∀ e ∈ balancedOrder rank seq, ∃ path, tablePath t (fourRows rank) e.1 e.2 = some path ∧
        InTable rank e.1 path := by
  obtain rfl : okOr noTables (fourTables rank) = t := by rw [ht]; rfl
  have hall : ∀ rank < 4, ∀ seq < 4,
      (balancedPaths (okOr noTables (fourTables rank)) rank seq).reduceOption.Perm
        (fourPaths rank) ∧
      ∀ e ∈ balancedOrder rank seq, (tablePath (okOr noTables (fourTables rank))
        (fourRows rank) e.1 e.2).any fun path => InTable rank e.1 path := by decide +kernel
  obtain ⟨hperm, hin⟩ := hall rank hrank seq hseq
  refine ⟨hperm, fun e he => ?_⟩
  obtain ⟨path, hpath, htable⟩ := (Option.any_eq_true _ _).mp (hin e he)
  exact ⟨path, hpath, of_decide_eq_true htable⟩

theorem balancedOrder_mod (rank seq : ℕ) : balancedOrder rank (seq % 4) = balancedOrder rank seq := by
  unfold balancedOrder
  have hparity : seq % 4 % 2 = seq % 2 := Nat.mod_mod_of_dvd seq (by decide)
  dsimp only
  rw [Nat.mod_mod, hparity]

theorem balancedStep_eq {half quarter : Stripes} {t : Bool × ℕ} {path : ℕ × ℕ}
    (ht : tablePath c.tables c.peerHca t.1 t.2 = some path) :
    balancedStep c half quarter t = postPath (if t.1 then half else quarter) path := by
  unfold balancedStep
  rw [ht]

theorem path?_balancedStep {half quarter : Stripes} (t : Bool × ℕ) :
    (balancedStep c half quarter t).path? = tablePath c.tables c.peerHca t.1 t.2 := by
  unfold balancedStep
  cases tablePath c.tables c.peerHca t.1 t.2 <;> rfl

theorem posted_balanced {half quarter : Stripes} {seq : ℕ} :
    posted (balanced32Post c seq half quarter) =
      ((balancedOrder c.rank seq).map fun t => tablePath c.tables c.peerHca t.1 t.2).reduceOption := by
  rw [balanced32Post, posted, List.filterMap_map]
  show _ = List.filterMap id (List.map _ _)
  rw [List.filterMap_map]
  exact congrArg (List.filterMap · _) (funext path?_balancedStep)

/-- **Four paths to the opposite rank.** -/
theorem Scheduled.balanced_exact (h : Scheduled c world rank slotBytes)
    (hopp : c.oppositePaths = 4) (seq : ℕ) :
    (∀ a ∈ balanced32Post c seq (splitStripes nbytes layoutPaths) (splitStripes nbytes maxPaths),
      a.Sound c nbytes) ∧
    (posted (balanced32Post c seq (splitStripes nbytes layoutPaths)
      (splitStripes nbytes maxPaths))).Perm (activePaths c) := by
  obtain htwo | ⟨-, rfl, hrows, htables⟩ := h.paths
  · exact absurd (htwo.symm.trans hopp) (by decide)
  have hcount (p : ℕ) (hp : p < 4) : c.pathCount p = peerPathCount 4 rank 4 p := by
    rw [h.pathCount p hp, hopp]
  obtain ⟨hperm, hin⟩ := balancedPaths_exact h.rank_lt (Nat.mod_lt seq (by decide)) htables
  rw [balancedPaths, balancedOrder_mod] at hperm
  rw [balancedOrder_mod] at hin
  constructor
  · intro a ha
    rw [balanced32Post, h.rank_eq] at ha
    obtain ⟨t, ht, rfl⟩ := List.mem_map.mp ha
    obtain ⟨path, hpath, hlt, -, hclass, hk⟩ := hin t ht
    rw [← hrows] at hpath
    rw [balancedStep_eq hpath]
    rw [hclass] at hk
    rw [← hcount _ hlt] at hclass
    cases hdirect : t.1 with
    | true =>
      rw [hdirect] at hclass hk
      exact sound_postPath hclass hk
    | false =>
      rw [hdirect] at hclass hk
      exact sound_postPath hclass hk
  · have hactive : activePaths c = fourPaths rank := by
      rw [activePaths, fourPaths, otherRanks, h.world_eq, h.rank_eq, List.flatMap_def,
        List.flatMap_def]
      refine congrArg List.flatten (List.map_congr_left fun p hp => ?_)
      rw [peerPaths, hcount p (List.mem_range.mp (List.mem_of_mem_filter hp))]
    rw [posted_balanced, h.rank_eq, hrows, hactive]
    exact hperm

/-! ## Every operation -/

variable {A : List Act}

/-- A path that is posted, and its stripe. -/
theorem mem_posted {e : ℕ × ℕ} :
    e ∈ posted A ↔ ∃ offset bytes, .post e.1 e.2 offset bytes ∈ A := by
  rw [posted, List.mem_filterMap]
  constructor
  · rintro ⟨a, ha, hpath⟩
    cases a with
    | post p k offset bytes =>
      obtain rfl := Option.some.inj hpath
      exact ⟨offset, bytes, ha⟩
    | _ => exact absurd hpath.symm (Option.some_ne_none e)
  · rintro ⟨offset, bytes, ha⟩
    exact ⟨_, ha, rfl⟩

theorem packOffset_mono {n H k k' : ℕ} (h : k ≤ k') : packOffset n H k ≤ packOffset n H k' := by
  induction h with
  | refl => exact le_rfl
  | step _ ih => exact ih.trans (Nat.le_add_right _ _)

/-- A byte is in one stripe only. -/
theorem unique_stripe {i n H k k' : ℕ} (hlo : packOffset n H k * 16 ≤ i)
    (hhi : i < packOffset n H (k + 1) * 16) (hlo' : packOffset n H k' * 16 ≤ i)
    (hhi' : i < packOffset n H (k' + 1) * 16) : k = k' := by
  obtain hlt | heq | hlt := lt_trichotomy k k'
  · have hmono : packOffset n H (k + 1) ≤ packOffset n H k' := packOffset_mono hlt
    omega
  · exact heq
  · have hmono : packOffset n H (k' + 1) ≤ packOffset n H k := packOffset_mono hlt
    omega

/-- **The stripes tile the payload.** -/
theorem tile_of_sound {i : ℕ} (hsound : ∀ a ∈ A, a.Sound c nbytes) (hpacks : nbytes % 16 = 0)
    (honce : (posted A).Perm (activePaths c)) (hp : p < c.world) (hne : p ≠ c.rank)
    (hcount : 0 < c.pathCount p) (hi : i < nbytes) :
    ∃! path, ∃ offset bytes, .post p path offset bytes ∈ A ∧ offset ≤ i ∧ i < offset + bytes := by
  have hend (path : ℕ) : packOffset (nbytes / 16) (c.pathCount p) path * 16 +
      stripePacks (nbytes / 16) (c.pathCount p) path * 16 =
        packOffset (nbytes / 16) (c.pathCount p) (path + 1) * 16 := (Nat.add_mul _ _ 16).symm
  obtain ⟨k, hk, hmem⟩ := exists_mem_stripe hcount (Nat.zero_le (i / 16))
    (show i / 16 < 0 + nbytes / 16 by omega)
  obtain ⟨hlo, hhi⟩ := mem_stripe.mp hmem
  rw [Nat.zero_add] at hlo hhi
  have hposted : (p, k) ∈ posted A :=
    honce.symm.subset (mem_activePaths.mpr ⟨hp, hne, hk⟩)
  obtain ⟨offset, bytes, hpost⟩ : ∃ offset bytes, .post p k offset bytes ∈ A :=
    mem_posted.mp hposted
  obtain ⟨rfl, rfl⟩ := hsound _ hpost
  refine ⟨k, ⟨_, _, hpost, by omega, ?_⟩, ?_⟩
  · rw [hend]
    omega
  · rintro k' ⟨offset, bytes, hpost', hlo', hhi'⟩
    obtain ⟨rfl, rfl⟩ := hsound _ hpost'
    rw [hend] at hhi'
    exact unique_stripe hlo' hhi' (by omega) (by omega)

/-- There is a path to every other rank. -/
theorem Scheduled.pathCount_pos (h : Scheduled c world rank slotBytes) (hp : p < c.world)
    (hne : p ≠ c.rank) : 0 < c.pathCount p := by
  rw [h.world_eq] at hp
  rw [h.rank_eq] at hne
  have hopp : 0 < c.oppositePaths := by
    obtain hopp | ⟨hopp, -⟩ := h.paths <;> rw [hopp]
    · exact Nat.two_pos
    · exact Nat.succ_pos 3
  rw [h.pathCount p hp, peerPathCount, if_neg (mod_cast hne)]
  split_ifs
  · exact hopp
  · exact Nat.two_pos

/-- A schedule of sound steps is a post of the operation. -/
theorem Scheduled.postsExact_of_sound (h : Scheduled c world rank slotBytes)
    (hpacks : nbytes % 16 = 0) (hsound : ∀ a ∈ A, a.Sound c nbytes)
    (honce : (posted A).Perm (activePaths c))
    (hwaves : c.oppositePaths ≠ maxPaths → TwoWave c nbytes → InWaves (waves c c.waveMode) A) :
    PostsExact c nbytes A where
  no_fail hmem := hsound _ hmem
  once := honce
  stripe _ _ _ _ hmem := hsound _ hmem
  tile _ hp hne _ hi := tile_of_sound hsound hpacks honce hp hne (h.pathCount_pos hp hne) hi
  waves := hwaves

/-- **Every post of an operation** sends each path its stripe once. -/
theorem Scheduled.postsExact (h : Scheduled c world rank slotBytes) (seq : ℕ) (hpos : nbytes ≠ 0)
    (hslot : nbytes ≤ slotBytes) (hpacks : nbytes % 16 = 0) :
    PostsExact c nbytes (postOp c seq nbytes) := by
  have hok : ¬(nbytes = 0 ∨ nbytes > c.slotBytes ∨ nbytes % 16 ≠ 0) := by
    rw [h.slot_eq]
    omega
  rw [postOp, if_neg hok]
  dsimp only
  by_cases hfour : c.oppositePaths = maxPaths
  · rw [if_pos hfour]
    obtain ⟨hsound, honce⟩ := h.balanced_exact hfour seq
    exact h.postsExact_of_sound hpacks hsound honce fun hnot => absurd hfour hnot
  · rw [if_neg hfour]
    have hopp : c.oppositePaths = 2 := h.paths.resolve_right fun hp => hfour hp.1
    by_cases htwo : TwoWave c nbytes
    · rw [if_pos htwo]
      have hwaves : WavesExact c nbytes _ _ := h.waveSchedule_exact hopp htwo.1 c.waveMode
      exact h.postsExact_of_sound hpacks hwaves.sound hwaves.once fun _ _ => hwaves.inWaves
    · rw [if_neg htwo]
      refine h.postsExact_of_sound hpacks (h.sound_postPeers hopp (List.Subset.refl _)) ?_
        fun _ hwaves => absurd hwaves htwo
      rw [posted_peers]
      exact .refl _

end Paths

/-! ## Between the ranks -/

section Ring

variable {py : Py} {g : Ring} {r p q k p' k' slot slot' slotBytes : ℕ}

/-- What the schedules of a rank rest on. -/
theorem scheduled_of_setUp (h : g.SetUp py) (hr : r < g.world) :
    Scheduled (g.ctx r) g.world r (g.node r).slotBytes :=
  scheduled_of_start hr (h.started r hr)

/-- A third or fourth path goes to the opposite one of four ranks. -/
theorem opposite_of_two_le (h : g.SetUp py) (ha : g.Active p q k) (hk : 2 ≤ k) :
    g.world = 4 ∧ (p + 2) % 4 = q ∧ k < 4 := by
  have hs := scheduled_of_setUp h ha.rank
  have hpath := ha.path
  have hopp : (g.ctx p).oppositePaths ≤ 4 := by
    obtain hopp | ⟨hopp, -⟩ := hs.paths <;> rw [hopp]
    decide
  rw [hs.pathCount q ha.peer, peerPathCount] at hpath
  have hp := ha.rank
  have hq := ha.peer
  split_ifs at hpath with hown hfour
  · omega
  · obtain ⟨hworld, hmod⟩ := hfour
    rw [hworld] at hp hq hmod
    exact ⟨hworld, by omega, by omega⟩
  · omega

theorem Active.path_lt (h : g.SetUp py) (ha : g.Active p q k) : k < 4 := by
  by_cases hk : 2 ≤ k
  · exact (opposite_of_two_le h ha hk).2.2
  · omega

/-- The two halves of an address. -/
theorem flagAddress_inj {row row' column column' : ℕ} (hslot : slot < 2) (hslot' : slot' < 2)
    (hc : column < 2) (hc' : column' < 2)
    (heq : ((row * 2 + slot) * layoutPaths + column) * 128 =
      ((row' * 2 + slot') * layoutPaths + column') * 128) :
    row = row' ∧ slot = slot' ∧ column = column' := by
  unfold layoutPaths at heq
  omega

/-- **No two writers share a flag.** -/
theorem flags_of_setUp (h : g.SetUp py) (ha : g.Active p q k) (ha' : g.Active p' q k')
    (hslot : slot < 2) (hslot' : slot' < 2)
    (heq : flagAddress p q k slot = flagAddress p' q k' slot') :
    p = p' ∧ k = k' ∧ slot = slot' := by
  have hk := Active.path_lt h ha
  have hk' := Active.path_lt h ha'
  unfold flagAddress at heq
  dsimp only at heq
  by_cases hlow : k < layoutPaths
  · rw [if_pos hlow, if_pos hlow] at heq
    by_cases hlow' : k' < layoutPaths
    · rw [if_pos hlow', if_pos hlow'] at heq
      obtain ⟨hp, hs, hcol⟩ := flagAddress_inj hslot hslot' hlow hlow' heq
      exact ⟨hp, hcol, hs⟩
    · -- the row of the receiver is written by the opposite rank only
      rw [if_neg hlow', if_neg hlow'] at heq
      obtain ⟨hp, -⟩ := flagAddress_inj hslot hslot' hlow (by unfold layoutPaths; omega) heq
      exact absurd hp.symm ha.other
  · rw [if_neg hlow, if_neg hlow] at heq
    obtain ⟨-, hop, -⟩ := opposite_of_two_le h ha (not_lt.mp hlow)
    by_cases hlow' : k' < layoutPaths
    · rw [if_pos hlow', if_pos hlow'] at heq
      obtain ⟨hp, -⟩ := flagAddress_inj hslot hslot' (by unfold layoutPaths; omega) hlow' heq
      exact absurd hp ha'.other
    · rw [if_neg hlow', if_neg hlow'] at heq
      obtain ⟨hworld, hop', -⟩ := opposite_of_two_le h ha' (not_lt.mp hlow')
      obtain ⟨-, hs, hcol⟩ := flagAddress_inj hslot hslot' (by unfold layoutPaths; omega)
        (by unfold layoutPaths; omega) heq
      have hp := ha.rank
      have hp' := ha'.rank
      rw [hworld] at hp hp'
      unfold layoutPaths at hlow hlow' hcol
      exact ⟨by omega, by omega, hs⟩

/-- The flags of four-path mode, in the order of the waiters. -/
theorem mem_pathFlags {cfg : RingArrivals.Setting} :
    (p, k) ∈ cfg.pathFlags ↔ p < cfg.world ∧ p ≠ cfg.rank ∧
      k < if (p + cfg.world - cfg.rank) % cfg.world = 2 then 4 else 2 := by
  rw [RingArrivals.Setting.pathFlags, List.mem_flatMap]
  constructor
  · rintro ⟨p', hp', hmem⟩
    obtain ⟨k', hk', heq⟩ := List.mem_map.mp hmem
    obtain ⟨rfl, rfl⟩ := Prod.mk.inj heq
    obtain ⟨hlt, hne⟩ := List.mem_filter.mp hp'
    exact ⟨List.mem_range.mp hlt, of_decide_eq_true hne, List.mem_range.mp hk'⟩
  · rintro ⟨hlt, hne, hk⟩
    exact ⟨p, List.mem_filter.mpr ⟨List.mem_range.mpr hlt, decide_eq_true hne⟩,
      List.mem_map.mpr ⟨k, List.mem_range.mpr hk, rfl⟩⟩

/-- Eight threads wait in four-path mode. -/
theorem length_pathFlags {cfg : RingArrivals.Setting} (hworld : cfg.world = 4)
    (hrank : cfg.rank < 4) : cfg.pathFlags.length = 8 := by
  have hall : ∀ rank < 4, ∀ cfg : RingArrivals.Setting, cfg.world = 4 → cfg.rank = rank →
      cfg.pathFlags.length = 8 := by
    intro rank hrank cfg hworld hr
    unfold RingArrivals.Setting.pathFlags
    rw [hworld, hr]
    interval_cases rank <;> decide
  exact hall cfg.rank hrank cfg hworld rfl

theorem active_iff (h : g.SetUp py) (hq : q < g.world) : g.Active p q k ↔
    p < g.world ∧ p ≠ q ∧ k < peerPathCount g.world q (g.ctx q).oppositePaths p := by
  have hs := scheduled_of_setUp h hq
  constructor
  · intro ha
    have hback := (Ring.Active.back h ha).path
    rw [hs.pathCount p ha.rank] at hback
    exact ⟨ha.rank, ha.other.symm, hback⟩
  · rintro ⟨hp, hne, hk⟩
    rw [← hs.pathCount p hp] at hk
    exact Ring.Active.back h ⟨hq, hp, hne, hk⟩

/-- **The kernel waits for every path**, and for no other. -/
theorem waited_iff (h : g.SetUp py) {threads : ℕ} {hpos : 0 < threads} (hq : q < g.world)
    (height : 8 ≤ threads) (hworld : g.world ≤ threads) :
    Waited (g.ctx q) threads hpos (p, k) ↔ g.Active p q k := by
  have hs := scheduled_of_setUp h hq
  rw [active_iff h hq, Waited]
  unfold RingArrivals.Setting.waits kernelSetting
  dsimp only
  obtain hopp | ⟨hopp, hfour, -⟩ := hs.paths
  · have htwo : ¬(g.ctx q).oppositePaths = 4 := by omega
    simp only [if_neg htwo, hs.world_eq, hs.rank_eq]
    rw [hopp]
    constructor
    · rintro ⟨t, ht, hmem⟩
      split_ifs at hmem with hother
      · obtain ⟨hlt, hne⟩ := hother
        have hpair : (p, k) = (t, 0) ∨ (p, k) = (t, 1) := by simpa using hmem
        obtain heq | heq := hpair <;> obtain ⟨rfl, rfl⟩ := Prod.mk.inj heq
        all_goals
          refine ⟨hlt, hne, ?_⟩
          rw [peerPathCount, if_neg (mod_cast hne), ite_self]
          decide
      · exact absurd hmem List.not_mem_nil
    · rintro ⟨hp, hne, hk⟩
      rw [peerPathCount, if_neg (mod_cast hne), ite_self] at hk
      refine ⟨p, hp.trans_le hworld, ?_⟩
      rw [if_pos ⟨hp, hne⟩]
      obtain rfl | rfl : k = 0 ∨ k = 1 := by omega
      · exact List.mem_cons_self
      · exact List.mem_cons_of_mem _ List.mem_cons_self
  · simp only [if_pos hopp]
    have hflags : (p, k) ∈ (kernelSetting (g.ctx q) threads hpos).pathFlags ↔
        p < g.world ∧ p ≠ q ∧ k < peerPathCount g.world q (g.ctx q).oppositePaths p := by
      rw [mem_pathFlags, kernelSetting]
      dsimp only
      rw [hs.world_eq, hs.rank_eq, hfour, hopp]
      refine and_congr_right fun hp => and_congr_right fun hne => ?_
      rw [hfour] at hq
      have hne' : ¬(p : ℤ) = q := mod_cast hne
      have hmod : 4 = 4 ∧ ((p : ℤ) - q) % (4 : ℕ) = 2 ↔ (p + 4 - q) % 4 = 2 := by omega
      rw [peerPathCount, if_neg hne', if_congr hmod rfl rfl]
    rw [← hflags]
    constructor
    · rintro ⟨t, -, hmem⟩
      exact List.mem_of_getElem? (Option.mem_toList.mp hmem)
    · intro hmem
      obtain ⟨t, ht, heq⟩ := List.getElem_of_mem hmem
      have hlen : (kernelSetting (g.ctx q) threads hpos).pathFlags.length = 8 :=
        length_pathFlags (hs.world_eq.trans hfour) (by
          show (g.ctx q).rank < 4
          rw [hs.rank_eq, ← hfour]
          exact hq)
      refine ⟨t, (hlen ▸ ht).trans_le height, Option.mem_toList.mpr ?_⟩
      rw [← heq]
      exact List.getElem?_eq_getElem ht

/-- **The posts of the ring are exact.** -/
theorem ring_posts_exact (h : g.SetUp py)
    (hslots : ∀ r < g.world, (g.node r).slotBytes = slotBytes) : RingExact g slotBytes where
  posts r hr seq _ hpos hslot hpacks :=
    (hslots r hr ▸ scheduled_of_setUp h hr).postsExact seq hpos hslot hpacks
  flags _ _ _ _ _ _ _ ha ha' hslot hslot' heq := flags_of_setUp h ha ha' hslot hslot' heq
  waited _ _ _ hq height hworld _ _ _ := ⟨waited_iff h hq height hworld, rfl⟩

theorem ring_posts_exact_fourRing : RingExact fourRing 4096 :=
  ring_posts_exact setUp_fourRing fun _ _ => rfl

end Ring

end RingPosts
