import SparkTP4.RoceLayoutWrites

/-!
# What a rank posts

The payload of a one-shot operation (`postOpTo_eq`) and a chunk of a two-shot phase
(`postPipeChunkTo_eq`) with integers of any size. The chunks that the host computes
are never more than there are flags (`chunks_le`), never start past the end of
their shard (`start_le`), are within the area of the source and the phase
(`piece_within`) and tile their shard (`pieces_bytes`).
-/

namespace RoceLayout

open Striping TwoshotReduce GridLoop

/-! ## What goes to one peer -/

/-- The writes that go to peer `p`. -/
def toPeer (p : ℕ) (writes : List (ℕ × Write)) : List Write :=
  (writes.filter (fun w => w.1 = p)).map Prod.snd

theorem toPeer_forPeers {world rank p : ℕ} (hp : p < world) (hne : p ≠ rank)
    (f : ℕ → List Write) : toPeer p (forPeers world rank f) = f p := by
  unfold toPeer forPeers
  rw [List.filter_flatMap, List.map_flatMap, ← flatMap_range_single f hp]
  refine List.flatMap_congr (fun q _ => ?_)
  by_cases hq : q = p
  · rw [if_pos hq, if_neg (hq ▸ hne), List.filter_eq_self.mpr, List.map_map]
    · exact List.map_id _
    · rintro _ hmem
      obtain ⟨_, -, rfl⟩ := List.mem_map.mp hmem
      exact decide_eq_true hq
  · rw [if_neg hq]
    split_ifs
    · rfl
    · rw [List.filter_eq_nil_iff.mpr]
      · rfl
      · rintro _ hmem
        obtain ⟨_, -, rfl⟩ := List.mem_map.mp hmem
        exact fun heq => hq (of_decide_eq_true heq)

theorem mem_forPeers {world rank p : ℕ} {f : ℕ → List Write} {w : Write}
    (h : (p, w) ∈ forPeers world rank f) : p < world ∧ p ≠ rank ∧ w ∈ f p := by
  obtain ⟨q, hq, hmem⟩ := List.mem_flatMap.mp h
  split_ifs at hmem with hrank
  · exact absurd hmem List.not_mem_nil
  · obtain ⟨w', hw', heq⟩ := List.mem_map.mp hmem
    obtain ⟨rfl, rfl⟩ := Prod.mk.inj heq
    exact ⟨List.mem_range.mp hq, hrank, hw'⟩

/-! ## Where the writes land -/

/-- A payload lands in the one area and a flag in the other. -/
def Write.Lands (w : Write) (payload flags : Region) : Prop :=
  w.target.Within (if w.source.isSome then payload else flags)

theorem lands_of_fits {nHca send remoteOff packs flagOff : ℕ} {payload flags : Region}
    (hfits : Fits nHca send remoteOff packs flagOff)
    (hpayload : Region.Within ⟨remoteOff, packs * 16⟩ payload)
    (hflags : Region.Within ⟨flagOff, nHca * FLAG_STRIDE⟩ flags) {w : Write}
    (hw : w ∈ postStriped nHca send remoteOff packs flagOff) : w.Lands payload flags := by
  obtain ⟨h, hh, rfl | rfl⟩ := mem_postStriped hfits hw
  · refine Region.Within.trans (Region.within_mk.mpr ?_) hpayload
    have hstop : packOffset packs nHca h + stripePacks packs nHca h ≤ packs := packOffset_le hh
    omega
  · refine Region.Within.trans (Region.within_mk.mpr ?_) hflags
    have hstop := Nat.mul_le_mul_right FLAG_STRIDE (show h + 1 ≤ nHca from hh)
    rw [Nat.succ_mul] at hstop
    have hstride : 4 ≤ FLAG_STRIDE := by decide
    omega

namespace Proxy

variable {c : Proxy}

/-- Every part of the region ends below `2 ^ 47`. -/
theorem LaidOut.stop_lt (h : c.LaidOut) {r : Region}
    (hr : r ∈ c.layout.regions c.world c.slotBytes c.pipeBytes) : r.stop < 2 ^ 47 := by
  rw [h.exact, regions_eq] at hr
  have hstop := (Region.within_consecutive hr).2
  rw [Region.stop_mk 0, sizes_sum, Nat.zero_add] at hstop
  exact Nat.lt_of_le_of_lt hstop (totalBytes_lt h.admitted)

theorem LaidOut.part_lt (h : c.LaidOut) (b : Buffer) : (c.part b).stop < 2 ^ 47 := by
  refine h.stop_lt ?_
  unfold Layout.regions part
  cases b <;> simp

theorem LaidOut.world_le (h : c.LaidOut) : c.world ≤ 16 := h.admitted.le_peers

/-- The end of an area is a 64-bit address. -/
theorem LaidOut.area_lt (h : c.LaidOut) {b : Buffer} {source i : ℕ} (hsource : source < c.world)
    (hi : i < 2) (hpipe : b = .pipeFlag → 0 < c.pipeBytes) :
    (c.area b source i).stop < 2 ^ 47 :=
  Nat.lt_of_le_of_lt (area_within h hsource hi hpipe).2 (h.part_lt b)

/-! ## One-shot -/

section Oneshot

variable {seq packs : ℕ}

theorem slotFlagOff_eq (h : c.LaidOut) {slot : ℕ} (hslot : slot < 2) :
    c.slotFlagOff slot = (c.area .slotFlag c.rank slot).off := by
  have hstop := h.area_lt (b := .slotFlag) h.rank_lt hslot nofun
  have hrank := h.rank_lt
  have hworld := h.world_le
  unfold area Region.cell at hstop ⊢
  rw [Region.stop_mk] at hstop
  unfold slotFlagOff
  have hle : (c.rank * SLOTS + slot) * c.nHca ≤ 33 * 2 :=
    Nat.mul_le_mul (by unfold SLOTS; omega) h.nHca_le
  rw [u64_of_lt (n := c.rank * SLOTS) (by unfold SLOTS; omega),
    u64_of_lt (n := c.rank * SLOTS + slot) (by unfold SLOTS; omega),
    u64_of_lt (n := _ * c.nHca) (by omega), Nat.mul_assoc]
  unfold SLOTS
  rw [u64_of_lt (n := (c.rank * 2 + slot) * _) (by omega), u64_of_lt (by omega)]

/-- **What `post_op` writes to a peer**, with integers of any size. -/
theorem postOpTo_eq (h : c.LaidOut) (hslot : packs * 16 ≤ c.slotBytes) :
    c.postOpTo seq (packs * 16) = postStriped c.nHca
      (c.layout.sendOff + seq % 2 * c.slotBytes) (c.area .slotPayload c.rank (seq % 2)).off packs
      (c.area .slotFlag c.rank (seq % 2)).off := by
  have hseq : seq % 2 < 2 := Nat.mod_lt _ (by decide)
  have hstop := h.area_lt (b := .slotPayload) h.rank_lt hseq nofun
  have hsend := h.stop_lt (r := ⟨c.layout.sendOff, SLOTS * c.slotBytes⟩)
    (by unfold Layout.regions; simp)
  have hle : seq % 2 * c.slotBytes ≤ SLOTS * c.slotBytes := Nat.mul_le_mul_right _ (Nat.le_of_lt hseq)
  have hrank := h.rank_lt
  have hworld := h.world_le
  rw [Region.stop_mk] at hsend
  unfold postOpTo
  dsimp only
  rw [slotFlagOff_eq h hseq, Nat.mul_div_cancel _ (by decide)]
  unfold area Region.cell at hstop ⊢
  rw [Region.stop_mk] at hstop
  rw [u64_of_lt (n := c.rank * SLOTS) (by unfold SLOTS; omega),
    u64_of_lt (n := c.rank * SLOTS + _) (by unfold SLOTS; omega),
    u64_of_lt (n := seq % 2 * _) (by omega), u64_of_lt (n := c.layout.sendOff + _) (by omega)]
  unfold SLOTS
  rw [u64_of_lt (n := (c.rank * 2 + _) * _) (by omega), u64_of_lt (by omega)]

theorem fits_op (h : c.LaidOut) (hslot : packs * 16 ≤ c.slotBytes) (hword : packs * 16 < 2 ^ 32) :
    Fits c.nHca (c.layout.sendOff + seq % 2 * c.slotBytes)
      (c.area .slotPayload c.rank (seq % 2)).off packs (c.area .slotFlag c.rank (seq % 2)).off := by
  have hseq : seq % 2 < 2 := Nat.mod_lt _ (by decide)
  have hsend := h.stop_lt (r := ⟨c.layout.sendOff, SLOTS * c.slotBytes⟩)
    (by unfold Layout.regions; simp)
  have hpayload := h.area_lt (b := .slotPayload) h.rank_lt hseq nofun
  have hflag := h.area_lt (b := .slotFlag) h.rank_lt hseq nofun
  have hle : (seq % 2 + 1) * c.slotBytes ≤ SLOTS * c.slotBytes := Nat.mul_le_mul_right _ hseq
  rw [Nat.succ_mul] at hle
  unfold area Region.cell at *
  rw [Region.stop_mk] at hsend hpayload hflag
  exact ⟨by omega, by omega, by dsimp only; omega, by dsimp only; omega⟩

end Oneshot

/-! ## Two-shot -/

/-- A two-shot message with the geometry of the host. -/
structure PipeMessage (c : Proxy) (packs chunkPacksMin chunkPacks chunks : ℕ) : Prop where
  packs_pos : 0 < packs
  within : packs * 16 ≤ c.pipeBytes
  word : packs * 16 < 2 ^ 32
  min_lt : chunkPacksMin < 2 ^ 30
  geometry : pipeGeometry (packs * packBytes) c.world chunkPacksMin MAX_CHUNKS
    = some (chunkPacks, chunks)

section Twoshot

variable {packs chunkPacksMin chunkPacks chunks : ℕ}

theorem LaidOut.world_pos (h : c.LaidOut) : 0 < c.world := Nat.zero_lt_of_lt h.rank_lt

/-- The all-reduce of the message, of which only the geometry matters here. -/
def PipeMessage.launch (m : PipeMessage c packs chunkPacksMin chunkPacks chunks)
    (h : c.LaidOut) : Launch Unit Unit where
  arith := ⟨(), fun _ => (), fun _ _ => (), fun _ => ()⟩
  world := c.world
  nHca := c.nHca
  packs := packs
  pipeBytes := c.pipeBytes
  chunkPacksMin := chunkPacksMin
  maxChunks := MAX_CHUNKS
  chunkPacks := chunkPacks
  chunks := chunks
  grid := 1
  threads := 1
  oneshotGrid := 1
  oneshotThreads := 1
  input := fun _ _ => ()
  staleSend := fun _ _ => ()
  staleRecv := fun _ _ => ()
  world_pos := h.world_pos
  nHca_pos := h.nHca_pos
  packs_pos := m.packs_pos
  maxChunks_pos := by decide
  grid_pos := Nat.one_pos
  threads_pos := Nat.one_pos
  oneshotGrid_pos := Nat.one_pos
  oneshotThreads_pos := Nat.one_pos
  within := m.within
  geometry := m.geometry

/-- Where chunk `chunk` of shard `j` starts, cut at the end of the shard. -/
def cut (c : Proxy) (packs chunkPacks j chunk : ℕ) : ℕ :=
  min (Striping.shardStart packs c.world j + chunk * chunkPacks)
    (Striping.shardStart packs c.world (j + 1))

theorem ite_gt_eq_min {a b : ℕ} : (if a > b then b else a) = min a b := by
  split_ifs <;> omega

variable (m : PipeMessage c packs chunkPacksMin chunkPacks chunks)

include m

theorem PipeMessage.packs_lt : packs < 2 ^ 28 := by
  have := m.word
  omega

/-- What `pipe_geometry` computes. -/
theorem PipeMessage.geometry_eq :
    chunkPacks = max chunkPacksMin (ceilDiv (ceilDiv packs c.world) MAX_CHUNKS) ∧
      chunks = ceilDiv (ceilDiv packs c.world) chunkPacks := by
  have hgeometry := m.geometry
  have hpos := m.packs_pos
  have hpacks : packs * packBytes / packBytes = packs := Nat.mul_div_cancel _ (by decide)
  unfold pipeGeometry at hgeometry
  split_ifs at hgeometry
  rw [hpacks] at hgeometry
  obtain ⟨hchunkPacks, hchunks⟩ := Prod.mk.inj (Option.some.inj hgeometry)
  exact ⟨hchunkPacks.symm, by rw [← hchunks, hchunkPacks]⟩

theorem PipeMessage.widest_le (h : c.LaidOut) : ceilDiv packs c.world ≤ packs := by
  have hpos := m.packs_pos
  refine Nat.le_of_lt_succ ((Nat.div_lt_iff_lt_mul h.world_pos).mpr ?_)
  have hle : packs ≤ packs * c.world := Nat.le_mul_of_pos_right packs h.world_pos
  rw [Nat.succ_mul]
  omega

theorem PipeMessage.chunkPacks_lt (h : c.LaidOut) : chunkPacks < 2 ^ 30 := by
  have hwidest := m.widest_le h
  have hlt := m.packs_lt
  have hmin := m.min_lt
  rw [m.geometry_eq.1]
  unfold ceilDiv MAX_CHUNKS at *
  omega

theorem PipeMessage.chunkPacks_pos (h : c.LaidOut) : 0 < chunkPacks := (m.launch h).geometry_covers.1

theorem PipeMessage.widest_pos (h : c.LaidOut) : 0 < ceilDiv packs c.world := by
  refine Nat.pos_of_ne_zero (fun hzero => ?_)
  have hle := Launch.le_ceilDiv_mul (a := packs) h.world_pos
  rw [hzero, Nat.zero_mul] at hle
  exact absurd m.packs_pos (Nat.not_lt.mpr hle)

theorem PipeMessage.covers (h : c.LaidOut) : ceilDiv packs c.world ≤ chunks * chunkPacks :=
  (m.launch h).geometry_covers.2

/-- There are no more chunks than flags. -/
theorem PipeMessage.chunks_le (h : c.LaidOut) : chunks ≤ MAX_CHUNKS := by
  have hpos := m.chunkPacks_pos h
  have hle : ceilDiv packs c.world ≤ MAX_CHUNKS * chunkPacks := by
    have hceil := Launch.le_ceilDiv_mul (a := ceilDiv packs c.world) (b := MAX_CHUNKS) (by decide)
    rw [Nat.mul_comm] at hceil
    refine Nat.le_trans hceil (Nat.mul_le_mul_left _ ?_)
    rw [m.geometry_eq.1]
    exact Nat.le_max_right _ _
  rw [m.geometry_eq.2]
  refine Nat.le_of_lt_succ ((Nat.div_lt_iff_lt_mul hpos).mpr ?_)
  rw [Nat.succ_mul]
  omega

theorem PipeMessage.chunks_pos (h : c.LaidOut) : 0 < chunks := by
  refine Nat.pos_of_ne_zero (fun hzero => ?_)
  have hle := m.covers h
  rw [hzero, Nat.zero_mul] at hle
  exact absurd (m.widest_pos h) (Nat.not_lt.mpr hle)

/-- **No chunk starts past the end of its shard.** -/
theorem PipeMessage.start_le (h : c.LaidOut) {chunk : ℕ} (hchunk : chunk < chunks) (j : ℕ) :
    Striping.shardStart packs c.world j + chunk * chunkPacks
      ≤ Striping.shardStart packs c.world (j + 1) := by
  have hpos := m.chunkPacks_pos h
  have hwidest := m.widest_pos h
  -- all chunks but the last are full
  have hfull : chunk * chunkPacks < ceilDiv packs c.world := by
    have hle : chunk ≤ (ceilDiv packs c.world + chunkPacks - 1) / chunkPacks - 1 :=
      Nat.le_sub_one_of_lt (by rw [m.geometry_eq.2] at hchunk; exact hchunk)
    have hmul := Nat.mul_le_mul_right chunkPacks hle
    have hdiv := Nat.div_mul_le_self (ceilDiv packs c.world + chunkPacks - 1) chunkPacks
    rw [Nat.sub_one_mul] at hmul
    omega
  -- and every shard has the packs of the widest, or one less
  have hceil : ceilDiv packs c.world ≤ packs / c.world + 1 := by
    unfold ceilDiv
    rw [← Nat.add_div_right _ h.world_pos]
    exact Nat.div_le_div_right (Nat.sub_le _ _)
  have hshard : Striping.shardStart packs c.world j + packs / c.world
      ≤ Striping.shardStart packs c.world (j + 1) := by
    unfold Striping.shardStart
    rw [Nat.succ_mul]
    exact Nat.div_add_div_le_add_div
  omega

theorem PipeMessage.shardStart_le (h : c.LaidOut) {j : ℕ} (hj : j ≤ c.world) :
    Striping.shardStart packs c.world j ≤ packs := by
  have hmono := shardStart_mono packs c.world hj
  have hlast : Striping.shardStart packs c.world c.world = packs := (m.launch h).first_world
  omega

theorem shardStart_eq (h : c.LaidOut) {j : ℕ} (hj : j ≤ c.world) :
    c.shardStart packs j = Striping.shardStart packs c.world j := by
  have hpacks := m.packs_lt
  have hle := m.shardStart_le h hj
  have hmul : j * packs ≤ 16 * 2 ^ 28 :=
    Nat.mul_le_mul (Nat.le_trans hj h.world_le) (Nat.le_of_lt hpacks)
  unfold shardStart
  rw [u64_of_lt (by omega)]
  exact u32_of_lt (Nat.lt_of_le_of_lt hle (by omega))

omit m in
theorem cut_le_succ (j chunk : ℕ) :
    cut c packs chunkPacks j chunk ≤ cut c packs chunkPacks j (chunk + 1) := by
  unfold cut
  rw [Nat.succ_mul]
  omega

/-- A shard fits into the area of a source and a phase. -/
theorem PipeMessage.shard_le_cap (h : c.LaidOut) (j : ℕ) :
    (Striping.shardStart packs c.world (j + 1) - Striping.shardStart packs c.world j) * 16
      ≤ c.layout.shardCap := by
  have hcap : Striping.shardStart packs c.world (j + 1) ≤ Striping.shardStart packs c.world j +
    shardCap c.world c.pipeBytes / 16 := (m.launch h).first_succ_le_cap j
  have hlayout : c.layout.shardCap = shardCap c.world c.pipeBytes := congrArg Layout.shardCap h.exact
  rw [hlayout]
  omega

/-- A piece of a shard is within the area of the source and the phase. -/
theorem piece_within (h : c.LaidOut) {phase chunk j : ℕ} :
    Region.Within ⟨(c.area .pipePayload c.rank phase).off +
        (cut c packs chunkPacks j chunk - Striping.shardStart packs c.world j) * 16,
      (cut c packs chunkPacks j (chunk + 1) - cut c packs chunkPacks j chunk) * 16⟩
      (c.area .pipePayload c.rank phase) := by
  have hcap := m.shard_le_cap h j
  have hfirst : Striping.shardStart packs c.world j ≤ cut c packs chunkPacks j chunk :=
    Nat.le_min.mpr ⟨Nat.le_add_right _ _, shardStart_mono packs c.world (Nat.le_succ j)⟩
  have hlast : cut c packs chunkPacks j (chunk + 1) ≤ Striping.shardStart packs c.world (j + 1) :=
    Nat.min_le_right _ _
  have hmono : cut c packs chunkPacks j chunk ≤ cut c packs chunkPacks j (chunk + 1) :=
    cut_le_succ j chunk
  unfold area
  refine Region.within_cell ?_
  omega

/-- The bytes of the pieces of a shard, one after the other, are the bytes of the shard. -/
theorem pieces_bytes (h : c.LaidOut) {base j start : ℕ}
    (hstart : start ≤ Striping.shardStart packs c.world j) :
    (List.range chunks).flatMap (fun chunk =>
        List.range' (base + (cut c packs chunkPacks j chunk - start) * 16)
          ((cut c packs chunkPacks j (chunk + 1) - cut c packs chunkPacks j chunk) * 16))
      = List.range' (base + (Striping.shardStart packs c.world j - start) * 16)
          ((Striping.shardStart packs c.world (j + 1) - Striping.shardStart packs c.world j) * 16) := by
  have hle := shardStart_mono packs c.world (Nat.le_succ j)
  have hwidest : Striping.shardStart packs c.world (j + 1)
    ≤ Striping.shardStart packs c.world j + ceilDiv packs c.world := (m.launch h).first_succ_le j
  have hcovers := m.covers h
  have hzero : cut c packs chunkPacks j 0 = Striping.shardStart packs c.world j := by
    unfold cut
    rw [Nat.zero_mul]
    exact Nat.min_eq_left hle
  have hall : cut c packs chunkPacks j chunks = Striping.shardStart packs c.world (j + 1) := by
    unfold cut
    omega
  have hge : ∀ chunk, start ≤ cut c packs chunkPacks j chunk := fun chunk =>
    Nat.le_trans hstart (Nat.le_min.mpr ⟨Nat.le_add_right _ _, hle⟩)
  have hmono : ∀ chunk, cut c packs chunkPacks j chunk ≤ cut c packs chunkPacks j (chunk + 1) :=
    cut_le_succ j
  have htile := flatMap_range'_eq (fun chunk => base + (cut c packs chunkPacks j chunk - start) * 16)
    (fun chunk => by have := hmono chunk; omega) chunks
  simp only [hzero, hall] at htile
  rw [show (Striping.shardStart packs c.world (j + 1) - Striping.shardStart packs c.world j) * 16
    = base + (Striping.shardStart packs c.world (j + 1) - start) * 16
      - (base + (Striping.shardStart packs c.world j - start) * 16) by omega, ← htile]
  refine List.flatMap_congr (fun chunk _ => ?_)
  have := hge chunk
  have := hmono chunk
  rw [show base + (cut c packs chunkPacks j (chunk + 1) - start) * 16
      - (base + (cut c packs chunkPacks j chunk - start) * 16)
    = (cut c packs chunkPacks j (chunk + 1) - cut c packs chunkPacks j chunk) * 16 by omega]

/-- The flags of a source for a chunk of a phase. -/
def chunkFlags (c : Proxy) (phase source chunk : ℕ) : Region :=
  Region.cell c.layout.pipeFlagOff (c.nHca * FLAG_STRIDE)
    ((phase * c.world + source) * MAX_CHUNKS + chunk)

omit m in
theorem chunkFlags_within {phase source chunk : ℕ} (hchunk : chunk < MAX_CHUNKS) :
    (c.chunkFlags phase source chunk).Within (c.area .pipeFlag source phase) := by
  have hle : chunk * (c.nHca * FLAG_STRIDE) + c.nHca * FLAG_STRIDE
      ≤ MAX_CHUNKS * c.nHca * FLAG_STRIDE := by
    rw [← Nat.succ_mul, Nat.mul_assoc MAX_CHUNKS]
    exact Nat.mul_le_mul_right _ hchunk
  have hcell := @Region.within_cell c.layout.pipeFlagOff _ (phase * c.world + source) _ _ hle
  unfold chunkFlags Region.cell
  rw [Nat.add_mul, Nat.mul_assoc _ MAX_CHUNKS, ← Nat.mul_assoc MAX_CHUNKS, ← Nat.add_assoc]
  exact hcell

omit m in
theorem chunkFlagOff_eq (h : c.LaidOut) (hpipe : 0 < c.pipeBytes) {phase chunk : ℕ}
    (hphase : phase < 2) (hchunk : chunk < MAX_CHUNKS) :
    c.chunkFlagOff phase chunk = (c.chunkFlags phase c.rank chunk).off := by
  have hflags : (c.chunkFlags phase c.rank chunk).Within (c.area .pipeFlag c.rank phase) :=
    chunkFlags_within hchunk
  have hstop := Nat.lt_of_le_of_lt hflags.2 (h.area_lt h.rank_lt hphase (fun _ => hpipe))
  have hsource : phase * c.world + c.rank < 2 * c.world := Region.radix_lt hphase h.rank_lt
  have hworld := h.world_le
  have hindex : (phase * c.world + c.rank) * MAX_CHUNKS + chunk < 2 ^ 11 := by
    unfold MAX_CHUNKS at *
    omega
  have hflags : ((phase * c.world + c.rank) * MAX_CHUNKS + chunk) * c.nHca ≤ 2 ^ 11 * 2 :=
    Nat.mul_le_mul (Nat.le_of_lt hindex) h.nHca_le
  unfold chunkFlags Region.cell at hstop ⊢
  rw [Region.stop_mk] at hstop
  unfold chunkFlagOff
  rw [u64_of_lt (n := phase * c.world) (by omega),
    u64_of_lt (n := phase * c.world + c.rank) (by omega), u64_of_lt (n := _ * MAX_CHUNKS) (by omega),
    u64_of_lt (n := _ + chunk) (by omega), u64_of_lt (n := _ * c.nHca) (by omega), Nat.mul_assoc _ c.nHca,
    u64_of_lt (n := _ * (c.nHca * FLAG_STRIDE)) (by omega), u64_of_lt (by omega)]

/-- **What `post_pipe_chunk` writes to a peer**, with integers of any size. -/
theorem postPipeChunkTo_eq (h : c.LaidOut) {phase chunk p : ℕ} (hphase : phase < 2)
    (hchunk : chunk < chunks) (hp : p < c.world) :
    c.postPipeChunkTo phase chunk packs chunkPacks p =
      let j := if phase = 0 then p else c.rank
      postStriped c.nHca (c.layout.pipeSendOff + cut c packs chunkPacks j chunk * 16)
        ((c.area .pipePayload c.rank phase).off +
          (cut c packs chunkPacks j chunk - Striping.shardStart packs c.world j) * 16)
        (cut c packs chunkPacks j (chunk + 1) - cut c packs chunkPacks j chunk)
        (c.chunkFlags phase c.rank chunk).off := by
  have hj : (if phase = 0 then p else c.rank) + 1 ≤ c.world := by
    have := h.rank_lt
    split_ifs <;> omega
  unfold postPipeChunkTo
  generalize (if phase = 0 then p else c.rank) = j at hj ⊢
  dsimp only
  rw [shardStart_eq m h (Nat.le_of_succ_le hj), shardStart_eq m h hj]
  have hpacks := m.packs_lt
  have hchunks := m.chunks_le h
  have hcp := m.chunkPacks_lt h
  have hrank := h.rank_lt
  have hworld := h.world_le
  have hstart := m.start_le h hchunk j
  have hlast := m.shardStart_le h hj
  have hcap := m.shard_le_cap h j
  have hsend := h.stop_lt (r := ⟨c.layout.pipeSendOff, c.pipeBytes⟩)
    (by unfold Layout.regions; simp)
  have hpayload := h.area_lt (b := .pipePayload) h.rank_lt hphase nofun
  have hwithin := m.within
  unfold area Region.cell at hpayload ⊢
  rw [Region.stop_mk] at hsend hpayload
  rw [chunkFlagOff_eq h (by have := m.packs_pos; omega) hphase (by omega)]
  unfold cut
  rw [Nat.succ_mul, ← Nat.add_assoc, Nat.min_eq_left hstart]
  rw [u64_of_lt (n := chunk * chunkPacks) (by omega),
    u64_of_lt (n := _ + chunk * chunkPacks) (by omega), if_neg (Nat.not_lt.mpr hstart),
    u64_of_lt (n := _ + chunkPacks) (by omega), ite_gt_eq_min]
  dsimp only
  generalize Striping.shardStart packs c.world j = first at *
  generalize Striping.shardStart packs c.world (j + 1) = last at *
  have hlo : (first + chunk * chunkPacks - first) * 16 ≤ c.layout.shardCap :=
    Nat.le_trans (Nat.mul_le_mul_right 16 (Nat.sub_le_sub_right hstart first)) hcap
  rw [sub64_of_le (by omega) (by omega), sub64_of_le (by omega) (by omega), u32_of_lt (by omega),
    u64_of_lt (n := (first + chunk * chunkPacks) * 16) (by omega),
    u64_of_lt (n := c.layout.pipeSendOff + _) (by omega), u64_of_lt (n := c.rank * 2) (by omega),
    u64_of_lt (n := c.rank * 2 + phase) (by omega), u64_of_lt (n := _ * c.layout.shardCap) (by omega),
    u64_of_lt (n := c.layout.pipeRecvOff + _) (by omega), u64_of_lt (n := _ * 16) (by omega),
    u64_of_lt (by omega)]

/-- The addresses of a chunk are 64-bit addresses. -/
theorem fits_pipe (h : c.LaidOut) {phase chunk j : ℕ} (hphase : phase < 2)
    (hchunk : chunk < chunks) (hj : j < c.world) :
    Fits c.nHca (c.layout.pipeSendOff + cut c packs chunkPacks j chunk * 16)
      ((c.area .pipePayload c.rank phase).off +
        (cut c packs chunkPacks j chunk - Striping.shardStart packs c.world j) * 16)
      (cut c packs chunkPacks j (chunk + 1) - cut c packs chunkPacks j chunk)
      (c.chunkFlags phase c.rank chunk).off := by
  have hpacks := m.packs_lt
  have hlast := m.shardStart_le h (show j + 1 ≤ c.world from hj)
  have hcap := m.shard_le_cap h j
  have hsend := h.stop_lt (r := ⟨c.layout.pipeSendOff, c.pipeBytes⟩)
    (by unfold Layout.regions; simp)
  have hpayload := h.area_lt (b := .pipePayload) h.rank_lt hphase nofun
  have hflags : (c.chunkFlags phase c.rank chunk).Within (c.area .pipeFlag c.rank phase) :=
    chunkFlags_within (Nat.lt_of_lt_of_le hchunk (m.chunks_le h))
  have hflag := Nat.lt_of_le_of_lt hflags.2
    (h.area_lt h.rank_lt hphase (fun _ => by have := m.packs_pos; have := m.within; omega))
  have hwithin := m.within
  have hcut : cut c packs chunkPacks j (chunk + 1) ≤ Striping.shardStart packs c.world (j + 1) :=
    Nat.min_le_right _ _
  have hcut' : cut c packs chunkPacks j chunk ≤ cut c packs chunkPacks j (chunk + 1) :=
    cut_le_succ j chunk
  unfold area Region.cell at hpayload ⊢
  unfold chunkFlags Region.cell at hflag ⊢
  rw [Region.stop_mk] at hsend hpayload hflag
  exact ⟨by omega, by omega, by dsimp only; omega, by dsimp only; omega⟩

end Twoshot

end Proxy

end RoceLayout
