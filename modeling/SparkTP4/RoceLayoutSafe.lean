import SparkTP4.RoceLayoutPosts

/-!
# The region is laid out as it is used

The kernel of a peer waits on the addresses that the proxy writes
(`kernelSlotFlag_eq`, `kernelChunkFlag_eq`), no two of them the same
(`slotFlag_inj`, `chunkFlag_inj`), and the `Int32` pack indices of the kernels are
those of integers of any size (`loopIndex_grid`). With what is posted this makes
the geometry sound (`geometry_sound`), but for messages that a 32-bit length
cannot say and grids that a 32-bit stride cannot (`not_geometry_sound`).
-/

namespace RoceLayout

open Striping TwoshotReduce GridLoop

/-! ## The flags -/

section Flags

variable {c : Proxy}

/-- The flag of HCA `hca` among the flags of a stripe. -/
def flagAddress (flags : Region) (hca : ℕ) : ℕ := flags.off + hca * FLAG_STRIDE

theorem flagAddress_lt {flags : Region} {nHca hca : ℕ} (hlen : nHca * FLAG_STRIDE ≤ flags.len)
    (hstop : flags.stop < 2 ^ 47) (hhca : hca < nHca) : flagAddress flags hca < 2 ^ 47 := by
  have hle : hca * FLAG_STRIDE ≤ nHca * FLAG_STRIDE := Nat.mul_le_mul_right _ (Nat.le_of_lt hhca)
  unfold flagAddress
  unfold Region.stop at hstop
  omega

/-- The address of the flag that `post_striped` writes. -/
theorem u64_flagAddress {flags : Region} {hca : ℕ} (hlt : flagAddress flags hca < 2 ^ 47) :
    u64 (flags.off + u64 (hca * FLAG_STRIDE)) = flagAddress flags hca := by
  unfold flagAddress at *
  rw [u64_of_lt (n := hca * FLAG_STRIDE) (by omega), u64_of_lt (by omega)]

theorem flagAddress_cell (base nHca i hca : ℕ) :
    flagAddress (Region.cell base (nHca * FLAG_STRIDE) i) hca
      = base + (i * nHca + hca) * FLAG_STRIDE := by
  show base + i * (nHca * FLAG_STRIDE) + hca * FLAG_STRIDE = _
  ring

theorem flagAddress_inj {base nHca i i' hca hca' : ℕ} (hhca : hca < nHca) (hhca' : hca' < nHca)
    (heq : flagAddress (Region.cell base (nHca * FLAG_STRIDE) i) hca
      = flagAddress (Region.cell base (nHca * FLAG_STRIDE) i') hca') : i = i' ∧ hca = hca' := by
  rw [flagAddress_cell, flagAddress_cell] at heq
  have hflags := Nat.eq_of_mul_eq_mul_right (show 0 < FLAG_STRIDE by decide) (Nat.add_left_cancel heq)
  exact Region.radix_inj hhca hhca' hflags

/-- The address that a one-shot kernel waits on, with integers of any size. -/
theorem kernelSlotFlag_eq (h : c.LaidOut) {source slot hca : ℕ} (hsource : source < c.world)
    (hslot : slot < 2) (hhca : hca < c.nHca) :
    kernelSlotFlag c.layout.flagOff c.nHca source slot hca
      = flagAddress (c.area .slotFlag source slot) hca := by
  have hlt : flagAddress (c.area .slotFlag source slot) hca < 2 ^ 47 :=
    flagAddress_lt (Nat.le_refl _) (h.area_lt hsource hslot nofun) hhca
  have hworld := h.world_le
  have hindex : (source * 2 + slot) * c.nHca ≤ 33 * 2 := Nat.mul_le_mul (by omega) h.nHca_le
  have hnHca := h.nHca_le
  have heq : c.layout.flagOff + ((source * 2 + slot) * c.nHca + hca) * FLAG_STRIDE
      = flagAddress (c.area .slotFlag source slot) hca := (flagAddress_cell _ _ _ _).symm
  unfold kernelSlotFlag SLOTS
  rw [u64_of_lt (n := source * 2) (by omega), u64_of_lt (n := source * 2 + slot) (by omega),
    u64_of_lt (n := _ * c.nHca) (by omega), u64_of_lt (n := _ + hca) (by omega),
    u64_of_lt (n := _ * FLAG_STRIDE) (by unfold FLAG_STRIDE; omega), heq]
  exact u64_of_lt (by omega)

/-- The address that a two-shot kernel waits on, with integers of any size. -/
theorem kernelChunkFlag_eq (h : c.LaidOut) (hpipe : 0 < c.pipeBytes) {phase source chunk hca : ℕ}
    (hphase : phase < 2) (hsource : source < c.world) (hchunk : chunk < MAX_CHUNKS)
    (hhca : hca < c.nHca) :
    kernelChunkFlag c.layout.pipeFlagOff c.world c.nHca phase source chunk hca
      = flagAddress (c.chunkFlags phase source chunk) hca := by
  have hlt : flagAddress (c.chunkFlags phase source chunk) hca < 2 ^ 47 :=
    flagAddress_lt (Nat.le_refl _) (Nat.lt_of_le_of_lt (Proxy.chunkFlags_within hchunk).2
      (h.area_lt hsource hphase (fun _ => hpipe))) hhca
  have hworld := h.world_le
  have hcell : phase * c.world + source < 2 * c.world := Region.radix_lt hphase hsource
  have hindex : (phase * c.world + source) * MAX_CHUNKS + chunk < 2 ^ 11 := by
    unfold MAX_CHUNKS at *
    omega
  have hflags : ((phase * c.world + source) * MAX_CHUNKS + chunk) * c.nHca ≤ 2 ^ 11 * 2 :=
    Nat.mul_le_mul (Nat.le_of_lt hindex) h.nHca_le
  have hnHca := h.nHca_le
  have heq : c.layout.pipeFlagOff +
        (((phase * c.world + source) * MAX_CHUNKS + chunk) * c.nHca + hca) * FLAG_STRIDE
      = flagAddress (c.chunkFlags phase source chunk) hca := (flagAddress_cell _ _ _ _).symm
  unfold kernelChunkFlag
  rw [u64_of_lt (n := phase * c.world + source) (by omega), u64_of_lt (n := _ * MAX_CHUNKS) (by omega),
    u64_of_lt (n := _ + chunk) (by omega), u64_of_lt (n := _ * c.nHca) (by omega),
    u64_of_lt (n := _ + hca) (by omega),
    u64_of_lt (n := _ * FLAG_STRIDE) (by unfold FLAG_STRIDE; omega), heq]
  exact u64_of_lt (by omega)

/-- No two flags of a slot share an address. -/
theorem slotFlag_inj {source source' slot hca hca' : ℕ}
    (hhca : hca < c.nHca) (hhca' : hca' < c.nHca)
    (heq : flagAddress (c.area .slotFlag source slot) hca
      = flagAddress (c.area .slotFlag source' slot) hca') : source = source' ∧ hca = hca' := by
  have hinj := flagAddress_inj hhca hhca' heq
  omega

/-- No two flags of a two-shot operation share an address. -/
theorem chunkFlag_inj {phase phase' source source' chunk chunk' hca hca' : ℕ}
    (hsource : source < c.world) (hsource' : source' < c.world) (hchunk : chunk < MAX_CHUNKS)
    (hchunk' : chunk' < MAX_CHUNKS) (hhca : hca < c.nHca) (hhca' : hca' < c.nHca)
    (heq : flagAddress (c.chunkFlags phase source chunk) hca
      = flagAddress (c.chunkFlags phase' source' chunk') hca') :
    phase = phase' ∧ source = source' ∧ chunk = chunk' ∧ hca = hca' := by
  obtain ⟨hcell, rfl⟩ := flagAddress_inj hhca hhca' heq
  obtain ⟨harea, rfl⟩ := Region.radix_inj hchunk hchunk' hcell
  obtain ⟨rfl, rfl⟩ := Region.radix_inj hsource hsource' harea
  exact ⟨rfl, rfl, rfl, rfl⟩

end Flags

/-! ## The pack indices -/

/-- **The index of a thread does not wrap** as long as there is room for one more
stride behind the last pack. -/
theorem loopIndex_eq {start stride last : ℤ} (hstart : 0 ≤ start) (hstride : 0 ≤ stride)
    (hroom : last + stride ≤ 2 ^ 31) : ∀ k : ℕ,
    (∀ j < k, loopIndex start stride j < last) → loopIndex start stride k = start + k * stride
  | 0, _ => by
    show start = start + (0 : ℕ) * stride
    rw [Nat.cast_zero, Int.zero_mul, Int.add_zero]
  | k + 1, hbelow => by
    have hk := loopIndex_eq hstart hstride hroom k (fun j hj => hbelow j (Nat.lt_succ_of_lt hj))
    have hlast := hbelow k (Nat.lt_succ_self k)
    have hpos : 0 ≤ (k : ℤ) * stride := Int.mul_nonneg (Int.natCast_nonneg k) hstride
    have hnext : (((k + 1 : ℕ) : ℤ)) * stride = k * stride + stride := by
      rw [Nat.cast_succ, Int.add_mul, Int.one_mul]
    show i32 (loopIndex start stride k + stride) = _
    rw [i32_of_lt (by omega) (by omega), hk, hnext, Int.add_assoc]

/-- The threads of a grid. -/
theorem blockIndex_eq {grid threads b t : ℕ} (hroom : grid * threads ≤ 2 ^ 31) (hb : b < grid)
    (ht : t < threads) : blockIndex threads b t = (b * threads + t : ℕ) := by
  have hlt : b * threads + t < grid * threads := Region.radix_lt hb ht
  unfold blockIndex
  rw [← Nat.cast_mul, i32_of_lt (x := (b * threads : ℕ)) (by omega) (by omega), ← Nat.cast_add,
    i32_of_lt (by omega) (by omega)]

theorem gridStride_eq {grid threads : ℕ} (hroom : grid * threads < 2 ^ 31) :
    gridStride grid threads = (grid * threads : ℕ) := by
  unfold gridStride
  rw [← Nat.cast_mul, i32_of_lt (by omega) (by omega)]

/-- **The pack index of a thread** after `k` rounds, with integers of any size. -/
theorem loopIndex_grid {first last grid threads : ℕ} {start hi : ℤ} (hstart : start = first)
    (hhi : hi ≤ last) (hpos : 0 < last) (hroom : last + grid * threads ≤ 2 ^ 31) (k : ℕ)
    (hbelow : ∀ j < k, loopIndex start (gridStride grid threads) j < hi) :
    loopIndex start (gridStride grid threads) k = (first + k * (grid * threads) : ℕ) := by
  have hstride : gridStride grid threads = (grid * threads : ℕ) := gridStride_eq (by omega)
  have hk : loopIndex start (gridStride grid threads) k = start + k * gridStride grid threads :=
    @loopIndex_eq start (gridStride grid threads) hi (by omega) (by omega) (by omega) k hbelow
  rw [hk, hstride, hstart, Nat.cast_add, Nat.cast_mul k]

/-- **The one-shot grid** has no more threads than the message has packs, up to one block. -/
theorem gridBlocks_mul_le (sizePacks maxBlocks : ℕ) {threads : ℕ} (hthreads : 0 < threads) :
    gridBlocks sizePacks threads maxBlocks * threads ≤ sizePacks + threads := by
  unfold gridBlocks
  dsimp only
  generalize hrequired : max 1 ((sizePacks + 2 * threads - 1) / (2 * threads)) = required
  have hgrid : 2 ^ Nat.size (required - 1) * threads ≤ sizePacks + threads := by
    rcases Nat.eq_zero_or_pos (required - 1) with hone | hpos
    · rw [hone, Nat.size_zero, Nat.pow_zero]
      omega
    · -- the power of two is at most twice what it is the next one of
      have hsize : 2 ^ Nat.size (required - 1) ≤ 2 * (required - 1) := by
        obtain ⟨k, hk⟩ := Nat.exists_eq_add_of_lt (Nat.size_pos.mpr hpos)
        have hle : 2 ^ k ≤ required - 1 := Nat.lt_size.mp (by omega)
        rw [hk, Nat.zero_add, Nat.pow_succ]
        omega
      have hdiv := Nat.div_mul_le_self (sizePacks + 2 * threads - 1) (2 * threads)
      have heq : required = (sizePacks + 2 * threads - 1) / (2 * threads) := by omega
      rw [← heq] at hdiv
      calc 2 ^ Nat.size (required - 1) * threads
          ≤ 2 * (required - 1) * threads := Nat.mul_le_mul_right _ hsize
        _ = (required - 1) * (2 * threads) := by ring
        _ ≤ sizePacks + threads := by
          rw [Nat.sub_one_mul]
          omega
  exact Nat.le_trans (Nat.mul_le_mul_right _ (Nat.min_le_left _ _)) hgrid

/-! ## The geometry is sound -/

/-- The layout of the region. -/
structure LayoutSound (world slotBytes pipeBytes : ℕ) (L : Layout) : Prop where
  /-- what is returned is what integers of any size give -/
  exact : L = exactLayout world slotBytes pipeBytes
  /-- no sum and no product wraps -/
  noWrap : ∀ v ∈ layoutArithmetic world slotBytes pipeBytes, v < 2 ^ 64
  disjoint : (L.regions world slotBytes pipeBytes).Pairwise Region.Apart
  within : ∀ r ∈ L.regions world slotBytes pipeBytes, r.Within ⟨0, L.totalBytes⟩

/-- The areas of the sources in the buffers that peers write to. -/
structure AreasSound (c : Proxy) : Prop where
  within : ∀ b : Buffer, ∀ source < c.world, ∀ i < 2, (b = .pipeFlag → 0 < c.pipeBytes) →
    (c.area b source i).Within (c.part b)
  apart : ∀ b : Buffer, ∀ source < c.world, ∀ source' < c.world, ∀ i < 2, ∀ i' < 2,
    (source, i) ≠ (source', i') → (c.area b source i).Apart (c.area b source' i')

/-- A one-shot message of `packs` packs with the sequence number `seq`. -/
structure OneshotSound (c : Proxy) (seq packs : ℕ) : Prop where
  /-- the proxy accepts the recorded length, and what it posts lands in the area of
  this rank and of the slot -/
  lands : ∃ writes, c.postOp seq (u32 (packs * 16)) = some writes ∧ ∀ w ∈ writes,
    w.1 < c.world ∧ w.1 ≠ c.rank ∧
      w.2.Lands (c.area .slotPayload c.rank (seq % 2)) (c.area .slotFlag c.rank (seq % 2))
  /-- every peer gets every byte of the message once -/
  tiles : ∀ writes, c.postOp seq (u32 (packs * 16)) = some writes →
    ∀ p < c.world, p ≠ c.rank →
      (toPeer p writes).flatMap Write.payload
          = List.range' (c.layout.sendOff + seq % 2 * c.slotBytes) (packs * 16) ∧
        (toPeer p writes).flatMap Write.landing
          = List.range' (c.area .slotPayload c.rank (seq % 2)).off (packs * 16)
  /-- the kernel of a peer waits for the flags that are written -/
  flags : ∀ hca < c.nHca, kernelSlotFlag c.layout.flagOff c.nHca c.rank (seq % 2) hca
    = u64 (c.slotFlagOff (seq % 2) + u64 (hca * FLAG_STRIDE))
  distinct : ∀ source < c.world, ∀ source' < c.world, ∀ hca < c.nHca, ∀ hca' < c.nHca,
    kernelSlotFlag c.layout.flagOff c.nHca source (seq % 2) hca
        = kernelSlotFlag c.layout.flagOff c.nHca source' (seq % 2) hca' →
      source = source' ∧ hca = hca'
  /-- no pack index of the kernel wraps -/
  indices : ∀ threads maxBlocks, 0 < threads → threads ≤ 1024 →
    ∀ b < gridBlocks packs threads maxBlocks, ∀ t < threads, ∀ k : ℕ,
      let grid := gridBlocks packs threads maxBlocks
      let index := loopIndex (blockIndex threads b t) (gridStride grid threads)
      (∀ j < k, index j < packs) → index k = (b * threads + t + k * (grid * threads) : ℕ)

/-- A two-shot message of `packs` packs in `chunks` chunks of `chunkPacks`. -/
structure TwoshotSound (c : Proxy) (packs chunkPacks chunks : ℕ) : Prop where
  accepted : c.acceptsPipe (u32 (packs * 16)) (u32 chunkPacks) (u32 chunks) = true
  /-- what is posted lands in the area of this rank and of the phase -/
  lands : ∀ phase < 2, ∀ chunk < chunks, ∀ w ∈ c.postPipeChunk phase chunk packs chunkPacks,
    w.1 < c.world ∧ w.1 ≠ c.rank ∧
      w.2.Lands (c.area .pipePayload c.rank phase) (c.area .pipeFlag c.rank phase)
  /-- the pieces of a shard are the bytes of the shard, each once and in order -/
  tiles : ∀ phase < 2, ∀ p < c.world, p ≠ c.rank →
    let shard := if phase = 0 then p else c.rank
    let first := Striping.shardStart packs c.world shard
    let bytes := (Striping.shardStart packs c.world (shard + 1) - first) * 16
    let writes := (List.range chunks).flatMap
      (fun chunk => toPeer p (c.postPipeChunk phase chunk packs chunkPacks))
    writes.flatMap Write.payload = List.range' (c.layout.pipeSendOff + first * 16) bytes ∧
      writes.flatMap Write.landing = List.range' (c.area .pipePayload c.rank phase).off bytes
  /-- the kernel of a peer waits for the flags that are written -/
  flags : ∀ phase < 2, ∀ chunk < chunks, ∀ hca < c.nHca,
    kernelChunkFlag c.layout.pipeFlagOff c.world c.nHca phase c.rank chunk hca
      = u64 (c.chunkFlagOff phase chunk + u64 (hca * FLAG_STRIDE))
  distinct : ∀ phase < 2, ∀ phase' < 2, ∀ source < c.world, ∀ source' < c.world,
    ∀ chunk < chunks, ∀ chunk' < chunks, ∀ hca < c.nHca, ∀ hca' < c.nHca,
      kernelChunkFlag c.layout.pipeFlagOff c.world c.nHca phase source chunk hca
          = kernelChunkFlag c.layout.pipeFlagOff c.world c.nHca phase' source' chunk' hca' →
        phase = phase' ∧ source = source' ∧ chunk = chunk' ∧ hca = hca'
  /-- no pack index of the kernel wraps, on a grid that leaves room for a stride -/
  indices : ∀ grid threads, packs + grid * threads ≤ 2 ^ 31 → ∀ shard < c.world,
    ∀ chunk < chunks, ∀ b < grid, ∀ t < threads, ∀ k : ℕ,
      let first := Striping.shardStart packs c.world shard
      let hi := kernelHi packs c.world shard chunk chunkPacks
      let index := loopIndex (i32 (kernelLo packs c.world shard chunk chunkPacks +
        blockIndex threads b t)) (gridStride grid threads)
      hi = (min (first + chunk * chunkPacks + chunkPacks)
          (Striping.shardStart packs c.world (shard + 1)) : ℕ) ∧
        ((∀ j < k, index j < hi) →
          index k = (first + chunk * chunkPacks + (b * threads + t) + k * (grid * threads) : ℕ))

section Sound

variable {c : Proxy}

theorem layoutSound {world slotBytes pipeBytes : ℕ} {L : Layout}
    (h : roceLayout world slotBytes pipeBytes = some L) :
    LayoutSound world slotBytes pipeBytes L := by
  obtain ⟨hadmitted, rfl⟩ := roceLayout_eq_some.mp h
  refine ⟨rfl, layoutArithmetic_lt hadmitted, ?_, ?_⟩
  · rw [regions_eq]
    exact Region.pairwise_consecutive _ _
  · rw [regions_eq, ← sizes_sum]
    exact fun r hr => Region.within_consecutive hr

theorem areasSound (h : c.LaidOut) : AreasSound c where
  within _ _ hsource _ hi hpipe := Proxy.area_within h hsource hi hpipe
  apart _ _ hsource _ hsource' _ hi _ hi' hne := Proxy.area_apart hsource hsource' hi hi' hne

theorem oneshotSound (h : c.LaidOut) {seq packs : ℕ} (hpos : 0 < packs)
    (hslot : packs * 16 ≤ c.slotBytes) (hword : packs * 16 < 2 ^ 32) : OneshotSound c seq packs := by
  have hseq : seq % 2 < 2 := Nat.mod_lt _ (by decide)
  have haccepts : c.acceptsOp (packs * 16) = true := by
    unfold Proxy.acceptsOp
    simp only [Bool.not_or, Bool.and_eq_true, Bool.not_eq_true', beq_eq_false_iff_ne,
      bne_eq_false_iff_eq, decide_eq_false_iff_not]
    omega
  have hpost : c.postOp seq (u32 (packs * 16))
      = some (forPeers c.world c.rank (fun _ => c.postOpTo seq (packs * 16))) := by
    unfold Proxy.postOp
    rw [u32_of_lt hword, if_pos haccepts]
  have hfits := @Proxy.fits_op c seq packs h hslot hword
  constructor
  case lands =>
    refine ⟨_, hpost, ?_⟩
    rintro ⟨p, w⟩ hw
    obtain ⟨hp, hne, hmem⟩ := mem_forPeers hw
    rw [Proxy.postOpTo_eq h hslot] at hmem
    exact ⟨hp, hne, lands_of_fits hfits (Region.within_mk.mpr ⟨Nat.le_refl _, by omega⟩)
      ⟨Nat.le_refl _, Nat.le_refl _⟩ hmem⟩
  case tiles =>
    rintro writes hwrites p hp hne
    obtain rfl := Option.some.inj (hpost.symm.trans hwrites)
    rw [toPeer_forPeers hp hne, Proxy.postOpTo_eq h hslot]
    exact ⟨postStriped_payload hfits h.nHca_pos, postStriped_landing hfits h.nHca_pos⟩
  case flags =>
    intro hca hhca
    rw [kernelSlotFlag_eq h h.rank_lt hseq hhca, Proxy.slotFlagOff_eq h hseq]
    have hstop : (c.area .slotFlag c.rank (seq % 2)).stop < 2 ^ 47 := h.area_lt h.rank_lt hseq nofun
    exact (u64_flagAddress (flagAddress_lt (Nat.le_refl _) hstop hhca)).symm
  case distinct =>
    intro source hsource source' hsource' hca hhca hca' hhca' heq
    rw [kernelSlotFlag_eq h hsource hseq hhca, kernelSlotFlag_eq h hsource' hseq hhca'] at heq
    exact slotFlag_inj hhca hhca' heq
  case indices =>
    intro threads maxBlocks hthreads hle b hb t ht k grid index hbelow
    have hgrid := gridBlocks_mul_le packs maxBlocks hthreads
    have hroom : packs + gridBlocks packs threads maxBlocks * threads ≤ 2 ^ 31 := by omega
    exact loopIndex_grid (blockIndex_eq (by omega) hb ht) (Int.le_refl _) hpos hroom k hbelow

/-- The check of the record. -/
theorem acceptsPipe_eq (h : c.LaidOut) {packs chunkPacksMin chunkPacks chunks : ℕ}
    (m : c.PipeMessage packs chunkPacksMin chunkPacks chunks) :
    c.acceptsPipe (packs * 16) chunkPacks chunks = true := by
  have hpacks := m.packs_lt
  have hcovers := m.covers h
  have hworld := h.world_le
  have hpos := h.world_pos
  have hproduct : chunks * chunkPacks ≤ 64 * 2 ^ 30 :=
    Nat.mul_le_mul (m.chunks_le h) (Nat.le_of_lt (m.chunkPacks_lt h))
  unfold Proxy.acceptsPipe
  dsimp only
  rw [Nat.mul_div_cancel _ (by decide), u32_of_lt (n := packs + c.world) (by omega),
    sub32_of_le (by omega) (by omega), u64_of_lt (by omega)]
  have hwidest : ¬ chunks * chunkPacks < (packs + c.world - 1) / c.world := Nat.not_lt.mpr hcovers
  have hwithin := m.within
  have := m.packs_pos
  have := m.chunks_pos h
  have := m.chunkPacks_pos h
  have := m.chunks_le h
  simp only [Bool.not_or, Bool.and_eq_true, Bool.not_eq_true', beq_eq_false_iff_ne,
    bne_eq_false_iff_eq, decide_eq_false_iff_not]
  refine ⟨⟨⟨⟨⟨⟨⟨?_, ?_⟩, ?_⟩, ?_⟩, ?_⟩, ?_⟩, ?_⟩, hwidest⟩ <;> omega

/-- The kernel splits a message as the proxy does. -/
theorem kernelShardStart_eq (h : c.LaidOut) {packs chunkPacksMin chunkPacks chunks : ℕ}
    (m : c.PipeMessage packs chunkPacksMin chunkPacks chunks) {shard : ℕ} (hshard : shard ≤ c.world) :
    kernelShardStart packs c.world shard = (Striping.shardStart packs c.world shard : ℕ) := by
  have hpacks := m.packs_lt
  have hle := m.shardStart_le h hshard
  have hmul : shard * packs ≤ 16 * 2 ^ 28 :=
    Nat.mul_le_mul (Nat.le_trans hshard h.world_le) (Nat.le_of_lt hpacks)
  unfold kernelShardStart
  rw [← Nat.cast_mul, i64_of_lt (by omega) (by omega), ← Int.natCast_ediv]
  exact i32_of_lt (Int.natCast_nonneg _) (by unfold Striping.shardStart at hle; omega)

theorem kernelLo_eq (h : c.LaidOut) {packs chunkPacksMin chunkPacks chunks : ℕ}
    (m : c.PipeMessage packs chunkPacksMin chunkPacks chunks) {shard chunk : ℕ}
    (hshard : shard < c.world) (hchunk : chunk < chunks) :
    kernelLo packs c.world shard chunk chunkPacks
      = (Striping.shardStart packs c.world shard + chunk * chunkPacks : ℕ) := by
  have hpacks := m.packs_lt
  have hstart := m.start_le h hchunk shard
  have hlast := m.shardStart_le h (show shard + 1 ≤ c.world from hshard)
  unfold kernelLo
  rw [kernelShardStart_eq h m (Nat.le_of_lt hshard), ← Nat.cast_mul,
    i32_of_lt (x := (chunk * chunkPacks : ℕ)) (by omega) (by omega), ← Nat.cast_add,
    i32_of_lt (by omega) (by omega)]

theorem kernelHi_eq (h : c.LaidOut) {packs chunkPacksMin chunkPacks chunks : ℕ}
    (m : c.PipeMessage packs chunkPacksMin chunkPacks chunks) {shard chunk : ℕ}
    (hshard : shard < c.world) (hchunk : chunk < chunks) :
    kernelHi packs c.world shard chunk chunkPacks
      = (min (Striping.shardStart packs c.world shard + chunk * chunkPacks + chunkPacks)
          (Striping.shardStart packs c.world (shard + 1)) : ℕ) := by
  have hpacks := m.packs_lt
  have hcp := m.chunkPacks_lt h
  have hstart := m.start_le h hchunk shard
  have hlast := m.shardStart_le h (show shard + 1 ≤ c.world from hshard)
  unfold kernelHi
  rw [kernelLo_eq h m hshard hchunk, ← Nat.cast_succ, kernelShardStart_eq h m hshard, ← Nat.cast_add,
    i32_of_lt (by omega) (by omega)]
  show min (Striping.shardStart packs c.world (shard + 1) : ℤ) _ = _
  omega

theorem twoshotSound (h : c.LaidOut) {packs chunkPacksMin chunkPacks chunks : ℕ}
    (m : c.PipeMessage packs chunkPacksMin chunkPacks chunks) :
    TwoshotSound c packs chunkPacks chunks := by
  have hpipe : 0 < c.pipeBytes := by
    have := m.packs_pos
    have := m.within
    omega
  have hchunks := m.chunks_le h
  have hcp := m.chunkPacks_lt h
  have hshard : ∀ {phase p}, p < c.world → (if phase = 0 then p else c.rank) < c.world := by
    intro phase p hp
    have := h.rank_lt
    split_ifs <;> omega
  constructor
  case accepted =>
    have hmax : MAX_CHUNKS = 64 := rfl
    rw [u32_of_lt m.word, u32_of_lt (by omega), u32_of_lt (by omega)]
    exact acceptsPipe_eq h m
  case lands =>
    rintro phase hphase chunk hchunk ⟨p, w⟩ hw
    obtain ⟨hp, hne, hmem⟩ := mem_forPeers hw
    rw [Proxy.postPipeChunkTo_eq m h hphase hchunk hp] at hmem
    refine ⟨hp, hne, lands_of_fits (Proxy.fits_pipe m h hphase hchunk (hshard hp)) ?_ ?_ hmem⟩
    · exact Proxy.piece_within m h
    · exact Proxy.chunkFlags_within (Nat.lt_of_lt_of_le hchunk hchunks)
  case tiles =>
    intro phase hphase p hp hne shard first bytes writes
    have hpieces : ∀ f : Write → List ℕ, writes.flatMap f = (List.range chunks).flatMap
        (fun chunk => (c.postPipeChunkTo phase chunk packs chunkPacks p).flatMap f) := by
      intro f
      show List.flatMap f (List.flatMap _ _) = _
      rw [List.flatMap_assoc]
      refine List.flatMap_congr (fun chunk _ => ?_)
      unfold Proxy.postPipeChunk
      rw [toPeer_forPeers hp hne]
    constructor
    · have hbytes := @Proxy.pieces_bytes _ _ _ _ _ m h c.layout.pipeSendOff shard _
        (Nat.zero_le _)
      simp only [Nat.sub_zero] at hbytes
      rw [hpieces, ← hbytes]
      refine List.flatMap_congr (fun chunk hchunk => ?_)
      have hchunk := List.mem_range.mp hchunk
      rw [Proxy.postPipeChunkTo_eq m h hphase hchunk hp]
      exact postStriped_payload (Proxy.fits_pipe m h hphase hchunk (hshard hp)) h.nHca_pos
    · have hbytes := @Proxy.pieces_bytes _ _ _ _ _ m h (c.area .pipePayload c.rank phase).off _ _
        (Nat.le_refl (Striping.shardStart packs c.world shard))
      rw [Nat.sub_self, Nat.zero_mul, Nat.add_zero] at hbytes
      rw [hpieces, ← hbytes]
      refine List.flatMap_congr (fun chunk hchunk => ?_)
      have hchunk := List.mem_range.mp hchunk
      rw [Proxy.postPipeChunkTo_eq m h hphase hchunk hp]
      exact postStriped_landing (Proxy.fits_pipe m h hphase hchunk (hshard hp)) h.nHca_pos
  case flags =>
    intro phase hphase chunk hchunk hca hhca
    have hlt := Nat.lt_of_lt_of_le hchunk hchunks
    have hstop : (c.chunkFlags phase c.rank chunk).stop < 2 ^ 47 := Nat.lt_of_le_of_lt
      (Proxy.chunkFlags_within hlt).2 (h.area_lt h.rank_lt hphase (fun _ => hpipe))
    rw [kernelChunkFlag_eq h hpipe hphase h.rank_lt hlt hhca, Proxy.chunkFlagOff_eq h hpipe hphase hlt]
    exact (u64_flagAddress (flagAddress_lt (Nat.le_refl _) hstop hhca)).symm
  case distinct =>
    intro phase hphase phase' hphase' source hsource source' hsource' chunk hchunk chunk' hchunk' hca
      hhca hca' hhca' heq
    have hlt := Nat.lt_of_lt_of_le hchunk hchunks
    have hlt' := Nat.lt_of_lt_of_le hchunk' hchunks
    rw [kernelChunkFlag_eq h hpipe hphase hsource hlt hhca,
      kernelChunkFlag_eq h hpipe hphase' hsource' hlt' hhca'] at heq
    exact chunkFlag_inj hsource hsource' hlt hlt' hhca hhca' heq
  case indices =>
    intro grid threads hroom shard hshard chunk hchunk b hb t ht k first hi index
    have hindex : b * threads + t < grid * threads := Region.radix_lt hb ht
    have hstart := m.start_le h hchunk shard
    have hlast := m.shardStart_le h (show shard + 1 ≤ c.world from hshard)
    have hpos := m.packs_pos
    have hhi := kernelHi_eq h m hshard hchunk
    refine ⟨hhi, loopIndex_grid ?_ ?_ hpos hroom k⟩
    · rw [kernelLo_eq h m hshard hchunk, blockIndex_eq (by omega) hb ht, ← Nat.cast_add]
      exact i32_of_lt (by omega) (by omega)
    · refine Int.le_trans (Int.le_of_eq hhi) ?_
      omega

end Sound

/-- **The geometry is sound.** Whatever `roce_layout` admits, on one or two HCAs:
nothing wraps, the parts of the region and the areas in them are apart, and every
message below `2 ^ 32` bytes is accepted, is cut into pieces that tile it, lands in
the areas of its source with flags of its own, and is handled by pack indices that
do not wrap. -/
theorem geometry_sound {world slotBytes pipeBytes nHca : ℕ} {L : Layout}
    (hlayout : roceLayout world slotBytes pipeBytes = some L) (hnHca : nHca = 1 ∨ nHca = 2) :
    LayoutSound world slotBytes pipeBytes L ∧
      ∀ rank < world, AreasSound ⟨world, rank, nHca, slotBytes, pipeBytes, L⟩ ∧
        (∀ seq packs, 0 < packs → packs * 16 ≤ slotBytes → packs * 16 < 2 ^ 32 →
          OneshotSound ⟨world, rank, nHca, slotBytes, pipeBytes, L⟩ seq packs) ∧
        (∀ packs chunkPacksMin chunkPacks chunks, 0 < packs → packs * 16 ≤ pipeBytes →
          packs * 16 < 2 ^ 32 → chunkPacksMin < 2 ^ 30 →
          pipeGeometry (packs * packBytes) world chunkPacksMin MAX_CHUNKS
            = some (chunkPacks, chunks) →
          TwoshotSound ⟨world, rank, nHca, slotBytes, pipeBytes, L⟩ packs chunkPacks chunks) := by
  refine ⟨layoutSound hlayout, fun rank hrank => ?_⟩
  have hlaidOut : Proxy.LaidOut ⟨world, rank, nHca, slotBytes, pipeBytes, L⟩ := by
    refine ⟨hlayout, hrank, ?_, ?_⟩ <;> dsimp only <;> omega
  refine ⟨areasSound hlaidOut, fun seq packs hpos hslot hword => ?_,
    fun packs chunkPacksMin chunkPacks chunks hpos hpipe hword hmin hgeometry => ?_⟩
  · exact oneshotSound hlaidOut hpos hslot hword
  · exact twoshotSound hlaidOut ⟨hpos, hpipe, hword, hmin, hgeometry⟩

/-- Four ranks with two HCAs each. -/
theorem geometry_sound_four : ∃ L, roceLayout 4 4096 65536 = some L ∧
    LayoutSound 4 4096 65536 L ∧ OneshotSound ⟨4, 1, 2, 4096, 65536, L⟩ 7 256 ∧
      TwoshotSound ⟨4, 1, 2, 4096, 65536, L⟩ 4096 100 11 := by
  have hlayout : roceLayout 4 4096 65536 = some (exactLayout 4 4096 65536) := by decide +kernel
  have hsound := geometry_sound hlayout (Or.inr rfl)
  have hrank := hsound.2 1 (by decide)
  exact ⟨_, hlayout, hsound.1, hrank.2.1 7 256 (by decide) (by decide) (by decide),
    hrank.2.2 4096 100 100 11 (by decide) (by decide) (by decide) (by decide) (by decide)⟩

/-- A message of `2 ^ 32` bytes is within the largest pipe and within the larger
slots, and its length is zero in the record. A grid of `2 ^ 31` threads has no stride. -/
theorem not_geometry_sound :
    (∃ L, roceLayout 2 4096 (2 ^ 32) = some L ∧
      pipeGeometry (2 ^ 32) 2 1 MAX_CHUNKS = some (2 ^ 21, 64) ∧
      Proxy.acceptsPipe ⟨2, 0, 2, 4096, 2 ^ 32, L⟩ (u32 (2 ^ 32)) (u32 (2 ^ 21)) (u32 64) = false) ∧
    (∃ L, roceLayout 2 (2 ^ 32) 0 = some L ∧
      Proxy.postOp ⟨2, 0, 2, 2 ^ 32, 0, L⟩ 1 (u32 (2 ^ 32)) = none) ∧
    gridStride (2 ^ 22) 512 ≠ 2 ^ 22 * 512 :=
  ⟨⟨exactLayout 2 4096 (2 ^ 32), by decide +kernel, by decide +kernel, rfl⟩,
    ⟨exactLayout 2 (2 ^ 32) 0, by decide +kernel, rfl⟩, by decide +kernel⟩

end RoceLayout
