import SparkTP4.RoceLayout

/-!
# The layout is exact

`roce_layout` admits the geometries of `Admitted` and no others, and what it
returns is what integers of any size would give (`roceLayout_eq_some`): none of
its sums and products wraps (`layoutArithmetic_lt`). The parts of the region
follow each other (`regions_eq`) up to its end (`sizes_sum`).
-/

namespace RoceLayout

open Striping TwoshotReduce

/-! ## Machine integers -/

theorem u32_of_lt {n : ℕ} (h : n < 2 ^ 32) : u32 n = n := Nat.mod_eq_of_lt h

theorem u64_of_lt {n : ℕ} (h : n < 2 ^ 64) : u64 n = n := Nat.mod_eq_of_lt h

theorem sub32_of_le {a b : ℕ} (hb : b ≤ a) (ha : a < 2 ^ 32) : sub32 a b = a - b := by
  unfold sub32 u32
  omega

theorem sub64_of_le {a b : ℕ} (hb : b ≤ a) (ha : a < 2 ^ 64) : sub64 a b = a - b := by
  unfold sub64 u64
  omega

theorem addOverflow_of_lt {a b : ℕ} (h : a + b < 2 ^ 64) : addOverflow a b = some (a + b) :=
  if_pos h

theorem mulOverflow_of_lt {a b : ℕ} (h : a * b < 2 ^ 64) : mulOverflow a b = some (a * b) :=
  if_pos h

theorem i32_of_lt {x : ℤ} (h0 : 0 ≤ x) (h : x < 2 ^ 31) : i32 x = x := by
  unfold i32
  rw [Int.bmod_def, Int.emod_eq_of_lt h0 (by omega), if_pos (by omega)]

theorem i64_of_lt {x : ℤ} (h0 : 0 ≤ x) (h : x < 2 ^ 63) : i64 x = x := by
  unfold i64
  rw [Int.bmod_def, Int.emod_eq_of_lt h0 (by omega), if_pos (by omega)]

/-! ## The layout -/

/-- The geometries that `roce_layout` admits. -/
structure Admitted (world slotBytes pipeBytes : ℕ) : Prop where
  two_le : 2 ≤ world
  le_peers : world ≤ 16
  slot_ne : slotBytes ≠ 0
  slot_mod : slotBytes % 4096 = 0
  pipe_mod : pipeBytes % 4096 = 0
  slot_le : slotBytes ≤ 2 ^ 40
  pipe_le : pipeBytes ≤ 2 ^ 32

/-- The bytes of the pipe flags. -/
def pipeFlagBytes (world pipeBytes : ℕ) : ℕ :=
  if pipeBytes = 0 then 0 else 2 * world * MAX_CHUNKS * MAX_HCAS * FLAG_STRIDE

/-- The sizes of the parts of the region: receive slots, flags, send slots, control
record, pipe send, pipe receive and pipe flags. -/
def sizes (world slotBytes pipeBytes : ℕ) : List ℕ :=
  [world * SLOTS * slotBytes, world * SLOTS * MAX_HCAS * FLAG_STRIDE, SLOTS * slotBytes, CTRL_BYTES,
    pipeBytes, world * 2 * shardCap world pipeBytes, pipeFlagBytes world pipeBytes]

/-- The parts of the region at the offsets of a layout. -/
def Layout.regions (L : Layout) (world slotBytes pipeBytes : ℕ) : List Region :=
  [⟨L.recvOff, world * SLOTS * slotBytes⟩, ⟨L.flagOff, world * SLOTS * MAX_HCAS * FLAG_STRIDE⟩,
    ⟨L.sendOff, SLOTS * slotBytes⟩, ⟨L.ctrlOff, CTRL_BYTES⟩, ⟨L.pipeSendOff, pipeBytes⟩,
    ⟨L.pipeRecvOff, world * 2 * L.shardCap⟩, ⟨L.pipeFlagOff, pipeFlagBytes world pipeBytes⟩]

/-- The layout with integers of any size. -/
def exactLayout (world slotBytes pipeBytes : ℕ) : Layout :=
  let recvBytes := world * SLOTS * slotBytes
  let sendOff := recvBytes + world * SLOTS * MAX_HCAS * FLAG_STRIDE
  let ctrlOff := sendOff + SLOTS * slotBytes
  let pipeSendOff := ctrlOff + CTRL_BYTES
  let pipeRecvOff := pipeSendOff + pipeBytes
  let pipeFlagOff := pipeRecvOff + world * 2 * shardCap world pipeBytes
  { recvOff := 0
    flagOff := recvBytes
    sendOff := sendOff
    ctrlOff := ctrlOff
    totalBytes := pipeFlagOff + pipeFlagBytes world pipeBytes
    flagStride := FLAG_STRIDE
    slots := SLOTS
    pipeSendOff := pipeSendOff
    pipeRecvOff := pipeRecvOff
    pipeFlagOff := pipeFlagOff
    shardCap := shardCap world pipeBytes
    maxChunks := MAX_CHUNKS }

/-- Every sum and product of `roce_layout`, with integers of any size. -/
def layoutArithmetic (world slotBytes pipeBytes : ℕ) : List ℕ :=
  let L := exactLayout world slotBytes pipeBytes
  let shardPacks := (pipeBytes / 16 + world - 1) / world
  [world * SLOTS, world * SLOTS * slotBytes, world * SLOTS * MAX_HCAS,
    world * SLOTS * MAX_HCAS * FLAG_STRIDE, SLOTS * slotBytes, L.sendOff, L.ctrlOff, L.pipeSendOff,
    pipeBytes / 16 + world, shardPacks * 16, shardPacks * 16 + 4095, L.shardCap, L.pipeRecvOff,
    world * 2, world * 2 * L.shardCap, L.pipeFlagOff, 2 * world, 2 * world * MAX_CHUNKS,
    2 * world * MAX_CHUNKS * MAX_HCAS, 2 * world * MAX_CHUNKS * MAX_HCAS * FLAG_STRIDE,
    L.totalBytes, 0 + L.flagOff]

section Layout

variable {world slotBytes pipeBytes : ℕ} {L : Layout}

/-- What is computed before the shard capacity is rounded. -/
theorem shardPacks_le (h : Admitted world slotBytes pipeBytes) :
    (pipeBytes / 16 + world - 1) / world ≤ 2 ^ 28 + 15 := by
  have hdiv := Nat.div_le_self (pipeBytes / 16 + world - 1) world
  have := h.le_peers
  have := h.pipe_le
  omega

theorem shardCap_le (h : Admitted world slotBytes pipeBytes) :
    shardCap world pipeBytes ≤ 2 ^ 33 := by
  have := shardPacks_le h
  unfold shardCap
  omega

theorem recvBytes_le (h : Admitted world slotBytes pipeBytes) :
    world * SLOTS * slotBytes ≤ 32 * 2 ^ 40 := by
  refine Nat.mul_le_mul ?_ h.slot_le
  have := h.le_peers
  unfold SLOTS
  omega

theorem pipeRecvBytes_le (h : Admitted world slotBytes pipeBytes) :
    world * 2 * shardCap world pipeBytes ≤ 32 * 2 ^ 33 := by
  refine Nat.mul_le_mul ?_ (shardCap_le h)
  have := h.le_peers
  omega

theorem pipeFlagBytes_le (h : Admitted world slotBytes pipeBytes) :
    pipeFlagBytes world pipeBytes ≤ 2 ^ 20 := by
  have := h.le_peers
  unfold pipeFlagBytes MAX_CHUNKS MAX_HCAS FLAG_STRIDE
  split_ifs <;> omega

theorem totalBytes_lt (h : Admitted world slotBytes pipeBytes) :
    (exactLayout world slotBytes pipeBytes).totalBytes < 2 ^ 47 := by
  have hrecv := recvBytes_le h
  have hpipe := pipeRecvBytes_le h
  have hflags := pipeFlagBytes_le h
  have := h.le_peers
  have := h.slot_le
  have := h.pipe_le
  unfold exactLayout
  dsimp only
  unfold SLOTS MAX_HCAS FLAG_STRIDE CTRL_BYTES at *
  omega

/-- **Nothing wraps** in the computation of the layout. -/
theorem layoutArithmetic_lt (h : Admitted world slotBytes pipeBytes) :
    ∀ v ∈ layoutArithmetic world slotBytes pipeBytes, v < 2 ^ 64 := by
  have htotal := totalBytes_lt h
  have hrecv := recvBytes_le h
  have hshard := shardPacks_le h
  have hcap := shardCap_le h
  have := h.le_peers
  have := h.slot_le
  have := h.pipe_le
  unfold layoutArithmetic exactLayout at *
  dsimp only at *
  unfold SLOTS MAX_HCAS FLAG_STRIDE CTRL_BYTES MAX_CHUNKS at *
  simp only [List.forall_mem_cons, List.not_mem_nil, false_imp_iff, implies_true, and_true]
  omega

theorem shardCap64_eq (h : Admitted world slotBytes pipeBytes) :
    shardCap64 world pipeBytes = shardCap world pipeBytes := by
  have hshard := shardPacks_le h
  have := h.two_le
  have := h.le_peers
  have := h.pipe_le
  unfold shardCap64 shardCap
  rw [u64_of_lt (n := pipeBytes / 16 + world) (by omega), sub64_of_le (by omega) (by omega),
    u64_of_lt (n := (pipeBytes / 16 + world - 1) / world * 16) (by omega)]
  dsimp only
  rw [u64_of_lt (n := (pipeBytes / 16 + world - 1) / world * 16 + 4095) (by omega),
    u64_of_lt (by omega)]

theorem pipeFlagBytes64_eq (h : Admitted world slotBytes pipeBytes) :
    pipeFlagBytes64 world pipeBytes = pipeFlagBytes world pipeBytes := by
  have := h.le_peers
  unfold pipeFlagBytes64 pipeFlagBytes MAX_CHUNKS MAX_HCAS FLAG_STRIDE
  rw [u64_of_lt (n := 2 * world) (by omega), u64_of_lt (n := 2 * world * 64) (by omega),
    u64_of_lt (n := 2 * world * 64 * 2) (by omega), u64_of_lt (by omega)]

/-- The offsets that are only rounded to 64 bits are exact too. -/
theorem pipeLayout_eq (h : Admitted world slotBytes pipeBytes) :
    pipeLayout world pipeBytes (exactLayout world slotBytes pipeBytes).flagOff
        (exactLayout world slotBytes pipeBytes).sendOff
        (exactLayout world slotBytes pipeBytes).ctrlOff
        (exactLayout world slotBytes pipeBytes).pipeSendOff
      = exactLayout world slotBytes pipeBytes := by
  have htotal := totalBytes_lt h
  have hpipe := pipeRecvBytes_le h
  have := h.le_peers
  unfold pipeLayout
  rw [shardCap64_eq h, pipeFlagBytes64_eq h]
  dsimp only
  rw [u64_of_lt (n := world * 2) (by omega),
    u64_of_lt (n := world * 2 * shardCap world pipeBytes) (by omega)]
  unfold exactLayout at htotal ⊢
  dsimp only at htotal ⊢
  rw [u64_of_lt (n := _ + pipeBytes) (by omega),
    u64_of_lt (n := _ + world * 2 * shardCap world pipeBytes) (by omega), u64_of_lt (by omega)]

/-- **What `roce_layout` returns.** -/
theorem roceLayout_eq_some :
    roceLayout world slotBytes pipeBytes = some L ↔
      Admitted world slotBytes pipeBytes ∧ L = exactLayout world slotBytes pipeBytes := by
  have hexact : Admitted world slotBytes pipeBytes →
      roceLayout world slotBytes pipeBytes = some (exactLayout world slotBytes pipeBytes) := by
    intro h
    have hlt := layoutArithmetic_lt h
    have hflags := u64_of_lt (hlt (0 + world * SLOTS * slotBytes) (by simp [layoutArithmetic, exactLayout]))
    unfold layoutArithmetic exactLayout at hlt
    simp only [List.forall_mem_cons] at hlt
    obtain ⟨hslots, hrecv, hhcas, hflag, hsend, hsendOff, hctrlOff, hpipeSendOff, -⟩ := hlt
    unfold roceLayout
    rw [if_neg (by have := h; unfold MAX_PEERS; rintro (_ | _ | _ | _ | _) <;> grind [Admitted]),
      if_neg (by rintro (_ | _) <;> grind [Admitted]), u64_of_lt hslots, mulOverflow_of_lt hrecv,
      u64_of_lt hhcas, mulOverflow_of_lt hflag, mulOverflow_of_lt hsend]
    simp only [Option.bind_eq_bind, Option.bind_some]
    rw [addOverflow_of_lt hsendOff, Option.bind_some, addOverflow_of_lt hctrlOff, Option.bind_some,
      addOverflow_of_lt hpipeSendOff, Option.bind_some, hflags, Nat.zero_add]
    exact congrArg some (pipeLayout_eq h)
  constructor
  · intro h
    have hadmitted : Admitted world slotBytes pipeBytes := by
      unfold roceLayout MAX_PEERS at h
      split_ifs at h with hbad hlarge
      push Not at hbad hlarge
      exact ⟨hbad.1, hbad.2.1, hbad.2.2.1, hbad.2.2.2.1, hbad.2.2.2.2, hlarge.1, hlarge.2⟩
    exact ⟨hadmitted, Option.some.inj (h.symm.trans (hexact hadmitted))⟩
  · rintro ⟨hadmitted, rfl⟩
    exact hexact hadmitted

/-- The parts of the region follow each other. -/
theorem regions_eq : (exactLayout world slotBytes pipeBytes).regions world slotBytes pipeBytes
    = Region.consecutive 0 (sizes world slotBytes pipeBytes) := by
  unfold Layout.regions exactLayout sizes
  simp only [Region.consecutive, Nat.zero_add]

theorem sizes_sum : (sizes world slotBytes pipeBytes).sum
    = (exactLayout world slotBytes pipeBytes).totalBytes := by
  unfold sizes exactLayout
  simp only [List.sum_cons, List.sum_nil]
  ring

end Layout

end RoceLayout
