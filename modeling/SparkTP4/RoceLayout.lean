import Mathlib.Data.Int.Notation
import Mathlib.Data.Nat.Size
import SparkTP4.Region
import SparkTP4.TwoshotReduce

/-!
# The pinned region and who writes where

The region of a rank as `roce_layout` lays it out, the RDMA writes that the proxy
posts for a one-shot payload (`post_op`) and for a chunk of a two-shot phase
(`post_pipe_chunk`), the check of a two-shot record (`run_pipe_op`)
(`_roce_proxy.c`), and the flag addresses and pack indices of the kernels
(`_oneshot_cute.py`, `_twoshot_cute.py`). Every computation has the width it has
in the source: `uint64_t` and `Int64` addresses, `uint32_t` counts, and `Int32`
pack indices.
-/

namespace RoceLayout

open Striping TwoshotReduce

/-! ## Machine integers -/

/-- A `uint32_t`. -/
def u32 (n : ℕ) : ℕ := n % 2 ^ 32

/-- A `uint64_t`. -/
def u64 (n : ℕ) : ℕ := n % 2 ^ 64

/-- The difference of two `uint32_t`. -/
def sub32 (a b : ℕ) : ℕ := u32 (a + 2 ^ 32 - b)

/-- The difference of two `uint64_t`. -/
def sub64 (a b : ℕ) : ℕ := u64 (a + 2 ^ 64 - b)

/-- An `Int32`. -/
def i32 (x : ℤ) : ℤ := x.bmod (2 ^ 32)

/-- An `Int64`. -/
def i64 (x : ℤ) : ℤ := x.bmod (2 ^ 64)

/-- `__builtin_add_overflow`, `none` where it reports an overflow. -/
def addOverflow (a b : ℕ) : Option ℕ := if a + b < 2 ^ 64 then some (a + b) else none

/-- `__builtin_mul_overflow`, `none` where it reports an overflow. -/
def mulOverflow (a b : ℕ) : Option ℕ := if a * b < 2 ^ 64 then some (a * b) else none

/-! ## The layout -/

def MAX_PEERS : ℕ := 16
def MAX_HCAS : ℕ := 2
def SLOTS : ℕ := 2
def FLAG_STRIDE : ℕ := 128
def CTRL_BYTES : ℕ := 4096
def MAX_CHUNKS : ℕ := 64

/-- What `roce_layout` returns. -/
structure Layout where
  recvOff : ℕ
  flagOff : ℕ
  sendOff : ℕ
  ctrlOff : ℕ
  totalBytes : ℕ
  flagStride : ℕ
  slots : ℕ
  pipeSendOff : ℕ
  pipeRecvOff : ℕ
  pipeFlagOff : ℕ
  shardCap : ℕ
  maxChunks : ℕ
deriving DecidableEq, Repr

/-- `shard_cap` as it is computed. -/
def shardCap64 (world pipeBytes : ℕ) : ℕ :=
  let shardCap := u64 (sub64 (u64 (pipeBytes / 16 + world)) 1 / world * 16)
  u64 (u64 (shardCap + 4095) / 4096 * 4096)

/-- `pipe_flag_bytes` as it is computed. -/
def pipeFlagBytes64 (world pipeBytes : ℕ) : ℕ :=
  if pipeBytes = 0 then 0
  else u64 (u64 (u64 (u64 (2 * world) * MAX_CHUNKS) * MAX_HCAS) * FLAG_STRIDE)

/-- The offsets behind the control record. -/
def pipeLayout (world pipeBytes flagOff sendOff ctrlOff pipeSendOff : ℕ) : Layout :=
  let shardCap := shardCap64 world pipeBytes
  let pipeRecvOff := u64 (pipeSendOff + pipeBytes)
  let pipeFlagOff := u64 (pipeRecvOff + u64 (u64 (world * 2) * shardCap))
  { recvOff := 0
    flagOff := flagOff
    sendOff := sendOff
    ctrlOff := ctrlOff
    totalBytes := u64 (pipeFlagOff + pipeFlagBytes64 world pipeBytes)
    flagStride := FLAG_STRIDE
    slots := SLOTS
    pipeSendOff := pipeSendOff
    pipeRecvOff := pipeRecvOff
    pipeFlagOff := pipeFlagOff
    shardCap := shardCap
    maxChunks := MAX_CHUNKS }

/-- `roce_layout`, or `none` for -1. -/
def roceLayout (world slotBytes pipeBytes : ℕ) : Option Layout :=
  if world < 2 ∨ world > MAX_PEERS ∨ slotBytes = 0 ∨ slotBytes % 4096 ≠ 0 ∨
      pipeBytes % 4096 ≠ 0 then none
  else if slotBytes > 2 ^ 40 ∨ pipeBytes > 2 ^ 32 then none
  else do
    let recvBytes ← mulOverflow (u64 (world * SLOTS)) slotBytes
    let flagBytes ← mulOverflow (u64 (u64 (world * SLOTS) * MAX_HCAS)) FLAG_STRIDE
    let sendBytes ← mulOverflow SLOTS slotBytes
    let sendOff ← addOverflow recvBytes flagBytes
    let ctrlOff ← addOverflow sendOff sendBytes
    let pipeSendOff ← addOverflow ctrlOff CTRL_BYTES
    some (pipeLayout world pipeBytes (u64 (0 + recvBytes)) sendOff ctrlOff pipeSendOff)

/-! ## The proxy -/

/-- What the proxy of a rank knows of the geometry (`roce_ctx_t`). -/
structure Proxy where
  world : ℕ
  rank : ℕ
  nHca : ℕ
  slotBytes : ℕ
  pipeBytes : ℕ
  layout : Layout

/-- An RDMA write. -/
structure Write where
  hca : ℕ
  /-- where the payload is in the own region; the flag is written inline -/
  source : Option ℕ
  /-- where it goes in the region of the peer -/
  target : Region
deriving DecidableEq, Repr

/-- `pack_offset` before the stripe `h`. -/
def stripeOffset (packs nHca : ℕ) : ℕ → ℕ
  | 0 => 0
  | h + 1 => u32 (stripeOffset packs nHca h + stripePacks packs nHca h)

/-- The stripe of a message on an HCA and its flag. -/
def postStripe (nHca send remoteOff packs flagOff h : ℕ) : List Write :=
  let stripeBytes := u32 (stripePacks packs nHca h * 16)
  let byteOffset := u64 (stripeOffset packs nHca h * 16)
  let flag : Write := ⟨h, none, ⟨u64 (flagOff + u64 (h * FLAG_STRIDE)), 4⟩⟩
  if stripeBytes ≠ 0 then
    [⟨h, some (u64 (send + byteOffset)), ⟨u64 (remoteOff + byteOffset), stripeBytes⟩⟩, flag]
  else [flag]

/-- `post_striped` -/
def postStriped (nHca send remoteOff packs flagOff : ℕ) : List Write :=
  (List.range nHca).flatMap (postStripe nHca send remoteOff packs flagOff)

/-- The loop over the peers of a rank, each write with the peer it goes to. -/
def forPeers (world rank : ℕ) (f : ℕ → List Write) : List (ℕ × Write) :=
  (List.range world).flatMap (fun p => if p = rank then [] else (f p).map (fun w => (p, w)))

namespace Proxy

variable (c : Proxy)

/-- `post_op` refuses the payload otherwise. -/
def acceptsOp (nbytes : ℕ) : Bool :=
  !(nbytes == 0 || nbytes % 16 != 0 || decide (nbytes > c.slotBytes))

/-- The flags of this rank in a slot. -/
def slotFlagOff (slot : ℕ) : ℕ :=
  u64 (c.layout.flagOff + u64 (u64 (u64 (u64 (c.rank * SLOTS) + slot) * c.nHca) * FLAG_STRIDE))

/-- What `post_op` writes to one peer. -/
def postOpTo (seq nbytes : ℕ) : List Write :=
  let slot := seq % 2
  let send := u64 (c.layout.sendOff + u64 (slot * c.slotBytes))
  let remoteOff := u64 (c.layout.recvOff + u64 (u64 (u64 (c.rank * SLOTS) + slot) * c.slotBytes))
  postStriped c.nHca send remoteOff (nbytes / 16) (c.slotFlagOff slot)

/-- `post_op`: the writes and the peers they go to. -/
def postOp (seq nbytes : ℕ) : Option (List (ℕ × Write)) :=
  if c.acceptsOp nbytes then some (forPeers c.world c.rank (fun _ => c.postOpTo seq nbytes))
  else none

/-- `shard_start` -/
def shardStart (total j : ℕ) : ℕ := u32 (u64 (j * total) / c.world)

/-- The flags of this rank for a chunk of a phase. -/
def chunkFlagOff (phase chunk : ℕ) : ℕ :=
  u64 (c.layout.pipeFlagOff + u64 (u64 (u64 (u64 (u64 (u64 (phase * c.world) + c.rank) *
    MAX_CHUNKS) + chunk) * c.nHca) * FLAG_STRIDE))

/-- What `post_pipe_chunk` writes to the peer `p`. -/
def postPipeChunkTo (phase chunk total chunkPacks p : ℕ) : List Write :=
  let shard := if phase = 0 then p else c.rank
  let first := c.shardStart total shard
  let last := c.shardStart total (shard + 1)
  let lo := u64 (first + u64 (chunk * chunkPacks))
  let hi := u64 (lo + chunkPacks)
  let lo := if lo > last then last else lo
  let hi := if hi > last then last else hi
  let remoteOff := u64 (u64 (c.layout.pipeRecvOff +
    u64 (u64 (u64 (c.rank * 2) + phase) * c.layout.shardCap)) + u64 (sub64 lo first * 16))
  postStriped c.nHca (u64 (c.layout.pipeSendOff + u64 (lo * 16))) remoteOff (u32 (sub64 hi lo))
    (c.chunkFlagOff phase chunk)

/-- `post_pipe_chunk`: the writes and the peers they go to. -/
def postPipeChunk (phase chunk total chunkPacks : ℕ) : List (ℕ × Write) :=
  forPeers c.world c.rank (c.postPipeChunkTo phase chunk total chunkPacks)

/-- `run_pipe_op` refuses the record otherwise. -/
def acceptsPipe (nbytes chunkPacks chunks : ℕ) : Bool :=
  let total := nbytes / 16
  let widest := sub32 (u32 (total + c.world)) 1 / c.world
  !(c.pipeBytes == 0 || nbytes == 0 || nbytes % 16 != 0 || decide (nbytes > c.pipeBytes) ||
    chunks == 0 || decide (chunks > MAX_CHUNKS) || chunkPacks == 0 ||
    decide (u64 (chunks * chunkPacks) < widest))

end Proxy

/-! ## The kernels -/

/-- The flag that the one-shot kernel waits for. -/
def kernelSlotFlag (flagBase nHca peer slot hca : ℕ) : ℕ :=
  u64 (flagBase + u64 (u64 (u64 (u64 (u64 (peer * SLOTS) + slot) * nHca) + hca) * FLAG_STRIDE))

/-- The flag that the two-shot kernel waits for (`_wait_chunk`). -/
def kernelChunkFlag (flagBase world nHca phase peer chunk hca : ℕ) : ℕ :=
  u64 (flagBase + u64 (u64 (u64 (u64 (u64 (u64 (phase * world + peer) * MAX_CHUNKS) + chunk) *
    nHca) + hca) * FLAG_STRIDE))

/-- `index` of a thread. -/
def blockIndex (threads b t : ℤ) : ℤ := i32 (i32 (b * threads) + t)

/-- `stride` of a grid. -/
def gridStride (grid threads : ℤ) : ℤ := i32 (grid * threads)

/-- The index of a thread after `k` rounds of its loop. -/
def loopIndex (start stride : ℤ) : ℕ → ℤ
  | 0 => start
  | k + 1 => i32 (loopIndex start stride k + stride)

/-- `_shard_start` -/
def kernelShardStart (sizePacks world shard : ℤ) : ℤ := i32 (i64 (shard * sizePacks) / world)

/-- `lo` of a chunk of a shard. -/
def kernelLo (sizePacks world shard chunk chunkPacks : ℤ) : ℤ :=
  i32 (kernelShardStart sizePacks world shard + i32 (chunk * chunkPacks))

/-- `hi` of a chunk of a shard. -/
def kernelHi (sizePacks world shard chunk chunkPacks : ℤ) : ℤ :=
  min (kernelShardStart sizePacks world (shard + 1))
    (i32 (kernelLo sizePacks world shard chunk chunkPacks + chunkPacks))

/-- `_grid_blocks` -/
def gridBlocks (sizePacks threads maxBlocks : ℕ) : ℕ :=
  let packsPerBlock := 2 * threads
  let required := max 1 ((sizePacks + packsPerBlock - 1) / packsPerBlock)
  min (2 ^ Nat.size (required - 1)) maxBlocks

end RoceLayout
