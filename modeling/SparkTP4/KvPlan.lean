import Mathlib.Data.Nat.Log
import SparkTP4.GridLoop
import SparkTP4.SortedRank

/-!
# Plans that move FP4 records into V4 pages

The stock attention kernels read 64-token V4 pages, the extra cache holds FP4 records. A
plan lists the tokens to transcode with the slot of the scratch each of them goes to, and
rewrites the indices of a call to these slots. There are five of them: one slot per entry
(`planTokenMode`), the same for the entries that the kernel can read (`planGroupTorch`),
one slot per distinct token of a block of rows (`planDedupTorch`, `dedupTriton`), and the
touched 64-token sub-pages of the pool, compacted (`planPageMode`, `nativePageView`).

What the transcoding makes of a record is a parameter (`V4Rule`); where the bytes of a
record and of a row are is not.
-/

namespace KvPlan

/-! ## Records and rows -/

/-- Tokens of a V4 page. -/
def SUB : ℕ := 64

/-- Data bytes of an FP4 record. -/
def DATA : ℕ := 256

/-- Scale bytes of an FP4 record. -/
def SCALE : ℕ := 32

/-- Data bytes of a V4 row. -/
def ROW : ℕ := 576

/-- Scale bytes of a V4 row. -/
def FOOT : ℕ := 8

def SUB_PAGE_BYTES : ℕ := 37440

/-- Records per transcode program of the GPU kernels. -/
def TOK_R : ℕ := 4

/-- `-(-a // b)` -/
def cdiv (a b : ℕ) : ℕ := (a + b - 1) / b

/-- The FP4 extra cache: pages of `pbs` records, byte by byte. -/
structure Pool where
  pages : ℕ
  pbs : ℕ
  raw : ℕ → ℕ → UInt8
  pages_pos : 0 < pages
  pbs_pos : 0 < pbs

/-- The tokens of a pool. -/
def Pool.tokens (P : Pool) : ℕ := P.pages * P.pbs

/-- The bytes of an FP4 record, or of a V4 row: data and scales. -/
abbrev Bytes := List UInt8 × List UInt8

/-- `gather_records`: the bytes of the record of a token. -/
def Pool.record (P : Pool) (tok : ℕ) : Bytes :=
  ((List.range DATA).map fun i => P.raw (tok / P.pbs) (tok % P.pbs * DATA + i),
    (List.range SCALE).map fun i =>
      P.raw (tok / P.pbs) (P.pbs * DATA + tok % P.pbs * SCALE + i))

/-- `v4_rows(decode_records(data, scales))` on one record. -/
structure V4Rule where
  apply : Bytes → Bytes
  length_data : ∀ r, (apply r).1.length = ROW
  length_scales : ∀ r, (apply r).2.length = FOOT

/-- Where the data of a row starts. -/
def dataOffset (slot : ℕ) : ℕ := slot / SUB * SUB_PAGE_BYTES + slot % SUB * ROW

/-- Where the scales of a row start. -/
def scaleOffset (slot : ℕ) : ℕ := slot / SUB * SUB_PAGE_BYTES + SUB * ROW + slot % SUB * FOOT

/-- `write_v4_rows` for one row. -/
def writeV4Row (buf : ℕ → UInt8) (slot : ℕ) (row : Bytes) (a : ℕ) : UInt8 :=
  if dataOffset slot ≤ a ∧ a < dataOffset slot + ROW then row.1.getD (a - dataOffset slot) 0
  else if scaleOffset slot ≤ a ∧ a < scaleOffset slot + FOOT then
    row.2.getD (a - scaleOffset slot) 0
  else buf a

/-- The row that a reader of the pages sees at a slot. -/
def readV4Row (buf : ℕ → UInt8) (slot : ℕ) : Bytes :=
  ((List.range ROW).map fun i => buf (dataOffset slot + i),
    (List.range FOOT).map fun i => buf (scaleOffset slot + i))

/-- The row of a token, written into its slot. -/
def transcodeOne (P : Pool) (rule : V4Rule) (buf : ℕ → UInt8) (w : ℤ × ℕ) : ℕ → UInt8 :=
  writeV4Row buf w.2 (rule.apply (P.record w.1.toNat))

/-- The listed tokens, transcoded into their slots; negative ones are left out. -/
def transcodeList (P : Pool) (rule : V4Rule) (buf : ℕ → UInt8) (list : List (ℤ × ℕ)) :
    ℕ → UInt8 :=
  (list.filter fun w => decide (0 ≤ w.1)).foldl (transcodeOne P rule) buf

/-! ## Calls -/

/-- `_live`: the entries that the kernel can read. -/
def liveAt (entry : ℕ → ℕ → ℤ) (topkLen : Option (ℕ → ℤ)) (r j : ℕ) : Bool :=
  decide (0 ≤ entry r j) && match topkLen with
    | none => true
    | some len => decide ((j : ℤ) < len r)

/-- The index matrix of a call, with the length of each row where there is one. The entries
that the kernel can read are tokens of the pool. -/
structure Call (nPool : ℕ) where
  rows : ℕ
  k : ℕ
  entry : ℕ → ℕ → ℤ
  topkLen : Option (ℕ → ℤ)
  range : ∀ r < rows, ∀ j < k, liveAt entry topkLen r j = true → entry r j < nPool

/-- What a plan says: the tokens with their slots, the rewritten indices and the pages of
the scratch. -/
structure Plan where
  list : List (ℤ × ℕ)
  newIdx : ℕ → ℕ → ℤ
  nPages : ℕ

section Planners

variable {nPool : ℕ} (e : Call nPool)

def Call.live (r j : ℕ) : Bool := liveAt e.entry e.topkLen r j

/-- The entry at a position of the flattened matrix. -/
def Call.flat (p : ℕ) : ℤ := e.entry (p / e.k) (p % e.k)

/-- Whether a position of the flattened matrix is live. -/
def Call.flatLive (p : ℕ) : Bool := e.live (p / e.k) (p % e.k)

/-! ## One slot per entry -/

/-- `plan_token_mode`. It takes no lengths; a hole transcodes token 0 into its own slot. -/
def planTokenMode : Plan where
  list := (List.range (e.rows * e.k)).map fun p => (if 0 ≤ e.flat p then e.flat p else 0, p)
  newIdx r j := if 0 ≤ e.entry r j then (r * e.k + j : ℕ) else -1
  nPages := cdiv (e.rows * e.k) SUB

/-- `plan_group_torch`. -/
def planGroupTorch : Plan where
  list := (List.range (e.rows * e.k)).map fun p => (if e.flatLive p then e.flat p else -1, p)
  newIdx r j := if e.live r j then (r * e.k + j : ℕ) else -1
  nPages := cdiv (e.rows * e.k) SUB

/-! ## One slot per distinct token of a block

The keys of a block are sorted with their positions packed below them (13 bits). The first
position of each key is marked, the running count of the marks is the slot.
-/

/-- The token, or -1 for an entry that the kernel cannot read. -/
def Call.key (r j : ℕ) : ℤ := if e.live r j then e.entry r j else -1

/-- The value that a sorted position scatters into the rewritten indices. -/
def dedupSlot (base : ℕ) (key : ℕ → ℤ) (n i : ℕ) : ℤ :=
  if 0 ≤ SortedRank.sortedKey 13 key n i then
    base + SortedRank.rankAt (SortedRank.sortedKey 13 key n) i
  else -1

/-- The keys of block `b` in `plan_dedup_torch`: the matrix reshaped to blocks. -/
def torchKey (g b p : ℕ) : ℤ :=
  e.key ((b * (g * e.k) + p) / e.k) ((b * (g * e.k) + p) % e.k)

/-- The distinct tokens of a block, as `plan_dedup_torch` lists them. -/
def torchToks (g b : ℕ) : ℕ → ℤ :=
  let n := g * e.k
  let skey := SortedRank.sortedKey 13 (torchKey e g b) n
  GridLoop.writeAll (fun _ => -1) ((List.range n).map fun i =>
    (if SortedRank.firstAt skey i then (SortedRank.rankAt skey i).toNat else n, skey i))

/-- `plan_dedup_torch`. `empty` is what `torch.empty` leaves in the rewritten indices. -/
def planDedupTorch (g : ℕ) (empty : ℕ → ℕ → ℤ) : Plan where
  list := (List.range (e.rows / g)).flatMap fun b => (List.range (g * e.k)).map fun r =>
    (torchToks e g b r, b * (g * e.k) + r)
  newIdx r j :=
    let n := g * e.k
    let b := (r * e.k + j) / n
    GridLoop.writeAll (empty b) ((List.range n).map fun i =>
      (SortedRank.sortedPos 13 (torchKey e g b) n i, dedupSlot (b * n) (torchKey e g b) n i))
      ((r * e.k + j) % n)
  nPages := cdiv (e.rows * e.k) SUB

/-- `triton.next_power_of_2` -/
def nextPowerOf2 (n : ℕ) : ℕ := 2 ^ Nat.clog 2 n

/-- The keys of program `b` of `_v41c_dedup_kernel`: the rows of its block, padded. -/
def tritonKey (g b p : ℕ) : ℤ :=
  if p < g * e.k then e.key (b * g + p / e.k) (p % e.k) else -1

/-- The distinct tokens of a block, as `_v41c_dedup_kernel` counts them. -/
def tritonCnt (g b : ℕ) : ℕ :=
  Nat.count (SortedRank.firstAt (SortedRank.sortedKey 13 (tritonKey e g b)
    (nextPowerOf2 (g * e.k)))) (nextPowerOf2 (g * e.k))

/-- The distinct tokens of a block, as `_v41c_dedup_kernel` lists them. -/
def tritonToks (g b : ℕ) : ℕ → ℤ :=
  let N := nextPowerOf2 (g * e.k)
  let skey := SortedRank.sortedKey 13 (tritonKey e g b) N
  GridLoop.writeAll (fun _ => -1)
    (((List.range N).filter fun i => decide (SortedRank.firstAt skey i)).map fun i =>
      ((SortedRank.rankAt skey i).toNat, skey i))

/-- What `_v41c_dedup_kernel` stores into the rewritten indices of a block. -/
def tritonStores (g b : ℕ) : List (ℕ × ℤ) :=
  let N := nextPowerOf2 (g * e.k)
  let spos := SortedRank.sortedPos 13 (tritonKey e g b) N
  ((List.range N).filter fun i => decide (spos i < g * e.k)).map fun i =>
    ((b * g + spos i / e.k) * e.k + spos i % e.k,
      dedupSlot (b * (g * e.k)) (tritonKey e g b) N i)

/-- `_dedup_triton`: `_v41c_dedup_kernel`, then `_v41c_list_kernel` over the distinct tokens
of each block. -/
def dedupTriton (g : ℕ) (empty : ℕ → ℤ) : Plan where
  list := (List.range (e.rows / g)).flatMap fun b =>
    ((List.range (cdiv (g * e.k) TOK_R * TOK_R)).filter fun i => decide (i < tritonCnt e g b)).map
      fun i => (tritonToks e g b i, b * (g * e.k) + i)
  newIdx r j := GridLoop.writeAll empty ((List.range (e.rows / g)).flatMap (tritonStores e g))
    (r * e.k + j)
  nPages := cdiv (e.rows * e.k) SUB

/-! ## The touched sub-pages, compacted -/

/-- `mark[idx // 64] = 1` for the positions of the flattened matrix that pass. -/
def marked (pass : ℕ → Bool) (s : ℕ) : Prop :=
  ∃ p < e.rows * e.k, pass p = true ∧ e.flat p / (SUB : ℤ) = s

instance (pass : ℕ → Bool) : DecidablePred (marked e pass) := fun _ =>
  inferInstanceAs (Decidable (∃ p < e.rows * e.k, _ ∧ _))

/-- `cumsum(mark) - 1` -/
def cmap (mark : ℕ → Prop) [DecidablePred mark] (s : ℕ) : ℤ := (Nat.count mark (s + 1) : ℤ) - 1

/-- `cmap[idx // 64] * 64 + idx % 64` where the entry passes. -/
def pageIdx (mark : ℕ → Prop) [DecidablePred mark] (pass : Bool) (idx : ℤ) : ℤ :=
  if pass then cmap mark (idx / (SUB : ℤ)).toNat * (SUB : ℤ) + idx % (SUB : ℤ) else -1

/-- The tokens of a sub-page. -/
def subTokens (s : ℕ) : List ℤ := (List.range SUB).map fun j => ((s * SUB + j : ℕ) : ℤ)

/-- The slots of a page of the scratch. -/
def subSlots (page : ℕ) : List ℕ := (List.range SUB).map fun j => page * SUB + j

/-- `plan_page_mode`. It takes no lengths. -/
def planPageMode : Plan :=
  let pass p := decide (0 ≤ e.flat p)
  let touched := (List.range (cdiv nPool SUB)).filter fun s => decide (marked e pass s)
  { list := ((touched.flatMap subTokens).zip ((List.range touched.length).flatMap subSlots)).filter
      fun w => decide (w.1 < nPool)
    newIdx := fun r j => pageIdx (marked e pass) (decide (0 ≤ e.entry r j)) (e.entry r j)
    nPages := touched.length }

/-- The call that `group_page_view` hands to `plan_page_mode`: the entries that the kernel
cannot read are -1, and there are no lengths. -/
def Call.masked : Call nPool where
  rows := e.rows
  k := e.k
  entry := e.key
  topkLen := none
  range r hr j hj hlive := by
    unfold Call.key at hlive ⊢
    split
    · next h => exact e.range r hr j hj h
    · omega

/-- The pages of `native_page_view`: the last running count, read on the host. -/
def nativePages : ℕ :=
  if cdiv nPool SUB = 0 then 0
  else (cmap (marked e e.flatLive) (max (cdiv nPool SUB) 1 - 1) + 1).toNat

/-- Whether the scratch of `native_page_view` is within the cap. -/
def nativeFits (cap : ℕ) : Bool := decide (max (nativePages e) 1 * SUB_PAGE_BYTES ≤ cap)

/-- The plan of `native_page_view` without a GPU. -/
def nativeTorchPlan : Plan :=
  let mark := marked e e.flatLive
  let touched := (List.range (cdiv nPool SUB)).filter fun s => decide (mark s)
  { list := ((touched.flatMap subTokens).zip
      (touched.flatMap fun s => subSlots (cmap mark s).toNat)).filter fun w => decide (w.1 < nPool)
    newIdx := fun r j => pageIdx mark (e.live r j) (e.entry r j)
    nPages := nativePages e }

/-- The programs of `_v41n_page_kernel` for one sub-page: its records in the pool, where it
is marked. -/
def nativePageProgram (s : ℕ) : List (ℤ × ℕ) :=
  let mark := marked e e.flatLive
  if mark s then
    ((GridLoop.gridIndices (SUB / TOK_R) TOK_R).filter fun j => decide (s * SUB + j < nPool)).map
      fun j => (((s * SUB + j : ℕ) : ℤ), (cmap mark s).toNat * SUB + j)
  else []

/-- The plan of `native_page_view` on the GPU: `_v41n_mark_kernel`, `_v41n_remap_kernel` and
`_v41n_page_kernel`. -/
def nativeTritonPlan : Plan where
  list := (List.range (max (cdiv nPool SUB) 1)).flatMap (nativePageProgram e)
  newIdx r j := pageIdx (marked e e.flatLive) (e.flatLive (r * e.k + j)) (e.flat (r * e.k + j))
  nPages := nativePages e

/-- `native_page_view`: no view where the scratch would exceed the cap. -/
def nativePageView (cuda : Bool) (cap : ℕ) : Option Plan :=
  if nativeFits e cap then some (if cuda then nativeTritonPlan e else nativeTorchPlan e) else none

end Planners

/-! ## What a plan is for -/

/-- **A plan is exact** for the entries that count as live: each of them is rewritten to a
slot whose row is the transcode of its own token, every other one to -1, all written slots
are in the pages of the scratch, and no slot that is read is another token's. -/
structure Exact (P : Pool) (rule : V4Rule) (e : Call P.tokens) (plan : Plan) : Prop where
  /-- Dead entries are rewritten to -1. -/
  dead : ∀ r < e.rows, ∀ j < e.k, e.live r j = false → plan.newIdx r j = -1
  /-- Live entries are rewritten to the row of their token. -/
  live : ∀ r < e.rows, ∀ j < e.k, e.live r j = true → ∃ s : ℕ, plan.newIdx r j = s ∧
    ∀ buf, readV4Row (transcodeList P rule buf plan.list) s =
      rule.apply (P.record (e.entry r j).toNat)
  /-- Every written slot is in the scratch, and every token read is in the pool. -/
  inside : ∀ w ∈ plan.list, 0 ≤ w.1 → w.2 < plan.nPages * SUB ∧ w.1 < P.tokens
  /-- What is written to a slot that a live entry reads is that entry's token. -/
  own : ∀ r < e.rows, ∀ j < e.k, e.live r j = true → ∀ w ∈ plan.list, 0 ≤ w.1 →
    plan.newIdx r j = w.2 → w.1 = e.entry r j
  /-- Entries of different tokens read different slots. -/
  separate : ∀ r < e.rows, ∀ j < e.k, ∀ r' < e.rows, ∀ j' < e.k, e.live r j = true →
    e.live r' j' = true → plan.newIdx r j = plan.newIdx r' j' → e.entry r j = e.entry r' j'

end KvPlan
