import SparkTP4.RoceColumns
import SparkTP4.RowMajorCat

/-!
# The all-gather along the first or the last dimension

Every rank holds a contiguous tensor of the same shape, and the gather concatenates them
along dimension 0 or along the last one. The transport carries contiguous shards in packs of
16 bytes; only the reader of a rank knows the layout of its result.

* Where the rows of the shard and the addresses are whole packs the kernel writes the
  concatenation itself: pack `col` of row `row` of source `s` goes behind the packs of the
  sources before it in its row (`dest`).
* Otherwise the shard is copied to a scratch buffer whose length is a whole number of packs,
  the kernel lays the shards one after another, and the host drops the padding and moves the
  rank dimension to its place with views.

The choice depends on the addresses of a rank, so the ranks of one gather may choose
differently.
-/

namespace AllGather

open GridLoop RowMajor
open RoceColumns (PACK_BYTES)

/-! ## The host -/

/-- What the host knows of an input: `mem` is the memory from `data_ptr` on. -/
structure Input where
  shape : List ℕ
  elementSize : ℕ
  dataPtr : ℕ
  isCuda : Bool
  onDevice : Bool
  isContiguous : Bool
  isComplex : Bool
  isSparse : Bool
  isBool : Bool
  mem : ℕ → UInt8

/-- What the host knows of the output of a caller. -/
structure Out where
  shape : List ℕ
  dataPtr : ℕ
  sameDtype : Bool
  sameDevice : Bool
  isContiguous : Bool

namespace Input

/-- `inp.numel() * inp.element_size()` -/
def nbytes (inp : Input) : ℕ := inp.shape.prod * inp.elementSize

/-- `inp.shape[-1] * inp.element_size()` -/
def lastBytes (inp : Input) : ℕ := inp.shape.getLastD 0 * inp.elementSize

/-- The tensor that a contiguous input shows. -/
def tensor (inp : Input) : Tensor := Tensor.ofMem inp.shape inp.elementSize inp.mem

end Input

/-- `_normalize_dim` -/
def normalizeDim (inp : Input) (dim : ℤ) : ℤ := if dim < 0 then dim + inp.shape.length else dim

/-- `should_all_gather` -/
def shouldAllGather (maxGatherBytes : ℕ) (inp : Input) (dim : ℤ) : Bool :=
  if !inp.isCuda || inp.shape.length = 0 then false
  else if !inp.onDevice || !inp.isContiguous then false
  else if inp.isComplex || inp.isSparse || inp.isBool then false
  else if normalizeDim inp dim ≠ 0 ∧ normalizeDim inp dim ≠ (inp.shape.length : ℤ) - 1 then false
  else 0 < inp.nbytes && inp.nbytes ≤ maxGatherBytes

/-- `_direct_gather_layout` -/
def directGatherLayout (inp : Input) (dim : ℤ) : Bool :=
  if inp.nbytes % PACK_BYTES ≠ 0 ∨ inp.dataPtr % PACK_BYTES ≠ 0 then false
  else dim = 0 || inp.lastBytes % PACK_BYTES = 0

/-- `_align_up` -/
def alignUp (value alignment : ℕ) : ℕ := (value + alignment - 1) / alignment * alignment

/-- The shape of the result. -/
def gatheredShape (world : ℕ) (inp : Input) (dim : ℤ) : List ℕ :=
  inp.shape.modify dim.toNat (· * world)

/-- The check of an output that the caller gives. -/
def Out.matching (out : Out) (shape : List ℕ) : Bool :=
  out.shape = shape && out.sameDtype && out.sameDevice && out.isContiguous

/-- What `_launch_gather` passes to the kernel. -/
structure Launch where
  mem : ℕ → UInt8
  shardPacks : ℕ
  nbytes : ℕ
  rowPacks : ℕ

/-- `_launch_gather` -/
def launchGather (mem : ℕ → UInt8) (nbytes rowPacks : ℕ) : Launch where
  mem := mem
  shardPacks := nbytes / PACK_BYTES
  nbytes := nbytes
  rowPacks := rowPacks

/-- `staged[:nbytes].copy_(..)`: the scratch buffer keeps what it held behind the shard. -/
def stagedMem (inp : Input) (staged : ℕ → UInt8) : ℕ → UInt8 := fun i =>
  if i < inp.nbytes then inp.mem i else staged i

/-- What a rank does for a gather, up to the launch of its kernel. -/
structure Call where
  direct : Bool
  dim : ℕ
  shape : List ℕ
  launch : Launch

/-- `all_gather` of a rank, up to the launch of its kernel: none for a `ValueError`. -/
def allGather (world maxGatherBytes : ℕ) (inp : Input) (dim : ℤ) (out : Option Out)
    (staged : ℕ → UInt8) : Option Call :=
  let d := normalizeDim inp dim
  let shape := gatheredShape world inp d
  if shouldAllGather maxGatherBytes inp dim = false then none
  else if out.any (fun out => !out.matching shape) then none
  else if directGatherLayout inp d && out.all (fun out => out.dataPtr % PACK_BYTES = 0) then
    some {
      direct := true
      dim := d.toNat
      shape := shape
      launch := launchGather inp.mem inp.nbytes
        (if d = 0 then inp.nbytes / PACK_BYTES else inp.lastBytes / PACK_BYTES) }
  else
    let padded := alignUp inp.nbytes PACK_BYTES
    some {
      direct := false
      dim := d.toNat
      shape := shape
      launch := launchGather (stagedMem inp staged) padded (padded / PACK_BYTES) }

/-! ## The kernel -/

/-- A pack of bytes. -/
abbrev Pack : Type := Fin PACK_BYTES → UInt8

/-- The pack `p` packs after the start of a memory. -/
def readPack (mem : ℕ → UInt8) (p : ℕ) : Pack := fun e => mem (p * PACK_BYTES + e)

/-- The writes of the threads of a rank to its send slot. -/
def stage (grid threads : ℕ) (launch : Launch) : List (ℕ × Pack) :=
  (gridLoop grid threads 0 launch.shardPacks).map fun index => (index, readPack launch.mem index)

/-- Where pack `index` of source `source` is in the output. -/
def dest (world rowPacks source index : ℕ) : ℕ :=
  let outRowPacks := world * rowPacks
  let row := index / rowPacks
  let col := index - row * rowPacks
  row * outRowPacks + source * rowPacks + col

/-- The writes of the threads of rank `rank` to the output; `recv s` is what arrived from
source `s`. -/
def copy (grid threads world rank : ℕ) (launch : Launch) (recv : ℕ → ℕ → Pack) :
    List (ℕ × Pack) :=
  (List.range world).flatMap fun source =>
    (gridLoop grid threads 0 launch.shardPacks).map fun index =>
      (dest world launch.rowPacks source index,
        if source = rank then readPack launch.mem index else recv source index)

/-- **A gather, as rank `rank` sees it.** Every rank has staged its shard in a grid of its
own, the transport has copied the bytes that each doorbell carries, and the threads of a
phase write in any order. -/
structure Run (world : ℕ) (launches : ℕ → Launch) (rank : ℕ) where
  grid : ℕ → ℕ
  threads : ℕ → ℕ
  grid_pos : ∀ s, 0 < grid s
  threads_pos : ∀ s, 0 < threads s
  /-- what the send slot of each rank held -/
  slot : ℕ → ℕ → Pack
  staged : ℕ → List (ℕ × Pack)
  staged_perm : ∀ s < world, (staged s).Perm (stage (grid s) (threads s) (launches s))
  /-- the receive slots of this rank -/
  recv : ℕ → ℕ → Pack
  arrived : ∀ s < world, s ≠ rank → ∀ p, (p + 1) * PACK_BYTES ≤ (launches s).nbytes →
    recv s p = writeAll (slot s) (staged s) p
  /-- what the output held -/
  out : ℕ → Pack
  copied : List (ℕ × Pack)
  copied_perm : copied.Perm (copy (grid rank) (threads rank) world rank (launches rank) recv)

/-- The output of the kernel. -/
def Run.gathered {world : ℕ} {launches : ℕ → Launch} {rank : ℕ} (run : Run world launches rank) :
    ℕ → Pack :=
  writeAll run.out run.copied

/-! ## What the caller gets -/

/-- The bytes of an output. -/
def packMem (out : ℕ → Pack) : ℕ → UInt8 := fun i =>
  out (i / PACK_BYTES) ⟨i % PACK_BYTES, Nat.mod_lt i (by decide)⟩

/-- The views with which the host finishes a padded gather. -/
def unpad (world : ℕ) (inp : Input) (dim : ℕ) (shape : List ℕ)
    (gathered : Tensor) : Option Tensor := do
  let rows ← gathered.reshape [world, alignUp inp.nbytes PACK_BYTES]
  let kept ← rows.narrowNat 1 0 (min inp.nbytes (alignUp inp.nbytes PACK_BYTES))
  let flat ← kept.reshape [kept.shape.prod]
  let typed ← flat.viewDtype inp.elementSize
  let stacked ← typed.reshape (world :: inp.shape)
  (stacked.movedim dim).reshape shape

/-- What `all_gather` returns when the kernel has left `out` in the output. -/
def Call.result (call : Call) (world : ℕ) (inp : Input) (out : ℕ → Pack) :
    Option Tensor :=
  if call.direct then some (Tensor.ofMem call.shape inp.elementSize (packMem out))
  else unpad world inp call.dim call.shape
    (Tensor.ofMem [world * alignUp inp.nbytes PACK_BYTES] 1 (packMem out))

end AllGather
