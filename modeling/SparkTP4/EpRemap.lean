import Mathlib.Data.Int.Init
import SparkTP4.MaskedTile

/-!
# The expert-parallel remap

A rank holds the experts `offset ≤ id < offset + num_local`. Before its MoE runs, the ids of a
batch are made local: a slot of a local expert keeps its expert and weight, and any other slot
– another rank's expert, or the padding `-1` – gets weight 0 and an expert the batch reads
anyway: the lowest local one of its row, else the lowest of the batch, else 0.

`kernel` does so in two passes over blocks of 32 rows, in masked tiles, reading both inputs by
their strides; ids and offset are 32-bit there, and wrap around. `ep_remap_reference` is the
same on whole tensors, with 64-bit ids. An id is a 32-bit value in a tensor of either width;
the addresses of a view are exact, and the inputs are not the outputs.
-/

namespace EpRemap

open MaskedTile StridedMatrix

variable {V F : Type}

/-- The experts of a rank. -/
structure Shard where
  offset : ℤ
  numLocal : ℤ
  offset_nonneg : 0 ≤ offset
  numLocal_pos : 0 < numLocal
  /-- Expert ids are 32-bit. -/
  end_lt : offset + numLocal < 2 ^ 31

/-- The greatest 32-bit value. -/
def big : ℤ := 2 ^ 31 - 1

/-- The 32-bit value of an integer. -/
def wrap32 (x : ℤ) : ℤ := x.bmod (2 ^ 32)

/-- A value of 32 bits. -/
def IsInt32 (x : ℤ) : Prop := -2 ^ 31 ≤ x ∧ x < 2 ^ 31

/-- The block of rows, `BR` -/
def br : ℕ := 32

/-- The inputs: `topk_ids` and `topk_weights`, and the cast of a weight to fp32. -/
structure Inputs (V F : Type) where
  topkIds : View ℤ
  topkWeights : View V
  toFloat32 : V → F

/-! ## The kernel -/

section kernel

variable (S : Shard) (x : Inputs V F)

/-- `m`, the mask of a lane -/
def mask (r c : ℕ) : Bool := decide (r < x.topkIds.rows) && decide (c < x.topkIds.cols)

/-- `tl.load(IDS + …, mask=m, other=-1).to(tl.int32) - OFFSET` -/
def laneLid (r c : ℕ) : ℤ :=
  wrap32 (wrap32 (if mask x r c then x.topkIds.elem r c else -1) - S.offset)

/-- `ok` -/
def laneOk (r c : ℕ) : Bool :=
  mask x r c && decide (0 ≤ laneLid S x r c) && decide (laneLid S x r c < S.numLocal)

/-- `tl.where(ok, lid, 2147483647)` -/
def laneMin (r c : ℕ) : ℤ := if laneOk S x r c then laneLid S x r c else big

/-- The columns of a tile, `KP` -/
def kp : ℕ := nextPowerOf2 x.topkIds.cols

/-- The first pass. -/
def best : ℤ := blocksMin big br x.topkIds.rows (kp x) (laneMin S x)

/-- `fb` -/
def fb : ℤ := if best S x < S.numLocal then best S x else 0

/-- `row_min` -/
def rowMin (r : ℕ) : ℤ := minOf big ((List.range (kp x)).map (laneMin S x r))

/-- `fill` -/
def fill (r : ℕ) : ℤ := if rowMin S x r < S.numLocal then rowMin S x r else fb S x

/-- What the second pass stores in `OUT_IDS`. -/
def outId (r c : ℕ) : ℤ := if laneOk S x r c then laneLid S x r c else fill S x r

/-- What the second pass stores in `OUT_W`; `tl.load(W + …, mask=m, other=0.0)` of a lane that
is masked off is not stored. -/
def outWeight [Zero F] (r c : ℕ) : F :=
  if laneOk S x r c then x.toFloat32 (x.topkWeights.elem r c) else 0

/-- The two passes: the contents of `OUT_IDS` and `OUT_W`. -/
def kernel [Zero F] (outIds : ℕ → ℤ) (outW : ℕ → F) : (ℕ → ℤ) × (ℕ → F) :=
  (blocksStore br (kp x) x.topkIds.rows x.topkIds.cols (outId S x) outIds,
    blocksStore br (kp x) x.topkIds.rows x.topkIds.cols (outWeight S x) outW)

end kernel

/-- `ep_remap`: the outputs, or `none` where it raises. -/
def epRemap [Zero F] (S : Shard) (x : Inputs V F) (outIds : View ℤ) (outW : View F) :
    Option (View ℤ × View F) :=
  if x.topkIds.rows = 0 then some (outIds, outW)
  else if x.topkWeights.rows = x.topkIds.rows ∧ x.topkWeights.cols = x.topkIds.cols ∧
      outIds.isContiguous = true ∧ outW.isContiguous = true ∧
      x.topkIds.rows ≤ outIds.rows ∧ x.topkIds.rows ≤ outW.rows then
    some ({ outIds with data := (kernel S x outIds.data outW.data).1 },
      { outW with data := (kernel S x outIds.data outW.data).2 })
  else none

/-! ## The reference -/

section reference

variable (S : Shard) (x : Inputs V F)

/-- `topk_ids.to(torch.int64) - offset` -/
def refLid (r c : ℕ) : ℤ := x.topkIds.elem r c - S.offset

/-- `ok` -/
def refOk (r c : ℕ) : Bool := decide (0 ≤ refLid S x r c) && decide (refLid S x r c < S.numLocal)

/-- `torch.where(ok, lid, big)` -/
def refMin (r c : ℕ) : ℤ := if refOk S x r c then refLid S x r c else big

/-- `torch.where(ok, lid, big).min()` -/
def refBest : ℤ := tileMin big x.topkIds.rows x.topkIds.cols (refMin S x)

/-- `fb` -/
def refFb : ℤ := if refBest S x < S.numLocal then refBest S x else 0

/-- `row_min` -/
def refRowMin (r : ℕ) : ℤ := minOf big ((List.range x.topkIds.cols).map (refMin S x r))

/-- `fill` -/
def refFill (r : ℕ) : ℤ := if refRowMin S x r < S.numLocal then refRowMin S x r else refFb S x

/-- The ids of `ep_remap_reference`. -/
def refId (r c : ℕ) : ℤ := wrap32 (if refOk S x r c then refLid S x r c else refFill S x r)

/-- The weights of `ep_remap_reference`. -/
def refWeight [Zero F] (r c : ℕ) : F :=
  if refOk S x r c then x.toFloat32 (x.topkWeights.elem r c) else 0

end reference

end EpRemap
