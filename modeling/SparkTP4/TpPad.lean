import Mathlib.Algebra.Order.Ring.Int
import SparkTP4.IndexTensor

/-!
# Column shards of tensors that do not divide

For a tensor-parallel size that a dimension does not divide, the parameters are padded: rank
`r` of `tp` holds the rows `r * shard` to `(r + 1) * shard`, and the last ranks' rows go past
the checkpoint tensor's. Two patched loaders fill such a parameter – the one of the vLLM-style
parameters and that of `ColumnParallelLinear`. Padding is 0, and 1.0 for a tensor in fp32,
which holds block scales: a scale must stay a positive power of two.

`pad_or_narrow_weight` and the two original loaders are the engine's. The first is a parameter
of the model with the result it is relied on to have; of the original column loader it is used
that it narrows and copies where the shard lies inside the tensor.
-/

namespace TpPad

open IndexTensor

variable {α : Type}

inductive DType where
  | float32
  | bfloat16
  | float8E4m3fn
  | float8E8m0fnu
  | uint8
  deriving DecidableEq

/-- The values of elements. -/
structure Values (α : Type) where
  zero : α
  one : α
  /-- The conversion of `copy_`. -/
  cast : DType → α → α
  zero_ne_one : ∀ d, cast d zero ≠ cast d one

/-- A tensor and its type. -/
structure Weight (α : Type) extends Tensor α where
  dtype : DType

/-- `_pad_fill` -/
def padFill (V : Values α) (d : DType) : α := if d = .float32 then V.one else V.zero

/-- A parameter, with `self.data` or `param.data`. -/
structure Param (α : Type) where
  data : Weight α
  outputDim : Option ℕ
  useBitsandbytes4bit : Bool

/-- A `ColumnParallelLinear`. -/
structure Linear where
  tpRank : ℕ
  usePresharded : Bool

/-- The engine's code. -/
structure Engine (α : Type) where
  /-- `pad_or_narrow_weight(loaded_weight, dim, start, shard_size)` -/
  padOrNarrow : Weight α → ℕ → ℕ → ℕ → Weight α
  /-- `_ColumnvLLMParameter.load_column_parallel_weight`: what `self.data` holds then -/
  origCol : Param α → Weight α → ℕ → Bool → Option (Tensor α)
  /-- `ColumnParallelLinear.weight_loader` -/
  origLin : Linear → Param α → Weight α → Option (Tensor α)

variable (V : Values α) (E : Engine α)

/-- `dst.copy_(src)` -/
def copy (dst : Weight α) (src : Tensor α) : Option (Tensor α) :=
  if dst.shape = src.shape then some (src.map (V.cast dst.dtype)) else none

/-- The index lies in the common part of the two shapes. -/
def inOverlap (shape shape' i : List ℕ) : Bool :=
  (List.range i.length).all fun j => i.getD j 0 < min (shape.getD j 0) (shape'.getD j 0)

/-- `fill_(_pad_fill(self.data))` and the copy of the common part. -/
def copyOverlap (dst : Weight α) (src : Tensor α) : Option (Tensor α) :=
  if dst.shape.length = src.shape.length then
    some ⟨dst.shape, fun i => V.cast dst.dtype
      (if inOverlap dst.shape src.shape i then src.elem i else padFill V dst.dtype)⟩
  else none

/-- `load_column_parallel_weight` -/
def loadColumnParallelWeight (self : Param α) (loaded : Weight α) (tpRank : ℕ)
    (usePresharded : Bool) : Option (Tensor α) :=
  if usePresharded then E.origCol self loaded tpRank usePresharded
  else self.outputDim.bind fun dim =>
    let shardSize := self.data.size dim
    let start := tpRank * shardSize
    let stop := start + shardSize
    let shard : Option (Tensor α) :=
      if loaded.size dim < stop ∨ loaded.size dim ≤ start then
        let real := (max 0 ((loaded.size dim : ℤ) - start)).toNat
        let padded := E.padOrNarrow loaded dim start shardSize
        some (if padded.dtype = .float32 ∧ real < padded.size dim then
          padded.fillFrom dim real V.one else padded.toTensor)
      else loaded.narrow dim start shardSize
    shard.bind fun shard =>
      if self.data.shape ≠ shard.shape then copyOverlap V self.data shard
      else copy V self.data shard

/-- `column_weight_loader` -/
def columnWeightLoader (self : Linear) (param : Param α) (loaded : Weight α) :
    Option (Tensor α) :=
  match param.outputDim with
  | none => E.origLin self param loaded
  | some dim =>
    if param.useBitsandbytes4bit || self.usePresharded then E.origLin self param loaded
    else
      let shardSize := param.data.size dim
      let start := self.tpRank * shardSize
      let stop := start + shardSize
      if loaded.size dim < stop then
        let real : ℤ := (loaded.size dim : ℤ) - start
        let padded := E.padOrNarrow loaded dim start shardSize
        let shard : Weight α :=
          if padded.dtype = .float32 ∧ 0 ≤ real ∧ real < shardSize then
            { padded with toTensor := padded.fillFrom dim real.toNat V.one } else padded
        if param.data.shape = shard.shape then copy V param.data shard.toTensor
        else E.origLin self param shard
      else E.origLin self param loaded

/-! ## What the loaders rely on -/

/-- The result of `pad_or_narrow_weight`: the slice, with zeros past the end. -/
structure PadsOrNarrows : Prop where
  dtype : ∀ w dim start len, (E.padOrNarrow w dim start len).dtype = w.dtype
  same : ∀ w dim start len, dim < w.shape.length →
    (E.padOrNarrow w dim start len).Same (w.window dim start len V.zero)

/-- `ColumnParallelLinear.weight_loader` narrows and copies a shard inside the tensor. -/
def NarrowsInside : Prop :=
  ∀ (self : Linear) (param : Param α) (w : Weight α) (dim : ℕ), param.outputDim = some dim →
    param.useBitsandbytes4bit = false → self.usePresharded = false →
    (self.tpRank + 1) * param.data.size dim ≤ w.size dim →
    E.origLin self param w = (w.narrow dim (self.tpRank * param.data.size dim)
      (param.data.size dim)).bind (copy V param.data)

/-! ## The loaded shards -/

/-- A parameter for the column shards of `w`: its shape is that of a shard. -/
structure Shards (w : Weight α) where
  dim : ℕ
  dim_lt : dim < w.shape.length
  shard : ℕ
  tp : ℕ
  param : Param α
  outputDim : param.outputDim = some dim
  shape : param.data.shape = w.shape.set dim shard
  notBnb : param.useBitsandbytes4bit = false

variable {w : Weight α} (P : Shards w)

/-- What rank `rank` is to hold: its slice, with padding past the end. -/
def Shards.expected (rank : ℕ) : Tensor α :=
  (w.window P.dim (rank * P.shard) P.shard (padFill V w.dtype)).map (V.cast P.param.data.dtype)

/-- The checkpoint tensor, and padding after it. -/
def Shards.whole : Tensor α :=
  (w.window P.dim 0 (P.tp * P.shard) (padFill V w.dtype)).map (V.cast P.param.data.dtype)

/-- A loader's shards are the expected ones. -/
def Shards.Right (load : ℕ → Option (Tensor α)) : Prop :=
  ∀ rank < P.tp, ∃ t, load rank = some t ∧ t.Same (P.expected V rank)

/-- Two loaders agree. -/
def Shards.Agree (load load' : ℕ → Option (Tensor α)) : Prop :=
  ∀ rank < P.tp, ∃ t t', load rank = some t ∧ load' rank = some t' ∧ t.Same t'

/-- The shards of all ranks, one after the other, are the tensor and padding. -/
def Shards.Concatenates (load : ℕ → Option (Tensor α)) : Prop :=
  ∃ shards : ℕ → Tensor α, (∀ rank < P.tp, load rank = some (shards rank)) ∧
    (Tensor.cat w.shape P.dim P.shard P.tp shards).Same (P.whole V)

/-- `load_column_parallel_weight` on each rank. -/
def Shards.loadColumn (rank : ℕ) : Option (Tensor α) :=
  loadColumnParallelWeight V E P.param w rank false

/-- `column_weight_loader` on each rank. -/
def Shards.loadLinear (rank : ℕ) : Option (Tensor α) :=
  columnWeightLoader V E ⟨rank, false⟩ P.param w

end TpPad
