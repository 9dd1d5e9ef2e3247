import SparkTP4.RoceColumns

/-!
# The replicated-linear split

A replicated linear layer makes every rank stream the whole weight for the same output.
The split has each rank run the layer on its own 128-row tiles of the weight and gathers
the columns. The tiles are spread as evenly as possible; a rank with fewer tiles than the
widest one either runs on a *window* of the weight as wide as the widest slice – which holds
its own tiles and some of a neighbour's – or on its exact slice, padded before the gather.

Three gathers follow: the parts side by side and cut (`assemble`), the parts stacked and cut
(`assembleStacked`), and the gather of unequal columns, which takes each rank's columns from
its part directly.
-/

namespace ReplicatedSplit

open RowMatrix RoceColumns

/-- The rows of a tile. -/
def TILE : ℕ := 128

/-- The bytes of a pack. -/
def PACK : ℕ := 16

/-! ## The layer -/

variable {α β X : Type}

/-- A parameter of a layer besides its weight, by its number of dimensions. -/
inductive Param (α : Type) where
  | scalar (v : α)
  | vector (elements : List α)
  | matrix (rows : List (List α))

/-- What of a layer its forward reads. -/
structure Layer (α : Type) where
  /-- the rows of the weight -/
  weight : List (List α)
  /-- `weight.shape[1]` -/
  k : ℕ
  /-- `weight.dtype == torch.float8_e4m3fn` -/
  fp8 : Bool
  /-- the other parameters, by name -/
  parameters : List (String × Param α)
  outputSize : Option ℕ
  outputSizePerPartition : Option ℕ

/-- `weight.shape[0]` -/
def Layer.n (layer : Layer α) : ℕ := layer.weight.length

/-- How a parameter follows the rows of the weight. -/
inductive Kind where
  | rows
  | flat
  deriving DecidableEq

/-- The kind of a parameter that follows the rows of the weight. -/
def Param.kind (n k : ℕ) : Param α → Option Kind
  | .scalar _ => none
  | .vector elements => if elements.length = n * (k / 32) then some .flat else none
  | .matrix rows => if rows.length = n then some .rows else none

/-- `_scale_params` -/
def scaleParams (layer : Layer α) : List (String × Kind) :=
  layer.parameters.filterMap fun (name, p) =>
    (p.kind layer.n layer.k).map fun kind => (name, kind)

/-- `data[lo:hi]` -/
def cut (lo hi : ℕ) (data : List α) : List α := (data.drop lo).take (hi - lo)

/-- A parameter sliced along its first dimension. -/
def Param.cut (lo hi : ℕ) : Param α → Param α
  | .scalar v => .scalar v
  | .vector elements => .vector (ReplicatedSplit.cut lo hi elements)
  | .matrix rows => .matrix (ReplicatedSplit.cut lo hi rows)

/-- The part of a parameter that goes with the rows from `n0` to `n1`. -/
def Param.proxy (kinds : List (String × Kind)) (k n0 n1 : ℕ) (name : String) (p : Param α) :
    Param α :=
  match kinds.lookup name with
  | none => p
  | some .rows => p.cut n0 n1
  | some .flat => p.cut (n0 * (k / 32)) (n1 * (k / 32))

/-- The layer on the rows from `n0` to `n1`, given the parameters that follow the rows. -/
def proxyWith (kinds : List (String × Kind)) (layer : Layer α) (n0 n1 : ℕ) : Layer α where
  weight := cut n0 n1 layer.weight
  k := layer.k
  fp8 := layer.fp8
  parameters := layer.parameters.map fun (name, p) => (name, p.proxy kinds layer.k n0 n1 name)
  outputSize := layer.outputSize.map fun _ => n1 - n0
  outputSizePerPartition := layer.outputSizePerPartition.map fun _ => n1 - n0

/-- `_proxy` -/
def proxy (layer : Layer α) (n0 n1 : ℕ) : Layer α := proxyWith (scaleParams layer) layer n0 n1

/-- A map of layers and inputs to matrices, of the columns of the layer. -/
structure Linear (α β X : Type) where
  /-- `forward(layer, x)[0]` -/
  forward : Layer α → X → RowMatrix β
  /-- `_rows` -/
  height : X → ℕ
  height_forward : ∀ layer x, (forward layer x).height = height x
  cols_forward : ∀ layer x, (forward layer x).cols = layer.n

/-- Tile `t` of a layer. -/
def tile (kinds : List (String × Kind)) (layer : Layer α) (t : ℕ) : Layer α :=
  proxyWith kinds layer (t * TILE) ((t + 1) * TILE)

/-- **A block of columns depends only on its own tile.** -/
def Linear.OwnTiles (linear : Linear α β X) (kinds : List (String × Kind)) : Prop :=
  ∀ (layer layer' : Layer α) (x : X) (t t' : ℕ), (t + 1) * TILE ≤ layer.n →
    (t' + 1) * TILE ≤ layer'.n → tile kinds layer t = tile kinds layer' t' →
      (linear.forward layer x).slice (t * TILE) ((t + 1) * TILE) =
        (linear.forward layer' x).slice (t' * TILE) ((t' + 1) * TILE)

/-! ## Ranges and windows -/

/-- The tiles of each rank. -/
def counts (n world : ℕ) : List ℕ :=
  let tiles := n / TILE
  (List.range world).map fun r => tiles / world + if r < tiles % world then 1 else 0

/-- The first row of each rank. -/
def starts (n world : ℕ) : List ℕ :=
  (List.range world).map fun r => ((counts n world).take r).sum * TILE

/-- `_ranges(n, world)[0]` -/
def ranges (n world : ℕ) : List (ℕ × ℕ) :=
  ((starts n world).zip (counts n world)).map fun (s, c) => (s, s + c * TILE)

/-- `_ranges(n, world)[1]` -/
def rangesWidth (n world : ℕ) : ℕ := (counts n world).foldr max 0 * TILE

/-- `window` -/
def window (n lo width : ℕ) : ℕ := min lo (n - width)

/-! ## The candidates of a rank -/

/-- `(proxy, ranges, width, offsets)` -/
structure State (α : Type) where
  proxy : Layer α
  ranges : List (ℕ × ℕ)
  width : ℕ
  offs : List ℕ

/-- `{"window": state or None, "slice": state or None}` -/
structure Candidates (α : Type) where
  window : Option (State α)
  slice : Option (State α)

/-- `_slice_exact`, where `equal` is `torch.equal` -/
def sliceExact (linear : Linear α β X) (equal : RowMatrix β → RowMatrix β → Bool)
    (layer proxy : Layer α) (w0 w1 : ℕ) (inputs : List X) : Bool :=
  inputs.all fun x =>
    let full := linear.forward layer x
    let part := linear.forward proxy x
    part.cols == w1 - w0 && equal (full.slice w0 w1) part

/-- `decide`, where `inputs` are the real input and the random ones -/
protected def decide (linear : Linear α β X) (equal : RowMatrix β → RowMatrix β → Bool)
    (WINDOW : Bool) (layer : Layer α) (rank world : ℕ) (inputs : List X) : Candidates α :=
  let n := layer.n
  if ¬(n % TILE = 0 ∧ world ≤ n / TILE ∧ layer.fp8 = true) then ⟨none, none⟩ else
  let ranges := ranges n world
  let width := rangesWidth n world
  let n0 := (ranges.getD rank (0, 0)).1
  let n1 := (ranges.getD rank (0, 0)).2
  let own := proxy layer n0 n1
  let slice :=
    if sliceExact linear equal layer own n0 n1 inputs = true then
      some ⟨own, ranges, width, List.replicate world 0⟩
    else none
  if WINDOW = false then ⟨none, slice⟩ else
  let wins := ranges.map fun (a, _) => window n a width
  let w0 := wins.getD rank 0
  let offs := (ranges.zip wins).map fun ((a, _), w) => a - w
  if w0 = n0 ∧ n1 - n0 = width then
    ⟨slice.map fun st => ⟨st.proxy, ranges, width, offs⟩, slice⟩
  else
    let wproxy := proxy layer w0 (w0 + width)
    if sliceExact linear equal layer wproxy w0 (w0 + width) inputs = true then
      ⟨some ⟨wproxy, ranges, width, offs⟩, slice⟩
    else ⟨none, slice⟩

/-- `_build` of a rank: the ranks agree by the minimum of their flags. -/
def build (candidates : List (Candidates α)) (rank : ℕ) : Option (State α) :=
  let win := candidates.all fun c => c.window.isSome
  let sl := candidates.all fun c => c.slice.isSome
  (candidates[rank]?).bind fun c => if win then c.window else if sl then c.slice else none

/-! ## The gathers -/

/-- `padded` -/
def padded [Zero β] (loc : RowMatrix β) (width : ℕ) : RowMatrix β :=
  if loc.cols < width then loc.padCols (width - loc.cols) else loc

/-- `assemble` -/
def assemble (gathered : RowMatrix β) (ranges : List (ℕ × ℕ)) (width : ℕ) (offs : List ℕ) :
    Option (RowMatrix β) :=
  if ranges.all fun (a, b) => b - a == width then some gathered
  else catCols ((ranges.zip offs).mapIdx fun r ((a, b), o) =>
    gathered.slice (r * width + o) (r * width + o + (b - a)))

/-- `compact_layout` -/
def compactLayout (ranges : List (ℕ × ℕ)) : List ℕ × List ℕ :=
  (ranges.map fun (a, b) => b - a, ranges.map fun (a, _) => a)

/-- `pack_layout` -/
def packLayout (ranges : List (ℕ × ℕ)) (elementSize : ℕ) : Option (List ℕ × List ℕ × ℕ) :=
  let widths := (compactLayout ranges).1
  let dst := (compactLayout ranges).2
  if (widths ++ dst).any fun v => v * elementSize % PACK ≠ 0 then none
  else some (widths.map fun w => w * elementSize / PACK, dst.map fun d => d * elementSize / PACK,
    widths.sum * elementSize / PACK)

/-- `assemble_stacked`, where `stacked` has a part for every range -/
def assembleStacked (stacked : List (RowMatrix β)) (ranges : List (ℕ × ℕ)) (offs : List ℕ) :
    Option (RowMatrix β) :=
  catCols ((stacked.zip (ranges.zip offs)).map fun (part, (a, b), o) => part.slice o (o + (b - a)))

/-- The gather along the last dimension, on a rank with state `st`. -/
def gatherLast (parts : List (RowMatrix β)) (st : State α) : Option (RowMatrix β) :=
  (catCols parts).bind fun g => assemble g st.ranges st.width st.offs

/-- The gather along the first dimension, on a rank with state `st` and part `loc`. -/
def gatherFirst (parts : List (RowMatrix β)) (loc : RowMatrix β) (st : State α) :
    Option (RowMatrix β) :=
  (catRows parts).bind fun g =>
    (g.stacked st.ranges.length loc.height st.width).bind fun stacked =>
      assembleStacked stacked st.ranges st.offs

/-- `_local_ok` -/
def localOk (loc : Strided β) (es : ElementSize) (widths : List ℕ) (off rank : ℕ) : Bool :=
  loc.stride1 == 1 && loc.stride0 * es.bytes % PACK == 0 && loc.aligned &&
    off * es.bytes % PACK == 0 && off + widths.getD rank 0 ≤ loc.cols

/-- What a rank hands to the gather of columns: its part, or a clone that is aligned. -/
def handed (es : ElementSize) (rank : ℕ) (loc : Strided β) (st : State α) : Strided β :=
  if localOk loc es (compactLayout st.ranges).1 (st.offs.getD rank 0) rank = true then loc
  else loc.cloned

/-- The launch of rank `rank` in `_run_compact("roce", …)`. -/
def roceLaunch (world maxGatherBytes : ℕ) (es : ElementSize) (rank : ℕ) (loc : Strided β)
    (st : State α) : Option (Launch β) :=
  launchColumns world maxGatherBytes es rank (handed es rank loc st) (compactLayout st.ranges).1
    (st.offs.getD rank 0)

end ReplicatedSplit
