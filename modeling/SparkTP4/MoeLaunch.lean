import Mathlib.Data.Rat.Defs
import SparkTP4.Memo
import SparkTP4.Transition
import Mathlib.Algebra.Group.Nat.Defs

/-!
# Prepared launches of the routed experts

The stock body of a launch decides on a kernel and its grid, then fills the barrier or plans
the routes, and runs the kernel (`stockBody`). The prepared body takes the decisions once for
each launch contract and keeps them as a plan (`prepared`). What the decisions depend on is
tracked in three ways: by the key of the plan, by a counter of the writes to the environment
with the identity of `os.environ`, and by the kernel that the kernel cache still holds.

The helpers that the decisions call are parameters (`Stock`): functions of their arguments and
of the context.
-/

namespace MoeLaunch

/-! ## Launches -/

/-- An exception of the decisions, with its text. -/
inductive Error
  | value (text : String)
  | runtime (text : String)
  deriving DecidableEq

/-- `SCALARS`: the scalar arguments of a launch. -/
structure Scalars where
  E : ℕ
  m : ℕ
  k : ℕ
  n : ℕ
  numTopk : ℕ
  routedRows : ℕ
  maxRows : ℕ
  physicalTilesCapacity : ℕ
  taskCapacity : ℕ
  topkIdsAreI32 : Bool
  fastMath : Bool
  activation : String
  quantMode : String
  w4a8Repacked : Bool
  w4a8N64Repacked : Bool
  nvfp4MaterializeIntermediate : Bool
  shareInputAcrossExperts : Bool
  deterministicOutput : Bool
  swigluLimit : Option ℚ
  swigluAlpha : ℚ
  swigluBeta : ℚ
  externalRoutePlanRequested : Bool
  policyMaxActiveClusters : ℤ
  volatileLaunchState : Bool
  plannedTileM : ℕ
  plannedDirectRouting : Bool
  plannedNumTokens : ℕ
  deriving DecidableEq

/-- The tensor arguments of a launch. -/
inductive Operand
  | packedAView | packedAFlat | scaleFlat | materializedIntermediate | barrierCount
  | barrierEpoch | pairHead | producersDoneCount | allWorkPublished | taskHead | taskTail
  | taskReady | taskExpert | taskMTile | taskSliceBegin | taskSliceCount | taskValidRows
  | tileWriteCount | rowCounts | expertWriteRows | expertTileBase | inputGs | downInputScale
  | tokenMap | tokenWeights | w13Fp4 | w13Sf | downFp4 | downSf | sfbW13Mx | sfbDownMx
  | w13Residual | downResidual | w13Rp | w13SfbRp | downRp | downSfbRp | w1Alpha | w2Alpha
  | a | flatIds | flatWeights | scatterOutput

/-- What a launch reads of a tensor. -/
structure Tensor where
  ptr : ℕ
  numel : ℕ
  elementSize : ℕ
  float16 : Bool
  deriving DecidableEq

/-- `numel() * element_size()` -/
def Tensor.bytes (t : Tensor) : ℕ := t.numel * t.elementSize

/-- A launch: its arguments, the current stream, and whether a graph is being captured,
programs are being planned, or launches are observed, compiled only or retained. -/
structure Call where
  scalars : Scalars
  tensors : Operand → Tensor
  stream : ℕ
  capturing : Bool
  planning : Bool
  observed : Bool

/-- What the decisions read besides the arguments: the `B12X_NEXT_*` variables, the device,
whether the input is quantized already, and the two overrides. -/
structure Context where
  env : String → Option String
  device : ℤ
  prequantized : Bool
  tileMn : Option (ℕ × ℕ)
  swapAb : Option String

/-- The value of the first variable that is set. -/
def Context.firstEnv (ctx : Context) (names : List String) : Option String :=
  names.findSome? ctx.env

/-- `_env_flag` -/
def Context.envFlag (ctx : Context) (name : String) (default : Bool) : Bool :=
  match ctx.env name with
  | none => default
  | some value => !(["", "0", "false", "False"].contains value)

/-! ## Kernels and effects -/

/-- The arguments of `_get_dynamic_kernel`. -/
structure KernelArgs where
  E : ℕ
  m : ℕ
  k : ℕ
  n : ℕ
  numTopk : ℕ
  maxRows : ℕ
  topkIdsAreI32 : Bool
  fastMath : Bool
  macOverride : ℕ
  activation : String
  quantMode : String
  w4a8Repacked : Bool
  w4a8N64Repacked : Bool
  nvfp4MaterializeIntermediate : Bool
  directRouting : Bool
  externalRoutePlan : Bool
  shareInputAcrossExperts : Bool
  deterministicOutput : Bool
  swigluLimit : Option ℚ
  swigluAlpha : ℚ
  swigluBeta : ℚ
  trellisBits : ℕ
  trellisIntermediateHadamard : Bool
  plannedTileM : ℕ
  plannedNumTokens : ℕ

/-- A key of the kernel cache. -/
abbrev KernelKey := List String

/-- A compiled kernel: the key it was compiled for and which object it is. -/
structure Kernel where
  key : KernelKey
  object : ℕ
  deriving DecidableEq

/-- `_DYNAMIC_KERNEL_CACHE`, in the order of insertion. -/
abbrev KernelCache := List (KernelKey × Kernel)

/-- Element types of the kernels' pointers. -/
inductive DType
  | bfloat16 | float16 | float32 | int32 | int64 | uint8 | uint32
  | float4E2M1FN | float8E4M3FN | float8E8M0FNU
  deriving DecidableEq

/-- A pointer wrapper: address, element type and alignment. -/
structure Ptr where
  addr : ℕ
  dtype : DType
  align : ℕ
  deriving DecidableEq

/-- An argument of a compiled kernel, before pointers are made. -/
inductive Arg
  | ptr (dtype : DType) (t : Tensor) (align : ℕ)
  | tensor (t : Tensor)
  | int (v : ℕ)
  | stream (s : ℕ)

/-- An argument that a compiled kernel is called with. -/
inductive Value
  | ptr (p : Ptr)
  | tensor (t : Tensor)
  | int (v : ℕ)
  | stream (s : ℕ)
  deriving DecidableEq

/-- The arguments of the route planner. -/
structure RoutePlan where
  flatIds : Tensor
  rowCounts : Tensor
  expertTileBase : Tensor
  barrierCount : Tensor
  barrierEpoch : Tensor
  routedRows : ℕ
  numExperts : ℕ
  tileM : ℕ
  blockE : ℕ
  blockRoutes : ℕ
  numWarps : ℕ
  deriving DecidableEq

/-- A side effect of a launch. -/
inductive Effect
  | zeroBarrier (count epoch : Tensor)
  | routePlan (args : RoutePlan)
  | compiled (kernel : Kernel) (args : List Value)
  deriving DecidableEq

/-- What a launch does, and how it ends. -/
structure Outcome where
  effects : List Effect
  error : Option Error
  deriving DecidableEq

/-! ## Stock decisions -/

/-- The arguments that the policy helpers share. -/
structure Shape where
  quantMode : String
  activation : String
  routedRows : ℕ
  numExperts : ℕ
  n : ℕ
  deterministicOutput : Bool
  plannedTileM : ℕ

/-- The helpers of the stock module. -/
structure Stock where
  normalizeQuantMode : String → Except Error String
  isW4a8QuantMode : String → Bool
  isW6a8QuantMode : String → Bool
  /-- `_dynamic_kernel_intermediate_size` -/
  intermediateSize : ℕ → String → ℕ
  /-- `_w4a8_dynamic_decode_candidate` -/
  decodeCandidate : Context → Shape → Except Error Bool
  /-- `_dynamic_direct_routing_selected`; the flag is the route mode. -/
  directRoutingSelected : Context → (direct : Bool) → Shape → Except Error Bool
  /-- `_get_impl_mac` -/
  implMac : Context → (backend : String) → (routedRows : ℕ) → Except Error ℕ
  multictaEnabled : Context → Bool
  /-- `_select_dynamic_tile_mn` -/
  selectTileMn : Context → (rows : ℕ) → Shape → Except Error (ℕ × ℕ)
  /-- `_w4a8_dynamic_materialized_enabled` -/
  materializedEnabled : Context → (numTokens k : ℕ) → (repacked shareInput : Bool) → Shape →
    Except Error Bool
  externalRoutePlanSupported : Context → (direct n64 : Bool) → Shape → Except Error Bool
  /-- `_dynamic_materialized_intermediate_bytes` -/
  materializedBytes : (quantMode : String) → (rowsPadded n : ℕ) → ℕ
  numSm : Context → ℕ
  computeCapability : Context → ℕ × ℕ
  /-- The cache key of `_get_dynamic_kernel`. -/
  kernelKey : Context → KernelArgs → Except Error KernelKey
  /-- The object that `_get_dynamic_kernel` compiles. -/
  compile : Context → KernelArgs → Except Error ℕ
  /-- `_trellis256_execution_lut` -/
  executionLut : Tensor
  /-- The bits of trellis weights and whether their intermediate is rotated, from the extents
  of their payload and rotations. -/
  trellisGeometry : (payload rotations : Tensor) → (E k n : ℕ) → Except Error (ℕ × Bool)

/-- `_DYNAMIC_EXTERNAL_ROUTE_PLAN_MAX_ROWS` -/
def EXTERNAL_ROUTE_PLAN_MAX_ROWS : ℕ := 256

/-- What the decisions lead to. -/
structure Decided where
  quantMode : String
  n : ℕ
  externalRoutePlan : Bool
  selectedTileM : ℕ
  args : KernelArgs

section Decisions

variable (st : Stock)

/-- The shape that the tile planner is asked about. -/
def tileShape (sc : Scalars) (quantMode : String) (n : ℕ) : Shape :=
  ⟨quantMode, sc.activation, sc.routedRows, sc.E, n, sc.deterministicOutput, sc.plannedTileM⟩

/-- The shape for the planned number of tokens. -/
def plannedShape (sc : Scalars) (quantMode : String) (n : ℕ) : Shape :=
  { tileShape sc quantMode n with routedRows := sc.plannedNumTokens * sc.numTopk }

/-- The physical width of the weights: repacked ones are padded, unless they are exact. -/
def kernelN (sc : Scalars) (quantMode : String) : ℕ :=
  if sc.w4a8Repacked ∧ sc.n % 128 ≠ 0 ∧ ¬ sc.w4a8N64Repacked then
    st.intermediateSize sc.n quantMode else sc.n

/-- Only repacked weights can be in the decode regime. -/
def decodeRegime (ctx : Context) (sc : Scalars) (quantMode : String) (n : ℕ) :
    Except Error Bool :=
  if sc.w4a8Repacked then st.decodeCandidate ctx (plannedShape sc quantMode n) else .ok false

/-- Whether the routes go to the kernel as they are. -/
def directRouting (ctx : Context) (sc : Scalars) (quantMode : String) (n : ℕ) :
    Except Error Bool :=
  if quantMode ≠ "w4a8_mx" ∨ sc.w4a8Repacked then
    st.directRoutingSelected ctx sc.plannedDirectRouting (tileShape sc quantMode n)
  else .ok false

/-- A materialized intermediate has to fit into its scratch. -/
def checkScratch (sc : Scalars) (quantMode : String) (n tileM available : ℕ)
    (materialize : Bool) : Except Error Unit :=
  let required := st.materializedBytes quantMode (sc.physicalTilesCapacity * tileM) n
  if materialize ∧ available < required then
    .error (.value (s!"dynamic {quantMode} materialized scratch exceeds preplanned " ++
      s!"capacity: need {required} bytes, have {available}; physical_tiles_capacity=" ++
      s!"{sc.physicalTilesCapacity}, selected_tile_m={tileM}, " ++
      s!"n={n}, routed_rows={sc.routedRows}, m={sc.m}, num_topk={sc.numTopk}"))
  else .ok ()

/-- The resident grid: one cluster, two waves, or what the backend gives. -/
def gridMac (ctx : Context) (sc : Scalars) (n tileM mac : ℕ) : ℕ :=
  if !st.multictaEnabled ctx then 1
  else if sc.w4a8N64Repacked ∧ tileM = 16 then min mac (st.numSm ctx)
  else if sc.w4a8Repacked ∧ tileM ≤ 32 then
    let two := min (mac * 2) (st.numSm ctx * 2)
    if st.computeCapability ctx = (12, 1) ∧ sc.E = 256 ∧ sc.k = 6144 ∧ n = 1024 ∧
      24 ≤ sc.routedRows ∧ sc.routedRows ≤ 48 then min two 24 else two
  else mac

/-- The tasks of a launch with direct routing. -/
def directTaskCount (sc : Scalars) (n : ℕ) (materialize : Bool) : ℕ :=
  let count := sc.routedRows * max 1 ((n + 127) / 128)
  if materialize ∧ sc.m = 1 then max count (sc.routedRows * max 1 ((sc.k + 255) / 256)) else count

/-- The cap of the policy, where no variable sets the grid. -/
def policyMac (ctx : Context) (sc : Scalars) (n tileM : ℕ) (externalRoutePlan : Bool)
    (backend : String) (mac : ℕ) : ℕ :=
  if (externalRoutePlan ∨ sc.w4a8N64Repacked ∨
      (sc.w4a8Repacked ∧ n % 128 = 0 ∧ tileM ≤ 32)) ∧
    0 < sc.policyMaxActiveClusters ∧
    ctx.firstEnv [s!"B12X_NEXT_{backend}_MAX_ACTIVE_CLUSTERS",
      "B12X_NEXT_DYNAMIC_MAX_ACTIVE_CLUSTERS",
      "B12X_NEXT_LEVEL10_MAX_ACTIVE_CLUSTERS"] = none then
    min mac sc.policyMaxActiveClusters.toNat
  else mac

/-- The decisions of `_launch_dynamic_flat`, from the quant mode to the arguments of the
kernel lookup. `_decide` has the same text. -/
def decisions (ctx : Context) (sc : Scalars) (miBytes trellisBits : ℕ) (hadamard : Bool) :
    Except Error Decided := do
  let quantMode ← st.normalizeQuantMode sc.quantMode
  let n := kernelN st sc quantMode
  let decode ← decodeRegime st ctx sc quantMode n
  let direct ← directRouting st ctx sc quantMode n
  let mac ← st.implMac ctx (if decode then "dynamic_w4a8_decode" else "dynamic")
    sc.routedRows
  let tile ← st.selectTileMn ctx (sc.m * sc.numTopk) (tileShape sc quantMode n)
  let enabled ← st.materializedEnabled ctx sc.plannedNumTokens sc.k sc.w4a8Repacked
    sc.shareInputAcrossExperts (plannedShape sc quantMode n)
  let supported ← st.externalRoutePlanSupported ctx direct sc.w4a8N64Repacked
    { tileShape sc quantMode n with plannedTileM := tile.1 }
  let externalRoutePlan := supported &&
    ctx.envFlag "B12X_NEXT_DYNAMIC_EXTERNAL_ROUTE_PLAN" sc.externalRoutePlanRequested
  let materialize := enabled || (quantMode == "nvfp4" && sc.nvfp4MaterializeIntermediate) ||
    sc.w4a8N64Repacked
  checkScratch st sc quantMode n tile.1 miBytes materialize
  let grid := gridMac st ctx sc n tile.1 mac
  let effective := policyMac ctx sc n tile.1 externalRoutePlan
    (if decode then "DYNAMIC_W4A8_DECODE" else "DYNAMIC")
    (if direct then min grid (directTaskCount sc n materialize) else grid)
  pure {
    quantMode, n, externalRoutePlan
    selectedTileM := tile.1
    args := {
      E := sc.E, m := sc.m, k := sc.k, n, numTopk := sc.numTopk, maxRows := sc.maxRows
      topkIdsAreI32 := sc.topkIdsAreI32, fastMath := sc.fastMath, macOverride := effective
      activation := sc.activation, quantMode
      w4a8Repacked := sc.w4a8Repacked, w4a8N64Repacked := sc.w4a8N64Repacked
      nvfp4MaterializeIntermediate := sc.nvfp4MaterializeIntermediate
      directRouting := direct, externalRoutePlan
      shareInputAcrossExperts := sc.shareInputAcrossExperts
      deterministicOutput := sc.deterministicOutput
      swigluLimit := sc.swigluLimit, swigluAlpha := sc.swigluAlpha, swigluBeta := sc.swigluBeta
      trellisBits, trellisIntermediateHadamard := hadamard
      plannedTileM := sc.plannedTileM, plannedNumTokens := sc.plannedNumTokens } }

/-- Whether compiled kernels are reused: a variable or compile planning may forbid it. -/
def reuseCompiled (ctx : Context) (planning : Bool) : Bool :=
  decide ((ctx.firstEnv ["B12X_NEXT_DYNAMIC_REUSE_COMPILED",
    "B12X_NEXT_LEVEL10_REUSE_COMPILED"]).getD "1" ≠ "0") && !planning

/-- The kernel that is reused. -/
def cachedKernel (ctx : Context) (planning : Bool) (cache : KernelCache) (key : KernelKey) :
    Option Kernel :=
  if reuseCompiled ctx planning then Memo.get cache key else none

/-- `_get_dynamic_kernel` -/
def getDynamicKernel (ctx : Context) (planning : Bool) (cache : KernelCache) (args : KernelArgs) :
    Except Error (Kernel × ℕ × KernelCache) := do
  let key ← st.kernelKey ctx args
  match cachedKernel ctx planning cache key with
  | some kernel => pure (kernel, args.macOverride, cache)
  | none =>
    let object ← st.compile ctx args
    pure (⟨key, object⟩, args.macOverride,
      if reuseCompiled ctx planning then Memo.set cache key ⟨key, object⟩ else cache)

end Decisions

/-! ## The stock body -/

/-- `int.bit_length` -/
def bitLength (v : ℤ) : ℕ := if v = 0 then 0 else Nat.log2 v.natAbs + 1

/-- `1 << (E - 1).bit_length()` -/
def blockE (E : ℕ) : ℕ := 2 ^ bitLength ((E : ℤ) - 1)

/-- The route planner's arguments. -/
def routePlanArgs (c : Call) (routedRows E tileM : ℕ) : RoutePlan where
  flatIds := c.tensors .flatIds
  rowCounts := c.tensors .rowCounts
  expertTileBase := c.tensors .expertTileBase
  barrierCount := c.tensors .barrierCount
  barrierEpoch := c.tensors .barrierEpoch
  routedRows
  numExperts := E
  tileM
  blockE := blockE E
  blockRoutes := EXTERNAL_ROUTE_PLAN_MAX_ROWS
  numWarps := 8

/-- `make_ptr` for an argument. -/
def Arg.value : Arg → Value
  | .ptr dtype t align => .ptr ⟨t.ptr, dtype, align⟩
  | .tensor t => .tensor t
  | .int v => .int v
  | .stream s => .stream s

section StockBody

variable (st : Stock)

/-- The arguments that the stock body gives the compiled kernel. -/
def stockArgs (c : Call) (d : Decided) (tileRows mac : ℕ) (trellis : Bool) : List Arg :=
  let sc := c.scalars
  let t := c.tensors
  let w6 := st.isW6a8QuantMode d.quantMode
  let packed := if w6 then DType.float8E4M3FN else .float4E2M1FN
  let sf := if w6 then DType.float8E8M0FNU else .float8E4M3FN
  ([.ptr .bfloat16 (t .a) 16,
    .ptr (if sc.topkIdsAreI32 then .int32 else .int64) (t .flatIds)
      (if sc.topkIdsAreI32 then 4 else 8),
    .ptr .float32 (t .flatWeights) 4, .ptr packed (t .packedAView) 16,
    .ptr sf (t .scaleFlat) 16, .ptr .uint8 (t .packedAFlat) 16, .ptr .uint8 (t .scaleFlat) 16,
    .ptr .uint32 (t .materializedIntermediate) 16, .tensor (t .barrierCount),
    .tensor (t .barrierEpoch), .tensor (t .pairHead), .tensor (t .producersDoneCount),
    .tensor (t .allWorkPublished), .tensor (t .taskHead), .tensor (t .taskTail),
    .ptr .int32 (t .taskReady) 4, .ptr .int32 (t .taskExpert) 4, .ptr .int32 (t .taskMTile) 4,
    .ptr .int32 (t .taskSliceBegin) 4, .ptr .int32 (t .taskSliceCount) 4,
    .ptr .int32 (t .taskValidRows) 4, .ptr .int32 (t .tileWriteCount) 4, .tensor (t .w13Fp4),
    .ptr sf (t .w13Sf) 16] : List Arg) ++
  (if !st.isW4a8QuantMode d.quantMode then [.ptr sf (t .sfbW13Mx) 16] else []) ++
  ([.tensor (t .downFp4), .ptr sf (t .downSf) 16] : List Arg) ++
  (if st.isW4a8QuantMode d.quantMode then
    [.ptr .uint8 (t .sfbW13Mx) 16, .ptr .uint8 (t .sfbDownMx) 16, .ptr .uint8 (t .w13Residual) 16,
      .ptr .uint8 (t .downResidual) 16, .ptr .uint32 (t .w13Rp) 16,
      .ptr .uint32 (t .w13SfbRp) 16, .ptr .uint32 (t .downRp) 16, .ptr .uint32 (t .downSfbRp) 16]
    else []) ++
  ([.tensor (t .rowCounts), .tensor (t .expertWriteRows), .tensor (t .expertTileBase),
    .tensor (t .inputGs), .tensor (t .w1Alpha), .tensor (t .w2Alpha),
    .tensor (t .downInputScale), .ptr .bfloat16 (t .scatterOutput) 16,
    .ptr .int32 (t .tokenMap) 4, .ptr .float32 (t .tokenWeights) 4, .int sc.m, .int sc.maxRows,
    .int (if sc.deterministicOutput then sc.routedRows else sc.m), .int tileRows,
    .int sc.taskCapacity, .int sc.physicalTilesCapacity, .int mac, .stream c.stream] : List Arg) ++
  (if trellis then [.ptr .uint8 st.executionLut 16, .ptr .float16 (t .w13SfbRp) 16] else [])

/-- Whether the weights of a launch are trellis weights. -/
def isTrellis (c : Call) (quantMode : String) : Bool :=
  st.isW4a8QuantMode quantMode && (c.tensors .w13SfbRp).float16

/-- The geometry of trellis weights. -/
def trellisOf (c : Call) (trellis : Bool) : Except Error (ℕ × Bool) :=
  if trellis then st.trellisGeometry (c.tensors .w13Rp) (c.tensors .w13SfbRp) c.scalars.E
    c.scalars.k c.scalars.n else .ok (0, false)

/-- What the stock body decides before its first side effect. -/
def stockDecide (ctx : Context) (cache : KernelCache) (c : Call) :
    Except Error (Decided × Bool × Kernel × ℕ × KernelCache) := do
  let sc := c.scalars
  let quantMode ← st.normalizeQuantMode sc.quantMode
  let trellis := isTrellis st c quantMode
  let geometry ← trellisOf st c trellis
  let d ← decisions st ctx sc (c.tensors .materializedIntermediate).bytes geometry.1 geometry.2
  let r ← getDynamicKernel st ctx c.planning cache d.args
  pure (d, trellis, r)

/-- The side effects of the stock body. The tile planner is asked once more for an argument
of the kernel. -/
def stockTail (ctx : Context) (c : Call) (d : Decided) (trellis : Bool) (kernel : Kernel)
    (mac : ℕ) : Outcome :=
  let sc := c.scalars
  let before :=
    (if sc.volatileLaunchState && !d.externalRoutePlan then
      [Effect.zeroBarrier (c.tensors .barrierCount) (c.tensors .barrierEpoch)] else []) ++
    (if d.externalRoutePlan then
      [.routePlan (routePlanArgs c sc.routedRows sc.E d.selectedTileM)] else [])
  match st.selectTileMn ctx (sc.m * sc.numTopk) (tileShape sc d.quantMode d.n) with
  | .error e => ⟨before, some e⟩
  | .ok tile => ⟨before ++ [.compiled kernel
      ((stockArgs st c d (sc.physicalTilesCapacity * tile.1) mac trellis).map Arg.value)], none⟩

/-- `_launch_dynamic_flat` -/
def stockBody (ctx : Context) (cache : KernelCache) (c : Call) : Outcome × KernelCache :=
  match stockDecide st ctx cache c with
  | .error e => (⟨[], some e⟩, cache)
  | .ok (d, trellis, kernel, mac, cache') => (stockTail st ctx c d trellis kernel mac, cache')

end StockBody

/-! ## Plans -/

structure Plan where
  compiled : Kernel
  mac : ℕ
  kernelKey : Option KernelKey
  zeroBarrier : Bool
  externalRoutePlan : Bool
  selectedTileM : ℕ
  routedRows : ℕ
  E : ℕ
  scatterRows : ℕ
  tileRows : ℕ
  taskCapacity : ℕ
  physicalTilesCapacity : ℕ
  m : ℕ
  maxRows : ℕ
  isW4a8 : Bool
  idsDtype : DType
  idsAlign : ℕ
  packedDtype : DType
  sfDtype : DType

/-- `_decide` -/
def decidePlan (st : Stock) (ctx : Context) (cache : KernelCache) (c : Call) :
    Except Error Plan × KernelCache :=
  let sc := c.scalars
  match decisions st ctx sc (c.tensors .materializedIntermediate).bytes 0 false with
  | .error e => (.error e, cache)
  | .ok d =>
    match getDynamicKernel st ctx c.planning cache d.args with
    | .error e => (.error e, cache)
    | .ok (compiled, mac, cache') =>
      match st.selectTileMn ctx (sc.m * sc.numTopk) (tileShape sc d.quantMode d.n) with
      | .error e => (.error e, cache')
      | .ok tile => (.ok {
          compiled, mac
          kernelKey := Memo.keyOf cache' compiled
          zeroBarrier := sc.volatileLaunchState && !d.externalRoutePlan
          externalRoutePlan := d.externalRoutePlan
          selectedTileM := d.selectedTileM
          routedRows := sc.routedRows
          E := sc.E
          scatterRows := if sc.deterministicOutput then sc.routedRows else sc.m
          tileRows := sc.physicalTilesCapacity * tile.1
          taskCapacity := sc.taskCapacity
          physicalTilesCapacity := sc.physicalTilesCapacity
          m := sc.m
          maxRows := sc.maxRows
          isW4a8 := st.isW4a8QuantMode d.quantMode
          idsDtype := if sc.topkIdsAreI32 then .int32 else .int64
          idsAlign := if sc.topkIdsAreI32 then 4 else 8
          packedDtype :=
            if st.isW6a8QuantMode d.quantMode then .float8E4M3FN else .float4E2M1FN
          sfDtype :=
            if st.isW6a8QuantMode d.quantMode then .float8E8M0FNU else .float8E4M3FN }, cache')

def PTR_CACHE_MAX : ℕ := 8192

def PLAN_CACHE_MAX : ℕ := 4096

/-- `_PTRS`: pointer wrappers by address, element type and alignment. -/
abbrev PtrMemo := List ((ℕ × DType × ℕ) × Ptr)

/-- `_ptr` -/
def ptrAt (ptrs : PtrMemo) (dtype : DType) (t : Tensor) (align : ℕ) : Ptr × PtrMemo :=
  match Memo.get ptrs (t.ptr, dtype, align) with
  | some p => (p, ptrs)
  | none => (⟨t.ptr, dtype, align⟩,
      Memo.put PTR_CACHE_MAX ptrs (t.ptr, dtype, align) ⟨t.ptr, dtype, align⟩)

/-- The arguments with memoized pointers. -/
def values (ptrs : PtrMemo) : List Arg → List Value × PtrMemo
  | [] => ([], ptrs)
  | .ptr dtype t align :: args =>
    let p := ptrAt ptrs dtype t align
    let rest := values p.2 args
    (.ptr p.1 :: rest.1, rest.2)
  | arg :: args =>
    let rest := values ptrs args
    (arg.value :: rest.1, rest.2)

/-- The arguments that the prepared body gives the compiled kernel. -/
def planArgs (p : Plan) (c : Call) : List Arg :=
  let t := c.tensors
  ([.ptr .bfloat16 (t .a) 16, .ptr p.idsDtype (t .flatIds) p.idsAlign,
    .ptr .float32 (t .flatWeights) 4, .ptr p.packedDtype (t .packedAView) 16,
    .ptr p.sfDtype (t .scaleFlat) 16, .ptr .uint8 (t .packedAFlat) 16,
    .ptr .uint8 (t .scaleFlat) 16, .ptr .uint32 (t .materializedIntermediate) 16,
    .tensor (t .barrierCount), .tensor (t .barrierEpoch), .tensor (t .pairHead),
    .tensor (t .producersDoneCount), .tensor (t .allWorkPublished), .tensor (t .taskHead),
    .tensor (t .taskTail), .ptr .int32 (t .taskReady) 4, .ptr .int32 (t .taskExpert) 4,
    .ptr .int32 (t .taskMTile) 4, .ptr .int32 (t .taskSliceBegin) 4,
    .ptr .int32 (t .taskSliceCount) 4, .ptr .int32 (t .taskValidRows) 4,
    .ptr .int32 (t .tileWriteCount) 4, .tensor (t .w13Fp4), .ptr p.sfDtype (t .w13Sf) 16] : List Arg) ++
  (if !p.isW4a8 then [.ptr p.sfDtype (t .sfbW13Mx) 16] else []) ++
  ([.tensor (t .downFp4), .ptr p.sfDtype (t .downSf) 16] : List Arg) ++
  (if p.isW4a8 then
    [.ptr .uint8 (t .sfbW13Mx) 16, .ptr .uint8 (t .sfbDownMx) 16, .ptr .uint8 (t .w13Residual) 16,
      .ptr .uint8 (t .downResidual) 16, .ptr .uint32 (t .w13Rp) 16,
      .ptr .uint32 (t .w13SfbRp) 16, .ptr .uint32 (t .downRp) 16, .ptr .uint32 (t .downSfbRp) 16]
    else []) ++
  ([.tensor (t .rowCounts), .tensor (t .expertWriteRows), .tensor (t .expertTileBase),
    .tensor (t .inputGs), .tensor (t .w1Alpha), .tensor (t .w2Alpha),
    .tensor (t .downInputScale), .ptr .bfloat16 (t .scatterOutput) 16,
    .ptr .int32 (t .tokenMap) 4, .ptr .float32 (t .tokenWeights) 4, .int p.m, .int p.maxRows,
    .int p.scatterRows, .int p.tileRows, .int p.taskCapacity, .int p.physicalTilesCapacity,
    .int p.mac, .stream c.stream] : List Arg)

/-- `_launch` -/
def launchPlan (p : Plan) (c : Call) (ptrs : PtrMemo) : Outcome × PtrMemo :=
  let args := values ptrs (planArgs p c)
  (⟨(if p.zeroBarrier then
      [Effect.zeroBarrier (c.tensors .barrierCount) (c.tensors .barrierEpoch)] else []) ++
    (if p.externalRoutePlan then
      [.routePlan (routePlanArgs c p.routedRows p.E p.selectedTileM)] else []) ++
    [.compiled p.compiled args.1], none⟩, args.2)

/-! ## The process -/

/-- A mapping that `os.environ` can be: its variables, and whether it counts the writes and
deletes of `B12X_NEXT_*` keys, as the one of the installation does (`TrackedEnviron`). -/
structure Mapping where
  values : String → Option String
  counts : Bool

inductive Mode
  | off
  | plan
  | planDirect
  deriving DecidableEq

/-- `_key`: the scalars, the bytes of the materialized scratch, the device, whether the input is
quantized already, and the two overrides. -/
structure PlanKey where
  scalars : Scalars
  miBytes : ℕ
  device : ℤ
  prequantized : Bool
  tileMn : Option (ℕ × ℕ)
  swapAb : Option String
  deriving DecidableEq

/-- The state of the adapter. -/
structure Prepared where
  mode : Mode
  envGen : Option ℕ
  envObj : Option ℕ
  plans : List (PlanKey × Plan)
  ptrs : PtrMemo

/-- The state of the process: the mappings with the one that is `os.environ`, the count of the
writes (`_ENV_GEN`), the rest of the context, the kernel cache and the adapter. -/
structure State where
  envs : ℕ → Mapping
  environ : ℕ
  gen : ℕ
  device : ℤ
  prequantized : Bool
  tileMn : Option (ℕ × ℕ)
  swapAb : Option String
  kernels : KernelCache
  prepared : Prepared

/-- Whether a variable is one of b12x_next. -/
def isB12x (name : String) : Bool := name.startsWith "B12X_NEXT_"

/-- The variables that b12x_next reads. -/
def Mapping.b12x (env : Mapping) (name : String) : Option String :=
  if isB12x name then env.values name else none

/-- What the stock decisions read now. -/
def State.context (s : State) : Context where
  env := (s.envs s.environ).b12x
  device := s.device
  prequantized := s.prequantized
  tileMn := s.tileMn
  swapAb := s.swapAb

/-- `_eligible` -/
def eligible (c : Call) : Bool :=
  !(c.tensors .w13SfbRp).float16 && !c.capturing && !(c.planning || c.observed)

/-- `_key` -/
def State.planKey (s : State) (c : Call) : PlanKey where
  scalars := c.scalars
  miBytes := (c.tensors .materializedIntermediate).bytes
  device := s.device
  prequantized := s.prequantized
  tileMn := s.tileMn
  swapAb := s.swapAb

/-- The plans, without those of another environment. -/
def State.refresh (s : State) : State :=
  if s.prepared.envGen ≠ some s.gen ∨ s.prepared.envObj ≠ some s.environ then
    { s with prepared := { s.prepared with
      plans := [], envGen := some s.gen, envObj := some s.environ } }
  else s

/-- The plan of a key, as long as the kernel cache still holds its kernel. -/
def State.planOf (s : State) (key : PlanKey) : Option Plan :=
  (Memo.get s.prepared.plans key).filter fun p => match p.kernelKey with
    | none => false
    | some k => decide (Memo.get s.kernels k = some p.compiled)

/-- The launch of a plan. -/
def State.launchWith (s : State) (p : Plan) (c : Call) : Outcome × State :=
  let r := launchPlan p c s.prepared.ptrs
  (r.1, { s with prepared := { s.prepared with ptrs := r.2 } })

/-- A plan is kept if the kernel cache has its kernel. -/
def State.keep (s : State) (key : PlanKey) (p : Plan) : State :=
  { s with prepared := { s.prepared with
    plans := match p.kernelKey with
      | none => Memo.drop s.prepared.plans key
      | some _ => Memo.put PLAN_CACHE_MAX s.prepared.plans key p } }

section Step

variable (st : Stock)

/-- What the stock body would do now. -/
def State.stock (s : State) (c : Call) : Outcome × KernelCache :=
  stockBody st s.context s.kernels c

/-- `prepared_launch_dynamic_flat` -/
def State.launch (s : State) (c : Call) : Outcome × State :=
  if s.prepared.mode = .off ∨ ¬ eligible c then
    let r := s.stock st c
    (r.1, { s with kernels := r.2 })
  else
    let s := s.refresh
    match s.planOf (s.planKey c) with
    | some p => s.launchWith p c
    | none =>
      match decidePlan st s.context s.kernels c with
      | (.error e, kernels) => (⟨[], some e⟩, { s with kernels := kernels })
      | (.ok p, kernels) => ({ s with kernels := kernels }.keep (s.planKey c) p).launchWith p c

/-- What happens in the process. `update`, `pop`, `setdefault` and `clear` of a mapping are
sequences of writes and deletes. -/
inductive Action
  /-- `env[name] = value` -/
  | write (env : ℕ) (name value : String)
  /-- `del env[name]` -/
  | delete (env : ℕ) (name : String)
  /-- `os.environ = env` -/
  | replace (env : ℕ)
  | tileOverride (tile : Option (ℕ × ℕ))
  | swapOverride (swap : Option String)
  | device (d : ℤ)
  | prequantized (on : Bool)
  | mode (m : Mode)
  /-- The kernel cache is cleared, or programs are evicted from it. -/
  | evict (keeps : KernelKey → Bool)
  /-- Another caller has compiled a kernel. -/
  | recompiled (kernel : Kernel)
  | launch (c : Call)

/-- A write or delete, counted where the mapping counts. -/
def State.touch (s : State) (env : ℕ) (name : String) (value : Option String) : State :=
  { s with
    envs := Function.update s.envs env
      { s.envs env with values := Function.update (s.envs env).values name value }
    gen := if (s.envs env).counts && isB12x name then s.gen + 1 else s.gen }

def step (s : State) : Action → Option State
  | .write env name value => some (s.touch env name (some value))
  | .delete env name =>
    if ((s.envs env).values name).isSome then some (s.touch env name none) else none
  | .replace env => some { s with environ := env }
  | .tileOverride tile => some { s with tileMn := tile }
  | .swapOverride swap => some { s with swapAb := swap }
  | .device d => some { s with device := d }
  | .prequantized on => some { s with prequantized := on }
  | .mode m => some { s with prepared := { s.prepared with mode := m } }
  | .evict keeps => some { s with kernels := s.kernels.filter fun e => keeps e.1 }
  | .recompiled kernel => some { s with kernels := Memo.set s.kernels kernel.key kernel }
  | .launch c => some (s.launch st c).2

/-- **Every change of the environment that the plans were made in is seen**: a write or delete
of a `B12X_NEXT_*` key goes to a mapping that counts, or not to the one of the last prepared
launch. -/
def Seen (s : State) : Action → Prop
  | .write env name _ | .delete env name =>
    isB12x name = true → (s.envs env).counts = true ∨ s.prepared.envObj ≠ some env
  | _ => True

/-- After the installation: `os.environ` is the first mapping, and counts. -/
def installed (envs : ℕ → Mapping) (mode : Mode) : State where
  envs := Function.update envs 0 { envs 0 with counts := true }
  environ := 0
  gen := 0
  device := 0
  prequantized := false
  tileMn := none
  swapAb := none
  kernels := []
  prepared := ⟨mode, none, none, [], []⟩

end Step

end MoeLaunch
