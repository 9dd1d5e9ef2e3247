import Mathlib.Data.List.Dedup
import Mathlib.Data.List.Sort
import Mathlib.Data.Nat.Log
import Mathlib.Algebra.BigOperators.Group.List.Basic
import Mathlib.Algebra.Order.Group.Int
import SparkTP4.Transition
import Mathlib.Algebra.Ring.Int.Defs

/-!
# The live verify length, eager, fused and in the draft graph

The target verify runs a fixed rectangle of `STRIDE` rows for each request,
of which only the first `live[r]` are real. `verify_cap.set_live_from_confidence`
computes `live` from the confidence of the draft: the running product of the
confidences, compared with a threshold, gives the number of leading drafts to
verify. `eager_glue` runs this update in two more ways. Its part `vcapk` is the
update as one kernel, and its part `vcap` records the update – torch's or the
kernel's – at the end of the draft graph, so that the eager call before the
verify can be skipped on a step whose draft replayed such a graph.

The model follows rank 0, whose rows `share_live` copies to the other ranks.
The live buffer is the first `maxBs` cells of a memory, and a store past them
lands in a cell that is not the buffer's. A step of the system is a switch of
the in-boot variant, a capture of a draft graph, a call of the sampler, a
proposal or a verify; what raises has no next state. A captured graph keeps the
layout of the tensor it reads, and a replay reads the tensor's new values. For
the statements the state also keeps the updates that ran and the live lengths
the verifies started with.
-/

namespace LiveLength

/-! ## Arithmetic -/

/-- The fp32 operations of the update. Only the product has a law: it does not
depend on the order of its two factors. -/
structure Fp32 (F : Type) where
  /-- `0.0` -/
  zero : F
  /-- `1.0` -/
  one : F
  mul : F → F → F
  maximum : F → F → F
  minimum : F → F → F
  /-- `x != x` -/
  isNan : F → Bool
  /-- `x >= y`, false of a NaN -/
  ge : F → F → Bool
  mul_comm : ∀ x y, mul x y = mul y x

variable {F : Type}

/-- torch's `clamp(lo, hi)`: a NaN stays a NaN. -/
def Fp32.clamp (fp : Fp32 F) (x lo hi : F) : F :=
  if fp.isNan x then x else fp.minimum (fp.maximum x lo) hi

/-- `_clamp01` -/
def Fp32.clamp01 (fp : Fp32 F) (x : F) : F :=
  if fp.isNan x then x else fp.minimum (fp.maximum x fp.zero) fp.one

/-- The prefixes of a list combined one after the other. -/
def scan {α : Type} (op : α → α → α) : List α → List α
  | [] => []
  | x :: xs => xs.scanl op x

/-- One pass of the Sklansky tree: an element in the upper half of a block of
`2 * s` takes in the last prefix of the lower half. -/
def sklanskyPass {α : Type} (op : α → α → α) (v : ℕ → α) (s i : ℕ) : α :=
  if i / s % 2 = 1 then op (v i) (v (i / s * s - 1)) else v i

/-- The prefixes of a list combined in the association of `scan_innermost_dim`. -/
def sklansky {α : Type} (op : α → α → α) (xs : List α) (d : α) : List α :=
  (List.range xs.length).map
    ((((List.range xs.length).map (2 ^ ·)).filter (· < xs.length)).foldl (sklanskyPass op)
      fun i => xs.getD i d)

/-- **torch's `cumprod` along the rows of a matrix**: sequential for one row, which goes
through cub, and the Sklansky tree for more. -/
def Fp32.cumprod (fp : Fp32 F) (rows : ℕ) (xs : List F) : List F :=
  if rows = 1 then scan fp.mul xs else sklansky fp.mul xs fp.zero

/-! ## Tensors and configuration -/

/-- The shape, the strides and the device of a matrix. -/
structure Layout where
  rows : ℕ
  cols : ℕ
  rowStride : ℕ
  colStride : ℕ
  isCuda : Bool
  deriving DecidableEq

/-- A matrix of fp32 values. -/
structure Confidence (F : Type) extends Layout where
  /-- The storage from the matrix' first element on. -/
  data : ℕ → F

/-- The element of a row and a column. -/
def Confidence.elem (c : Confidence F) (r j : ℕ) : F :=
  c.data (r * c.rowStride + j * c.colStride)

/-- The elements of a row. -/
def Confidence.row (c : Confidence F) (r : ℕ) : List F :=
  (List.range c.cols).map (c.elem r)

/-- `confidence_out[:bs]` -/
def Confidence.first (c : Confidence F) (bs : ℕ) : Confidence F :=
  { c with rows := min bs c.rows }

/-- `_state["thr"]`: one threshold, or a list of them, which is not empty. -/
inductive Threshold (F : Type) where
  | scalar (t : F)
  | list (t : F) (ts : List F)

/-- `(thr + [thr[-1]] * n)[:n]` -/
def padThr (t : F) (ts : List F) (n : ℕ) : List F :=
  (t :: ts ++ List.replicate n ((t :: ts).getLast (List.cons_ne_nil t ts))).take n

/-- `MAX_BS` -/
def maxBs : ℕ := 64

/-- What is fixed for a boot. -/
structure Config (F : Type) where
  thr : Threshold F
  kmin : ℤ
  /-- `STRIDE` -/
  stride : ℕ
  /-- Triton is there, and with it `_vcap_kernel`. -/
  triton : Bool
  /-- `CHECKS` -/
  checks : ℕ
  /-- `ab_variant.ACTIVE` -/
  active : Bool
  /-- `ab_variant._MAX_BS` -/
  limit : Option ℕ
  /-- `on("vcap")` in a variant -/
  vcap : ℕ → Bool
  /-- `on("vcapk")` in a variant -/
  vcapk : ℕ → Bool
  /-- `decode.bs`, the sizes of the captured draft graphs -/
  sizes : List ℕ
  /-- The draft has a confidence head: `confidence_out` is not `None`. -/
  head : Bool

/-! ## The update by torch's operations -/

/-- `(cum >= thr).to(torch.int64)` on a row -/
def hits (fp : Fp32 F) (thr : Threshold F) (cum : List F) : List ℤ :=
  match thr with
  | .scalar t => cum.map fun x => (fp.ge x t).toInt
  | .list t ts => cum.zipWith (fun x t => (fp.ge x t).toInt) (padThr t ts cum.length)

/-- The live length of a row, as `set_live_from_confidence` computes it for a matrix of
`rows` rows. -/
def liveOf (fp : Fp32 F) (cfg : Config F) (rows : ℕ) (xs : List F) : ℤ :=
  let cum := fp.cumprod rows (xs.map fun x => fp.clamp x fp.zero fp.one)
  min (max (scan (· * ·) (hits fp cfg.thr cum)).sum cfg.kmin) (cfg.stride - 1) + 1

/-- `buf[:bs].copy_(values)`: the rows it writes. One value is broadcast; any other
number of values than the slice has rows raises. -/
def copyRows (bs : ℕ) (values : List ℤ) : Option (List (ℕ × ℤ)) :=
  if values.length = min bs maxBs then some ((List.range values.length).zip values)
  else match values with
    | [v] => some ((List.range (min bs maxBs)).map fun r => (r, v))
    | _ => none

/-- `set_live_from_confidence`: the rows of the live buffer it writes. -/
def setLiveFromConfidence (fp : Fp32 F) (cfg : Config F) (c : Confidence F) (bs : ℕ) :
    Option (List (ℕ × ℤ)) :=
  copyRows bs ((List.range c.rows).map fun r => liveOf fp cfg c.rows (c.row r))

/-! ## The update by one kernel -/

/-- `_thr_at` -/
def thrAt (fp : Fp32 F) (thr : Threshold F) (i : ℕ) : F :=
  match thr with
  | .scalar t => t
  | .list t ts => (padThr t ts 5).getD i fp.zero

/-- The running products `c0 … c4` of `_vcap_kernel`; `ORDER` is 0 for one row. -/
def kernelProducts (fp : Fp32 F) (order : ℕ) (x : ℕ → F) : List F :=
  let c1 := fp.mul (x 0) (x 1)
  let c2 := if order = 0 then fp.mul c1 (x 2) else fp.mul (x 2) c1
  let c3 := if order = 0 then fp.mul c2 (x 3) else fp.mul (fp.mul (x 2) (x 3)) c1
  let c4 := fp.mul (x 4) c3
  [x 0, c1, c2, c3, c4]

/-- `run` and `k` of `_vcap_kernel`: the run goes on while the products hold, and `k` adds
it up. -/
def kernelCount (fp : Fp32 F) (thr : Threshold F) (c : List F) : ℤ :=
  (c.zipIdx.foldl (fun acc ci =>
    let run := acc.1 * (fp.ge ci.1 (thrAt fp thr ci.2)).toInt
    (run, acc.2 + run)) ((1 : ℤ), (0 : ℤ))).2

/-- `_vcap_kernel`, the value it stores for a row -/
def kernelRow (fp : Fp32 F) (cfg : Config F) (order : ℕ) (c : Confidence F) (r : ℕ) : ℤ :=
  let x := fun i => fp.clamp01 (c.data (r * c.rowStride + i))
  min (max (kernelCount fp cfg.thr (kernelProducts fp order x)) cfg.kmin) (cfg.stride - 1) + 1

/-- `_launch_vcapk`: the rows the kernel stores, one lane each, masked by `bs`. -/
def launchVcapk (fp : Fp32 F) (cfg : Config F) (c : Confidence F) (bs : ℕ) : List (ℕ × ℤ) :=
  (List.range (max 16 (2 ^ Nat.clog 2 bs))).filterMap fun r =>
    if r < bs then some (r, kernelRow fp cfg (if bs = 1 then 0 else 1) c r) else none

/-! ## States -/

/-- What a captured draft graph holds of the update. -/
inductive Recorded where
  | nothing
  | torch (tensor : Layout)
  | fused (tensor : Layout)
  deriving DecidableEq

/-- An update that ran: in which way, for a step of which batch size, on which tensor, and the
cells it wrote. -/
structure Update (F : Type) where
  /-- It ran as `_vcap_kernel`. -/
  fused : Bool
  /-- It was re-executed by a draft graph. -/
  graph : Bool
  bs : ℕ
  confidence : Confidence F
  writes : List (ℕ × ℤ)

/-- A verify that starts: its confidence, and the live buffer before and after
`set_live_from_confidence`. -/
structure Verify (F : Type) where
  bs : ℕ
  confidence : Confidence F
  before : ℕ → ℤ
  live : ℕ → ℤ

/-- The state of a process. -/
structure State (F : Type) where
  /-- The memory from the first cell of the live buffer on. -/
  live : ℕ → ℤ
  /-- `_vcap["captured"]` -/
  captured : List (Option ℕ × ℕ)
  /-- The draft graphs of the variants, by size. -/
  graphs : ℕ → ℕ → Option Recorded
  /-- `_vcap["step"]` -/
  step : Option (Bool × Option ℕ)
  /-- `_vcapk["checks"]` -/
  checks : ℕ
  /-- `_vcapk["off"]` -/
  off : Bool
  /-- `ab_variant._runtime` -/
  variant : ℕ
  /-- The variant of the last proposal, and the confidence it handed on. -/
  own : Option (ℕ × Confidence F)
  updates : List (Update F)
  verifies : List (Verify F)

/-- Before the first graph is captured. -/
def State.init (F : Type) (cfg : Config F) : State F where
  live _ := cfg.stride
  captured := []
  graphs _ _ := none
  step := none
  checks := 0
  off := false
  variant := 0
  own := none
  updates := []
  verifies := []

/-- The memory after stores. -/
def store (writes : List (ℕ × ℤ)) (live : ℕ → ℤ) : ℕ → ℤ :=
  writes.foldl (fun m w => Function.update m w.1 w.2) live

/-- An update runs. -/
def State.apply (s : State F) (u : Update F) : State F :=
  { s with live := store u.writes s.live, updates := u :: s.updates }

/-! ## Sizes and variants -/

/-- The sizes of a sorted list that follow their predecessor directly. -/
def consecutive (prev : ℕ) : List ℕ → List ℕ
  | [] => []
  | b :: rest => if prev + 1 = b then b :: consecutive b rest else consecutive b rest

/-- The first size of a sorted list, and those that follow their predecessor directly. -/
def paddingFree : List ℕ → List ℕ
  | [] => []
  | b :: rest => b :: consecutive b rest

/-- `_eligible_sizes` -/
def eligibleSizes (cfg : Config F) : List ℕ :=
  paddingFree (cfg.sizes.dedup.insertionSort (· ≤ ·))

/-- The size of the graph a batch is padded into. -/
def graphSize (cfg : Config F) (bs : ℕ) : Option ℕ :=
  (cfg.sizes.filter (bs ≤ ·)).min?

/-- A size is captured once for each variant: `size <= limit` -/
def Config.perVariant (cfg : Config F) (size : ℕ) : Bool :=
  cfg.limit.all (size ≤ ·)

/-- The tag of a variant: `None` without an A/B. -/
def Config.tag (cfg : Config F) (v : ℕ) : Option ℕ :=
  if cfg.active then some v else none

/-- `_graph_variant` -/
def State.graphVariant (cfg : Config F) (s : State F) (bs : ℕ) : Option ℕ :=
  cfg.tag (if cfg.perVariant bs then s.variant else 0)

/-- The variant whose graph `FullCudaGraphBackend.replay` takes for a size. -/
def State.replayed (s : State F) (v size : ℕ) : ℕ :=
  if (s.graphs v size).isSome then v else 0

/-- The sampler's call updates the live lengths: `confidence_out is not None and on("vcap")`
and `bs in _eligible_sizes()`. -/
def Config.samplerUpdates (cfg : Config F) (v bs : ℕ) : Bool :=
  cfg.head && cfg.vcap v && decide (bs ∈ eligibleSizes cfg)

/-! ## The wrapped update -/

/-- The guards of `_vcapk_update`. -/
def State.accepts (cfg : Config F) (s : State F) (v : ℕ) (c : Confidence F) (bs : ℕ) : Bool :=
  cfg.triton && !s.off && cfg.vcapk v && c.cols == 5 && c.colStride == 1 && c.isCuda &&
    c.rows == bs && decide (bs ≤ 1024) && cfg.stride == 6

/-- `_vcapk_update` on an eager call while checks remain: torch's update into the live buffer,
the kernel's into a scratch row, and a comparison. -/
def State.checked (fp : Fp32 F) (cfg : Config F) (s : State F) (c : Confidence F) (bs : ℕ) :
    Option (State F) :=
  (setLiveFromConfidence fp cfg c bs).map fun ws =>
    let after := s.apply ⟨false, false, bs, c, ws⟩
    let ref := (List.range (min bs maxBs)).map after.live
    { after with
      checks := s.checks + 1
      off := s.off || decide ((launchVcapk fp cfg c bs).map Prod.snd ≠ ref) }

/-- `_live_update`, eagerly -/
def State.liveUpdate (fp : Fp32 F) (cfg : Config F) (s : State F) (c : Confidence F) (bs : ℕ) :
    Option (State F) :=
  if s.accepts cfg s.variant c bs then
    if s.checks < cfg.checks then s.checked fp cfg c bs
    else some (s.apply ⟨true, false, bs, c, launchVcapk fp cfg c bs⟩)
  else (setLiveFromConfidence fp cfg c bs).map fun ws => s.apply ⟨false, false, bs, c, ws⟩

/-- The sampler's `__call__`, eagerly, with its `confidence_out`. -/
def State.samplerCall (fp : Fp32 F) (cfg : Config F) (s : State F) (out : Confidence F) (bs : ℕ) :
    Option (State F) :=
  if cfg.samplerUpdates s.variant bs then s.liveUpdate fp cfg (out.first bs) bs else some s

/-- What the sampler's `__call__` records while a graph is captured. -/
def State.records (fp : Fp32 F) (cfg : Config F) (s : State F) (v : ℕ) (out : Confidence F)
    (size : ℕ) : Option Recorded :=
  if cfg.samplerUpdates v size then
    if s.accepts cfg v (out.first size) size then some (.fused (out.first size).toLayout)
    else (setLiveFromConfidence fp cfg (out.first size) size).map fun _ =>
      .torch (out.first size).toLayout
  else some .nothing

/-- A graph of a size is captured for a variant. -/
def State.capture (fp : Fp32 F) (cfg : Config F) (s : State F) (v : ℕ) (out : Confidence F)
    (size : ℕ) : Option (State F) :=
  (s.records fp cfg v out size).map fun rec =>
    { s with
      graphs := Function.update s.graphs v (Function.update (s.graphs v) size (some rec))
      captured := if rec = .nothing then s.captured else (cfg.tag v, size) :: s.captured }

/-- A draft graph of `size` rows is replayed for a batch of `bs`. -/
def State.replay (fp : Fp32 F) (cfg : Config F) (s : State F) (out : Confidence F)
    (bs size : ℕ) : Option (State F) :=
  match s.graphs (s.replayed s.variant size) size with
  | none => none
  | some .nothing => some s
  | some (.torch tensor) =>
    if (out.first size).toLayout = tensor then
      (setLiveFromConfidence fp cfg (out.first size) size).map fun ws =>
        s.apply ⟨false, true, bs, out.first size, ws⟩
    else none
  | some (.fused tensor) =>
    if (out.first size).toLayout = tensor then
      some (s.apply ⟨true, true, bs, out.first size, launchVcapk fp cfg (out.first size) size⟩)
    else none

/-! ## Events -/

/-- How a proposal came about. -/
inductive Draft where
  /-- Out of a draft graph replay: `folded`. -/
  | replay
  /-- The sampler was called outside a graph. -/
  | call
  /-- The sampler was not called. -/
  | other
  deriving DecidableEq

/-- A proposal: the batch size, whether it is passed by keyword, how it came about, the
sampler's `confidence_out`, and whether the confidence is handed on. -/
structure Proposal (F : Type) where
  bs : ℕ
  keyword : Bool
  draft : Draft
  out : Confidence F
  handed : Bool

/-- What happens to a process. -/
inductive Event (F : Type) where
  /-- The in-boot variant is switched. -/
  | useVariant (v : ℕ)
  /-- A draft graph is captured for a variant. -/
  | capture (v size : ℕ) (out : Confidence F)
  /-- The sampler is called outside a proposal: the warm-up of a capture. -/
  | warmUp (bs : ℕ) (out : Confidence F)
  | propose (p : Proposal F)
  | verify (bs : ℕ) (confidence : Option (Confidence F))

/-- The draft of a proposal runs. -/
def State.draft (fp : Fp32 F) (cfg : Config F) (s : State F) (p : Proposal F) :
    Option (State F) :=
  match p.draft with
  | .replay => (graphSize cfg p.bs).bind fun size => s.replay fp cfg p.out p.bs size
  | .call => s.samplerCall fp cfg p.out p.bs
  | .other => some s

/-- `propose` -/
def State.propose (fp : Fp32 F) (cfg : Config F) (s : State F) (p : Proposal F) :
    Option (State F) :=
  (s.draft fp cfg p).map fun t =>
    { t with
      step := some (p.draft = .replay ∧ p.handed, if p.keyword then some p.bs else none)
      own := if p.handed then some (s.variant, p.out.first p.bs) else none }

/-- The test of `set_live_from_confidence` on the mark it consumed. -/
def State.skips (cfg : Config F) (s : State F) (bs : ℕ) : Bool :=
  decide (s.step = some (true, some bs)) && cfg.vcap s.variant &&
    decide ((s.graphVariant cfg bs, bs) ∈ s.captured)

/-- A verify starts with the live lengths of a state. -/
def State.start (s : State F) (bs : ℕ) (c : Confidence F) (before : ℕ → ℤ) : State F :=
  { s with verifies := ⟨bs, c, before, s.live⟩ :: s.verifies }

/-- `set_live_from_confidence`, as `eager_glue` wraps it -/
def State.verify (fp : Fp32 F) (cfg : Config F) (s : State F) (bs : ℕ) :
    Option (Confidence F) → Option (State F)
  | none => some { s with step := none }
  | some c =>
    if s.skips cfg bs then some (({ s with step := none } : State F).start bs c s.live)
    else (({ s with step := none } : State F).liveUpdate fp cfg c bs).map fun t =>
      t.start bs c s.live

/-- One event. -/
def State.next (fp : Fp32 F) (cfg : Config F) (s : State F) : Event F → Option (State F)
  | .useVariant v => if cfg.active then some { s with variant := v } else none
  | .capture v size out =>
    if size ∈ cfg.sizes ∧ (v = 0 ∨ cfg.active ∧ cfg.perVariant size) then
      s.capture fp cfg v out size
    else none
  | .warmUp bs out => s.samplerCall fp cfg out bs
  | .propose p => s.propose fp cfg p
  | .verify bs c => s.verify fp cfg bs c

/-! ## What is assumed, and what is claimed -/

/-- **The engine's part.** Graphs are captured and warmed up while no proposal waits for its
verify, and a verify is handed the confidence of its own proposal, in whose forward the
variant is not switched. -/
def Proper (s : State F) : Event F → Prop
  | .capture _ _ _ => s.step = none
  | .warmUp _ _ => s.step = none
  | .verify bs (some c) => s.step = some (true, some bs) → s.own = some (s.variant, c)
  | _ => True

/-- **The three updates agree.** -/
structure Agree (fp : Fp32 F) (cfg : Config F) (s : State F) : Prop where
  /-- A verify starts with the live lengths the stock update computes from its confidence. -/
  verified : ∀ w ∈ s.verifies, ∃ ws, setLiveFromConfidence fp cfg w.confidence w.bs = some ws ∧
    ∀ r < w.bs, w.live r = store ws w.before r
  /-- A graph writes only rows the eager update of its step would write. -/
  rows : ∀ u ∈ s.updates, u.graph = true →
    ∃ ws, setLiveFromConfidence fp cfg (u.confidence.first u.bs) u.bs = some ws ∧
      ∀ w ∈ u.writes, w.1 ∈ ws.map Prod.fst
  /-- The kernel writes inside the live buffer, the rows and values torch's operations write. -/
  fused : ∀ u ∈ s.updates, u.fused = true → (∀ w ∈ u.writes, w.1 < maxBs) ∧
    setLiveFromConfidence fp cfg u.confidence u.confidence.rows = some u.writes

/-- **The condition on a step.** No more rows than the live buffer has are given to the kernel,
eagerly or in a capture, and a batch that replays a graph with the update is as large as the
graph. -/
def Fits (cfg : Config F) (s : State F) : Event F → Prop
  | .useVariant _ => True
  | .capture v size out => cfg.samplerUpdates v size = true →
      s.accepts cfg v (out.first size) size = true → size ≤ maxBs
  | .warmUp bs out => cfg.samplerUpdates s.variant bs = true →
      s.accepts cfg s.variant (out.first bs) bs = true → bs ≤ maxBs
  | .propose p => match p.draft with
    | .replay => ∀ size, graphSize cfg p.bs = some size →
        cfg.samplerUpdates (s.replayed s.variant size) size = true → size = p.bs
    | .call => cfg.samplerUpdates s.variant p.bs = true →
        s.accepts cfg s.variant (p.out.first p.bs) p.bs = true → p.bs ≤ maxBs
    | .other => True
  | .verify bs (some c) => s.skips cfg bs = false →
      s.accepts cfg s.variant c bs = true → bs ≤ maxBs
  | .verify _ none => True

end LiveLength
