import SparkTP4.LaneCopy
import SparkTP4.MaskedTile
import SparkTP4.Transition

/-!
# Dead verify rows routed like their anchor

The target verify runs `STRIDE` rows for each request, of which the first `live[req]` count. A
*dead* row – one at or past `live[req]` – is given the router output of its *anchor*, the first
row of its request, so that it reads no expert of its own. `verify_cap` does so in three ways:

* `_remap_kernel` copies the anchor's weights and ids over the dead rows, in the buffers
  themselves, one lane for each row;
* without Triton, or where the kernel does not apply, `index_select` takes each row from its
  source row, and the source rows are computed once in a forward (`_src_rows`);
* with `DSV41_ROUTER_LIVE` the router kernel loads the anchor's scores and token for a dead
  row, and there is nothing to copy.

The lanes of the kernel run in any order. A lane's own accesses are in program order, and the
state is the two buffers, what each lane has loaded and what it has left to do. The router is
a function of a row's scores and token; its weights are of any type.
-/

namespace VerifyCap

open LaneCopy MaskedTile StridedMatrix

variable {F S : Type}

/-! ## Rows -/

/-- `MAX_BS` -/
def maxBs : ℕ := 64

/-- `E_TARGET` -/
def eTarget : ℕ := 384

/-- `K_TARGET` -/
def kTarget : ℕ := 6

/-- The settings of a boot. -/
structure Config where
  /-- `STRIDE`, the verify rows of a request -/
  stride : ℕ
  stride_pos : 0 < stride

/-- What the router returns: weights and expert ids, of one shape. -/
structure Routing (F : Type) where
  weights : View F
  indices : View ℤ
  rows_eq : weights.rows = indices.rows
  cols_eq : weights.cols = indices.cols

/-- `indices.shape[0]` -/
def Routing.m (x : Routing F) : ℕ := x.indices.rows

/-! ## `_src_rows` and the fallback -/

/-- `_src_rows` without the cache: a row itself if it is live, else its anchor. -/
def computeSrc (cfg : Config) (live : ℕ → ℤ) (m : ℕ) : List ℕ :=
  (List.range m).map fun r =>
    let req := r / cfg.stride
    let pos := r % cfg.stride
    if live (min req (maxBs - 1)) ≤ pos then req * cfg.stride else r

/-- `_src_rows`: `cache` is `_state["src"]`. The rows, and the new cache. -/
def srcRows (cfg : Config) (live : ℕ → ℤ) (cache : Option (List ℕ)) (m : ℕ) :
    List ℕ × Option (List ℕ) :=
  match cache with
  | some src => if src.length = m then (src, some src)
    else (computeSrc cfg live m, some (computeSrc cfg live m))
  | none => (computeSrc cfg live m, some (computeSrc cfg live m))

/-- The end of `remap_dead_rows`, without the kernel. -/
def remapSelect (cfg : Config) (live : ℕ → ℤ) (cache : Option (List ℕ)) (x : Routing F) :
    (List (List F) × List (List ℤ)) × Option (List ℕ) :=
  let (src, cache) := srcRows cfg live cache x.m
  ((x.weights.indexSelect src, x.indices.indexSelect src), cache)

/-- The cache after the layers of a forward: `forward` clears it, and the live lengths do not
change before the next one. -/
def forwardCache (cfg : Config) (live : ℕ → ℤ) (layers : List (Routing F)) : Option (List ℕ) :=
  layers.foldl (fun cache x => (remapSelect cfg live cache x).2) none

/-! ## The kernel -/

/-- The two buffers. -/
inductive Buf where
  | w
  | i
  deriving DecidableEq

/-- One access of a lane, in the `k`-th pass of the loop. -/
structure Op where
  buf : Buf
  access : Access
  k : ℕ
  deriving DecidableEq

/-- The accesses of one pass, in program order. -/
def passOps (k : ℕ) : List Op :=
  [⟨.w, .load, k⟩, ⟨.i, .load, k⟩, ⟨.w, .store, k⟩, ⟨.i, .store, k⟩]

/-- The accesses of a lane: `for k in tl.static_range(K)`. -/
def laneOps (K : ℕ) : List Op := (List.range K).flatMap passOps

/-- The arguments of a launch of `_remap_kernel`. -/
structure Launch where
  m : ℕ
  sw : ℕ
  si : ℕ
  strideR : ℕ
  k : ℕ
  block : ℕ
  live : ℕ → ℤ

namespace Launch

/-- `tl.load(LIVE + req, rmask, STRIDE_R)` -/
def liveOf (L : Launch) (r : ℕ) : ℤ := if r < L.m then L.live (r / L.strideR) else L.strideR

/-- `rmask & (pos >= live)` -/
def dead (L : Launch) (r : ℕ) : Bool :=
  decide (r < L.m) && decide (L.liveOf r ≤ (r % L.strideR : ℕ))

/-- `anchor` -/
def anchor (L : Launch) (r : ℕ) : ℕ := r / L.strideR * L.strideR

/-- The copies of the lanes: lane and pass. -/
def tasks (L : Launch) (s : ℕ) : Tasks ℕ (ℕ × ℕ) where
  src t := L.anchor t.1 * s + t.2
  dst t := t.1 * s + t.2
  active t := L.dead t.1 && decide (t.2 < L.k)

end Launch

/-- The state of a launch. -/
structure State (F : Type) where
  w : Cells ℕ (ℕ × ℕ) F
  i : Cells ℕ (ℕ × ℕ) ℤ
  /-- What each lane has left to do. -/
  rest : ℕ → List Op

/-- One access of lane `r`; `zero` is `0.0`. -/
def exec (L : Launch) (zero : F) (r : ℕ) (op : Op) (s : State F) : State F :=
  match op.buf with
  | .w => { s with w := s.w.access (L.tasks L.sw) zero (r, op.k) op.access }
  | .i => { s with i := s.i.access (L.tasks L.si) 0 (r, op.k) op.access }

/-- The next access of lane `r`, one of `tl.arange(0, BLOCK)`. -/
def step (L : Launch) (zero : F) (s : State F) (r : ℕ) : Option (State F) :=
  if r < L.block then
    match s.rest r with
    | [] => none
    | op :: ops => some { exec L zero r op s with rest := Function.update s.rest r ops }
  else none

/-- The launch in `remap_dead_rows`. -/
def remapLaunch (cfg : Config) (live : ℕ → ℤ) (x : Routing F) : Launch where
  m := x.m
  sw := x.weights.rowStride
  si := x.indices.rowStride
  strideR := cfg.stride
  k := kTarget
  block := nextPowerOf2 x.m
  live := live

/-- The state when the kernel starts. -/
def start (x : Routing F) : State F where
  w := ⟨x.weights.data, fun _ => none⟩
  i := ⟨x.indices.data, fun _ => none⟩
  rest := fun _ => laneOps kTarget

/-- The kernel has ended when every lane has. -/
def State.finished (L : Launch) (s : State F) : Prop := ∀ r < L.block, s.rest r = []

/-- The test of `remap_dead_rows` for the kernel, `triton` telling whether there is one. -/
def inPlace (triton : Bool) (x : Routing F) : Bool :=
  triton && x.weights.isContiguous && x.indices.isContiguous &&
    decide (x.weights.cols = kTarget) && decide (x.m ≤ 1024)

/-- What the two tensors hold at a state of the kernel. -/
def State.contents (s : State F) (x : Routing F) : List (List F) × List (List ℤ) :=
  (View.toRows { x.weights with data := s.w.mem },
    View.toRows { x.indices with data := s.i.mem })

/-! ## The router -/

/-- `verify` in `wrapped`: `scores` is `m` by `experts`. -/
def isVerify (cfg : Config) (inVerify : Bool) (m experts topk : ℕ) : Bool :=
  inVerify && decide (experts = eTarget) && decide (topk = kTarget) && decide (m ≠ 0) &&
    decide (m % cfg.stride = 0) && decide (m / cfg.stride ≤ maxBs)

/-- **The router kernel on one row**: its weights and ids from the row's scores and, in a
hashed layer, its token. -/
abbrev Gate (F S : Type) := List S → Option ℤ → List F × List ℤ

/-- The inputs of the router kernel. -/
structure Scores (S : Type) where
  scores : ℕ → List S
  inputIds : Option (ℕ → ℤ)

/-- The kernel's program of one row, with its loads from row `src`. -/
def gateRow (gate : Gate F S) (inp : Scores S) (src : ℕ) : List F × List ℤ :=
  gate (inp.scores src) (inp.inputIds.map fun ids => ids src)

/-- `moe_fused_gate` of the engine. -/
def fusedGate (gate : Gate F S) (inp : Scores S) (m : ℕ) : List (List F) × List (List ℤ) :=
  (((List.range m).map (gateRow gate inp)).map Prod.fst,
    ((List.range m).map (gateRow gate inp)).map Prod.snd)

/-- `src_m` of the patched kernel; a row past the mask takes `other=LIVE_STRIDE`. -/
def srcM (stride : ℕ) (live : ℕ → ℤ) (m r : ℕ) : ℕ :=
  let req := r / stride
  let lv : ℤ := if r < m then live req else stride
  if lv ≤ (r % stride : ℕ) then req * stride else r

/-- `moe_fused_gate` of `router_live.build`. -/
def fusedGateLive (cfg : Config) (live : ℕ → ℤ) (gate : Gate F S) (inp : Scores S) (m : ℕ) :
    List (List F) × List (List ℤ) :=
  (((List.range m).map fun r => gateRow gate inp (srcM cfg.stride live m r)).map Prod.fst,
    ((List.range m).map fun r => gateRow gate inp (srcM cfg.stride live m r)).map Prod.snd)

end VerifyCap
