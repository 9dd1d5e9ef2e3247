import SparkTP4.KvPlan
import SparkTP4.Transition

/-!
# One plan for a group of layers

The layers from a source layer to the next one of their ratio read the same extra cache
through the same indices, so the plan of the first of them serves the others. The layer tags
say which layer runs and where its group starts (`groupStart`); the reader keeps the last
plan with the addresses and shapes it was made for, and returns it again to the layer right
after the last one it was returned to, in the same group, for the same tensors (`Cache.hit`).
What is at an address is never compared.

The scratch of the calls with few rows is one buffer for each device, which every plan of
such a call overwrites; the plans of larger calls have buffers of their own.
-/

namespace KvGroup

open KvPlan

/-! ## Layer groups -/

/-- The ratios and the source layers of a text config. -/
structure Config where
  ratios : List ℕ
  kvSources : List ℕ
  indexSources : List ℕ

/-- The latest source of the layer's ratio at or before the layer. -/
def lastSource (cfg : Config) (sources : List ℕ) (layer ratio : ℕ) : Option ℕ :=
  (sources.filter fun s => decide (s ≤ layer) && decide (cfg.ratios[s]? = some ratio)).max?

/-- `group_starts(cfg).get(layer)` -/
def groupStart (cfg : Config) (layer : ℕ) : Option ℕ := do
  let ratio ← cfg.ratios[layer]?
  if ratio = 1 ∨ ratio = 2 then
    let k ← lastSource cfg cfg.kvSources layer ratio
    let x ← lastSource cfg cfg.indexSources layer ratio
    pure (max k x)
  else none

/-- The layers that have a group, in order. -/
def taggedLayers (cfg : Config) : List ℕ :=
  (List.range cfg.ratios.length).filter fun l => (groupStart cfg l).isSome

/-- The tagged layer after another one; the first one at the start of a forward. -/
def nextLayer (cfg : Config) : Option ℕ → Option ℕ
  | none => (taggedLayers cfg).head?
  | some l => (taggedLayers cfg).find? fun l' => decide (l < l')

/-! ## Calls of the reader -/

def TOKEN_MODE_MAX_ROWS : ℕ := 96

def DEDUP_MAX_ENTRIES : ℕ := 4096

/-- What is fixed for a process. -/
structure Env where
  /-- `dedup_rule()`: rows of a block and rows from which blocks are formed. -/
  dedupRows : ℕ
  dedupMinRows : ℕ
  /-- Whether the tensors are on a GPU. -/
  cuda : Bool
  /-- The scratch limit of the native page pass. -/
  cap : ℕ
  rule : V4Rule

/-- `dedup_block` -/
def dedupBlock (env : Env) (rows k : ℕ) : ℕ :=
  if env.dedupRows ≤ 1 ∨ rows < max env.dedupMinRows 2 ∨ rows % env.dedupRows ≠ 0 ∨
    DEDUP_MAX_ENTRIES < env.dedupRows * k then 0 else env.dedupRows

/-- What the tensors of a call hold: the extra cache, and the indices with the lengths. -/
structure Contents where
  pool : Pool
  call : KvPlan.Call pool.tokens

/-- Where the tensors of a call are: device, addresses, shapes and strides. -/
structure Tensors where
  device : ℕ
  extraPtr : ℕ
  extraShape : List ℕ
  extraStride : List ℕ
  eidxPtr : ℕ
  eidxShape : List ℕ
  eidxStride : List ℕ
  lenPtr : Option ℕ
  deriving DecidableEq

/-- What the tensors of a layer's calls hold, by where they are. -/
abbrev Memory := Tensors → Contents

/-- `group_view`, `group_page_view` and `native_page_view`. -/
inductive Kind
  | groupView
  | groupPage
  | nativePage
  deriving DecidableEq

/-- The mode in a signature: the block size of the dedup, or which page pass. -/
inductive Mode
  | group (block : ℕ)
  | page
  | nativePage
  deriving DecidableEq

/-- A call of the reader. `empty` is what uninitialised memory holds and `ptr` the address of
a scratch that it allocates. -/
structure Call where
  kind : Kind
  tensors : Tensors
  empty : ℕ → ℤ
  ptr : ℕ

/-- The mode of a call. -/
def modeOf (env : Env) (x : Contents) : Kind → Mode
  | .groupView => .group (dedupBlock env x.call.rows x.call.k)
  | .groupPage => .page
  | .nativePage => .nativePage

/-- The plan that a call makes. The native page pass makes none above its cap. -/
def planFor (env : Env) (x : Contents) (empty : ℕ → ℤ) : Kind → Option Plan
  | .groupView =>
    let g := dedupBlock env x.call.rows x.call.k
    some (if g = 0 then planGroupTorch x.call
      else if env.cuda then dedupTriton x.call g empty
      else planDedupTorch x.call g fun _ => empty)
  | .groupPage => some (planPageMode x.call.masked)
  | .nativePage => nativePageView x.call env.cuda env.cap

/-! ## The cache -/

/-- `_group_sig`: what has to be the same for a plan to be reused. -/
structure Sig where
  tensors : Tensors
  mode : Mode
  buf : Option ℕ
  deriving DecidableEq

/-- A scratch buffer: which one it is, its address and its pages. -/
structure Buf where
  id : ℕ
  ptr : ℕ
  pages : ℕ

/-- The first pages of a buffer. -/
structure View where
  buf : ℕ
  nPages : ℕ

/-- `_group`. The code keeps no record of what the plan was made for (`kind`, `contents`) and
which plan it is (`plan`). -/
structure Group where
  sig : Sig
  layer : Option ℕ
  start : Option ℕ
  view : View
  newIdx : ℕ → ℕ → ℤ
  kind : Kind
  contents : Contents
  plan : ℕ

/-- What a call returns: the view, the rewritten indices and the plan they are of. -/
structure Result where
  view : View
  newIdx : ℕ → ℕ → ℤ
  plan : ℕ

/-- The reader's module state, the bytes of its buffers with the plan that last wrote each of
them, and the number of buffers and plans so far. -/
structure Cache where
  tag : Option (ℕ × ℕ)
  group : Option Group
  scratch : ℕ → Option Buf
  mem : ℕ → ℕ → UInt8
  writer : ℕ → ℕ
  nextBuf : ℕ
  plans : ℕ

namespace Cache

/-- A new persistent scratch, zeroed. -/
def newScratch (s : Cache) (device nPages k ptr : ℕ) : Buf × Cache :=
  let b : Buf := ⟨s.nextBuf, ptr, max nPages (cdiv (TOKEN_MODE_MAX_ROWS * k) SUB)⟩
  (b, { s with
    scratch := Function.update s.scratch device (some b)
    mem := Function.update s.mem b.id fun _ => 0
    nextBuf := s.nextBuf + 1 })

/-- `_token_scratch` -/
def tokenScratch (s : Cache) (device nPages k ptr : ℕ) : Buf × Cache :=
  match s.scratch device with
  | some b => if b.pages < nPages then s.newScratch device nPages k ptr else (b, s)
  | none => s.newScratch device nPages k ptr

/-- The test of `_group_hit`: a tagged layer that is not its group's start, the same tensors,
the same group, the previous call at the layer before. -/
def hit (s : Cache) (sig : Sig) : Option Group :=
  match s.tag, s.group with
  | some (layer, start), some G =>
    if layer ≠ start ∧ G.sig = sig ∧ G.start = some start ∧ G.layer.map (· + 1) = some layer then
      some G
    else none
  | _, _ => none

/-- The kept plan is returned again. -/
def reuse (s : Cache) (G : Group) : Cache × Option Result :=
  ({ s with tag := none, group := some { G with layer := s.tag.map Prod.fst } },
    some ⟨G.view, G.newIdx, G.plan⟩)

/-- A plan written into a buffer and kept. -/
def keep (env : Env) (s : Cache) (c : Call) (x : Contents) (sig : Sig) (plan : Plan)
    (id nPages : ℕ) : Cache × Option Result :=
  ({ s with
      tag := none
      group := some ⟨sig, s.tag.map Prod.fst, s.tag.map Prod.snd, ⟨id, nPages⟩, plan.newIdx,
        c.kind, x, s.plans⟩
      mem := Function.update s.mem id (transcodeList x.pool env.rule (s.mem id) plan.list)
      writer := Function.update s.writer id s.plans
      plans := s.plans + 1 },
    some ⟨⟨id, nPages⟩, plan.newIdx, s.plans⟩)

/-- A zeroed buffer for one plan. -/
def newPages (s : Cache) : Cache :=
  { s with mem := Function.update s.mem s.nextBuf fun _ => 0, nextBuf := s.nextBuf + 1 }

/-- The plan of a call that does not hit: the previous one is dropped first. -/
def fresh (env : Env) (s : Cache) (c : Call) (x : Contents) (sig : Sig) (buf : Option Buf) :
    Cache × Option Result :=
  match planFor env x c.empty c.kind with
  | none => ({ s with tag := none, group := none }, none)
  | some plan =>
    match buf with
    | some b => keep env s c x sig plan b.id plan.nPages
    | none => keep env s.newPages c x sig plan s.nextBuf (max plan.nPages 1)

/-- The scratch of a call: the persistent one for `group_view`. -/
def scratchFor (s : Cache) (c : Call) (x : Contents) : Option Buf × Cache :=
  match c.kind with
  | .groupView =>
    let t := s.tokenScratch c.tensors.device (cdiv (x.call.rows * x.call.k) SUB) x.call.k c.ptr
    (some t.1, t.2)
  | _ => (none, s)

/-- `group_view`, `group_page_view` or `native_page_view`; `group_view` refuses many rows. -/
def read (env : Env) (s : Cache) (c : Call) (x : Contents) : Option (Cache × Option Result) :=
  if c.kind = .groupView ∧ TOKEN_MODE_MAX_ROWS < x.call.rows then none
  else
    let t := s.scratchFor c x
    let sig : Sig := ⟨c.tensors, modeOf env x c.kind, t.1.map Buf.ptr⟩
    match t.2.hit sig with
    | some G => some (t.2.reuse G)
    | none => some (t.2.fresh env c x sig t.1)

end Cache

/-! ## Forwards -/

/-- What a call has returned, with what its tensors held. -/
structure Returned where
  kind : Kind
  contents : Contents
  result : Result

/-- The reader in a sequence of forwards: the layer before in this forward and what the
tensors held then, the same for the layer that runs, and the last return. -/
structure State where
  cache : Cache
  prev : Option (ℕ × Memory)
  inside : Option (ℕ × Memory)
  returned : Option Returned

/-- What can happen. A layer that reads the FP4 pages in place enters and leaves without a
call. -/
inductive Action
  /-- The next tagged layer's attention starts (`tag_layer`). -/
  | enter (m : Memory)
  /-- It calls the reader. -/
  | call (c : Call)
  /-- It ends (`clear_tag`). -/
  | leave
  /-- A layer without a tag calls the reader. -/
  | untagged (m : Memory) (c : Call)
  /-- The forward ends, or is aborted. -/
  | stop
  /-- A plan fails half-way, whatever it has written to the scratch, and aborts the forward. -/
  | fail (scratch : ℕ → Option Buf) (mem : ℕ → ℕ → UInt8) (writer : ℕ → ℕ) (nextBuf : ℕ)

section Step

variable (cfg : Config) (env : Env)

/-- A call of the reader with these contents. -/
def State.read (s : State) (c : Call) (x : Contents) : Option State :=
  (s.cache.read env c x).map fun r =>
    { s with cache := r.1, returned := r.2.map fun result => ⟨c.kind, x, result⟩ }

def step (s : State) : Action → Option State
  | .enter m =>
    if s.inside = none then do
      let layer ← nextLayer cfg (s.prev.map Prod.fst)
      let start ← groupStart cfg layer
      pure { s with
        cache := { s.cache with tag := some (layer, start) }
        inside := some (layer, m)
        returned := none }
    else none
  | .call c => s.inside.bind fun v => s.read env c (v.2 c.tensors)
  | .leave =>
    s.inside.map fun v =>
      { s with
        cache := { s.cache with tag := none }
        prev := some v
        inside := none
        returned := none }
  | .untagged m c => if s.inside = none then s.read env c (m c.tensors) else none
  | .stop =>
    some { s with
      cache := { s.cache with tag := none }
      prev := none
      inside := none
      returned := none }
  | .fail scratch mem writer nextBuf =>
    some {
      cache := ⟨none, none, scratch, mem, writer, nextBuf, s.cache.plans + 1⟩
      prev := none
      inside := none
      returned := none }

/-- **What the engine keeps to.** The first layer of a forward calls the reader before it
ends – a forward whose first layer reads in place reads in place throughout, and is not
seen here. Between two layers of one group that run one after the other nothing writes the
tensors: the extra cache and the indices change only before a layer that is its own group
start. And after a failure the scratches are buffers that have been allocated. -/
def Keeps (s : State) : Action → Prop
  | .leave => s.prev = none → s.cache.tag = none
  | .call c => ∀ v w, s.prev = some v → s.inside = some w →
    groupStart cfg w.1 = groupStart cfg v.1 → w.2 c.tensors = v.2 c.tensors
  | .fail scratch _ _ nextBuf => ∀ d b, scratch d = some b → b.id < nextBuf
  | _ => True

/-- Before the first call. -/
def initial (mem : ℕ → ℕ → UInt8) : State where
  cache := ⟨none, none, fun _ => none, mem, fun _ => 0, 0, 0⟩
  prev := none
  inside := none
  returned := none

/-- The states that a sequence of forwards leads to. -/
def Run (mem : ℕ → ℕ → UInt8) : State → Prop :=
  Transition.Reachable (step cfg env) (Keeps cfg) (initial mem)

end Step

/-! ## What a return has to be -/

/-- **A return is current**: it is what a fresh plan for the call's tensors as they are now
gives – the rewritten indices, the pages, and in the row of every listed slot the transcode
of its token, so that a live entry reads the row of its own token – and no other plan has
written to its buffer since. -/
structure Current (env : Env) (x : Contents) (kind : Kind) (r : Result) (s : Cache) : Prop where
  planned : ∀ empty, ∃ plan, planFor env x empty kind = some plan
  index : ∀ empty plan, planFor env x empty kind = some plan →
    ∀ i < x.call.rows, ∀ j < x.call.k, r.newIdx i j = plan.newIdx i j
  pages : ∀ empty plan, planFor env x empty kind = some plan →
    r.view.nPages = if kind = .groupView then plan.nPages else max plan.nPages 1
  rows : ∀ empty plan, planFor env x empty kind = some plan → ∀ w ∈ plan.list, 0 ≤ w.1 →
    readV4Row (s.mem r.view.buf) w.2 = env.rule.apply (x.pool.record w.1.toNat)
  live : ∀ i < x.call.rows, ∀ j < x.call.k, x.call.live i j = true → ∃ slot : ℕ,
    r.newIdx i j = slot ∧ readV4Row (s.mem r.view.buf) slot =
      env.rule.apply (x.pool.record (x.call.entry i j).toNat)
  writer : s.writer r.view.buf = r.plan

end KvGroup
