import SparkTP4.RowShards

/-!
# The sequence-parallel prefill loop

The layer loop of `prefill_sp.py` (`_sp_forward_layers`) beside the stock
per-layer loop it replaces. All ranks run the same code in step, so a tensor
is the family of what the ranks hold, and a collective is a function on such
families. Inside the full-row region the residual rows `R` and the mixing
weights `prev_pre` are split over the ranks; attention and MoE gather their
input, compute per-rank partial sums over all rows and reduce them back onto
the shards (`Layer.attnForward`, `Layer.moeForward`).

The engine itself is not in this repository. What the loop uses of it – the
row-local functions of a layer, the per-rank partials of attention and MoE,
the Engram tables, the collectives, the hasher – is a field of `Layer`,
`Engram`, `Comm` or `Model`, together with the laws the adapter states for it:
row-local functions act on one row (and may pick their kernel by the row
count), attention and MoE return as many rows as they get, and
reduce-scatter is all-reduce followed by taking the rank's rows.
The FP8 gathers and the debug comparisons are off, as they are by default.
-/

namespace PrefillSp

open RowShards

/-! ## Tensors and collectives -/

/-- The types of one row of each tensor the loop handles, and the state a rank
keeps between calls (the KV caches and the attention metadata). -/
structure Tensors where
  /-- a row of the hyper-connection residual `[M, 4, D]` -/
  Residual : Type
  /-- a row of the mixing weights handed to the next sublayer -/
  Pre : Type
  /-- a row of the sublayer input and output `[M, D]` -/
  Hidden : Type
  /-- a row of the `post` / `comb` statistics -/
  Mix : Type
  /-- the table ids of one Engram layer for one token -/
  Ids : Type
  /-- a row of the Engram lookup -/
  Emb : Type
  /-- a row of the Engram `wkv` output -/
  Kv : Type
  /-- a row of a captured auxiliary hidden state -/
  Aux : Type
  /-- the state of a rank -/
  Rank : Type
  zeroResidual : Residual
  zeroPre : Pre
  zeroIds : Ids

/-- The reductions of the TP group on rows of type `α`. The collective sees
the tensor of every rank, so its order of summation is free; only the relation
between the two reductions is fixed. -/
structure Comm (W : ℕ) (α : Type) where
  allReduce : (Fin W → List α) → List α
  reduceScatterTensor : (Fin W → List α) → Fin W → List α
  length_allReduce : ∀ f n, 0 < W → (∀ q, (f q).length = n) → (allReduce f).length = n
  reduceScatter_eq : ∀ f s, (∀ q, (f q).length = W * s) →
    ∀ r, reduceScatterTensor f r = shardRows s r.val (allReduce f)

/-- `_Plan`: the row partition of one chunk. `_plan` builds one only when the
row count is divisible by the size of the group (`eligible_rows`). -/
structure Plan (W rows : ℕ) where
  sharded : Bool
  exact : Bool
  world_pos : 0 < W
  divides : rows % W = 0

variable {W rows : ℕ} {α : Type}

namespace Plan

/-- `p.shard`, the rows of one rank. -/
def shard (_p : Plan W rows) : ℕ := rows / W

def inRows (p : Plan W rows) : ℕ := if p.sharded then p.shard else rows

theorem rows_eq (p : Plan W rows) : rows = W * p.shard :=
  (Nat.mul_div_cancel' (Nat.dvd_of_mod_eq_zero p.divides)).symm

/-- `t[p.lo:p.hi]` on rank `r`. -/
def own (p : Plan W rows) (r : Fin W) (t : List α) : List α := shardRows p.shard r t

end Plan

/-- `MODE`, from the environment. -/
inductive Mode where
  | off
  | comm
  | shard
  deriving DecidableEq

/-- `eligible_rows`, the shape predicate of every mode. -/
def eligibleRows (rows world minRows : ℕ) : Prop :=
  1 < world ∧ minRows ≤ rows ∧ rows % world = 0

instance (rows world minRows : ℕ) : Decidable (eligibleRows rows world minRows) := by
  unfold eligibleRows
  infer_instance

/-- `_plan`. `plainExtend` stands for its tests of the forward mode, of the
tensor's layout and of the engine contexts it does not run in. -/
def planOf (W rows : ℕ) (mode : Mode) (exact : Bool) (minRows : ℕ) (plainExtend : Bool) :
    Option (Plan W rows) :=
  if mode = .off ∨ plainExtend = false then none
  else if h : eligibleRows rows W minRows then
    some ⟨mode = .shard, exact && mode = .shard, Nat.lt_trans Nat.zero_lt_one h.1, h.2.2⟩
  else none

/-- `sp_logical_rows`: the row count a kernel choice must use for a tensor of
`n` rows. `ctx` is `_ctx.plan`. -/
def spLogicalRows (ctx : Option (Plan W rows)) (n : ℕ) : ℕ :=
  match ctx with
  | none => n
  | some p => if p.sharded && n == p.shard then rows else n

/-- `_gather_rows`: the shards of every rank, on every rank. -/
def gatherAll (x : Fin W → List α) : Fin W → List α := fun _ => gatherRows x

/-- `_reduce_rows`: per-rank partials of all rows to each rank's reduced rows. -/
def reduceRows (p : Plan W rows) (c : Comm W α) (x : Fin W → List α) : Fin W → List α :=
  if p.exact then fun r => p.own r (c.allReduce x) else c.reduceScatterTensor x

/-- `_reduce_out`: the output of a reduction site, the rank's rows when the
plan is sharded, else every row again. -/
def reduceOut (p : Plan W rows) (c : Comm W α) (x : Fin W → List α) : Fin W → List α :=
  if p.sharded then reduceRows p c x else gatherAll (c.reduceScatterTensor x)

/-! ## The tail rows -/

/-- The tail of a chunk of `rows` rows (`LateLayerTail`): a suffix, or a list
of rows, followed by `padRows` rows of zeros. -/
structure Tail (rows : ℕ) where
  contiguousStart : Option ℕ
  tokenIndices : List ℕ
  positions : List ℕ
  padRows : ℕ
  start_le : ∀ s ∈ contiguousStart, s ≤ rows
  index_lt : ∀ i ∈ tokenIndices, i < rows

namespace Tail

/-- `tail.real_rows(t)`; an index in `token_indices` is a row of the chunk. -/
def realRows (tail : Tail rows) (zero : α) (t : List α) : List α :=
  match tail.contiguousStart with
  | some start => t.drop start
  | none => tail.tokenIndices.map (fun i => t.getD i zero)

/-- `tail.rows(t)`. -/
def rowsOf (tail : Tail rows) (zero : α) (t : List α) : List α :=
  tail.realRows zero t ++ List.replicate tail.padRows zero

/-- `n_tail`, the number of real tail rows. -/
def nTail (tail : Tail rows) : ℕ :=
  match tail.contiguousStart with
  | some start => rows - start
  | none => tail.tokenIndices.length

/-- `idx`, the real tail rows as indices of the chunk. -/
def indices (tail : Tail rows) : List ℕ :=
  match tail.contiguousStart with
  | some start => (List.range (rows - start)).map (start + ·)
  | none => tail.tokenIndices

end Tail

/-- `tail_plan`: gather every row when that moves no more rows than gathering
`world` times the tail. -/
def tailPlanFull (rows world tailLen : ℕ) : Bool := rows ≤ world * tailLen

/-- `_tail_real_rows`: the tail rows of the concatenation of every rank's
shard. On the `owners` branch each rank sends, for every tail row, the row of
its own shard with that local index, and the row of the owner is kept. -/
def tailRealRows (p : Plan W rows) (tail : Tail rows) (zero : α) (t : Fin W → List α) :
    Fin W → List α :=
  if tailPlanFull rows W tail.nTail || tail.nTail == 0 then
    fun r => tail.realRows zero (gatherAll t r)
  else
    let mine : Fin W → List α := fun r => tail.indices.map (fun i =>
      (t r).getD (min (i - i / p.shard * p.shard) (p.shard - 1)) zero)
    -- `buf.view(world, n_tail)[owner, arange(n_tail)]`
    fun r => tail.indices.zipIdx.map (fun ij =>
      (gatherAll mine r).getD (ij.1 / p.shard * tail.nTail + ij.2) zero)

/-- `_tail_rows`. -/
def tailRows (p : Plan W rows) (tail : Tail rows) (zero : α) (t : Fin W → List α) :
    Fin W → List α :=
  fun r => tailRealRows p tail zero t r ++ List.replicate tail.padRows zero

/-! ## The engine the loop runs on -/

/-- One Engram layer: its lookup, its `wkv` projection and its gate. -/
structure Engram (T : Tensors) (W : ℕ) where
  layerHashIndex : ℕ
  /-- `embed._shared`: every rank has the whole table -/
  shared : Bool
  embed : T.Ids → T.Emb
  /-- the rank's part of the lookup, zero where it does not own the row -/
  ownedRows : Fin W → T.Ids → T.Emb
  wkv : List T.Emb → List T.Kv
  applyGate : T.Residual → T.Kv → T.Residual
  length_wkv : ∀ t, (wkv t).length = t.length

/-- The two sublayers of a layer. -/
inductive Sublayer where
  | attn
  | ffn
  deriving DecidableEq

/-- One decoder layer. `hcCombine` and `hcPost` take the row count that
selects their kernel; `_hc_mix_stats` gives the weights of the next combine
and the `post` / `comb` statistics of a row. -/
structure Layer (T : Tensors) (W : ℕ) where
  engram : Option (Engram T W)
  hcCombine : Sublayer → ℕ → T.Residual → Option T.Pre → T.Hidden
  hcMixStats : Sublayer → T.Residual → T.Pre × T.Mix
  hcPost : ℕ → T.Hidden → T.Residual → T.Mix → T.Residual
  /-- attention without its all-reduce, with its writes to the rank's caches -/
  selfAttn : Fin W → T.Rank → List ℕ → List T.Hidden → T.Rank × List T.Hidden
  /-- the MoE without its all-reduce -/
  mlp : Fin W → List T.Hidden → List ℕ → List ℕ → List T.Hidden
  writeTailSourceKv : Fin W → T.Rank → List T.Residual → Option (List T.Pre) →
    List ℕ → T.Rank
  length_selfAttn : ∀ r σ pos x, (selfAttn r σ pos x).2.length = x.length
  length_mlp : ∀ r x ids idsGlobal, (mlp r x ids idsGlobal).length = x.length

/-- The model the loop runs: its layers, the settings the loop reads, and the
collectives of its group. -/
structure Model (T : Tensors) (W : ℕ) where
  layers : List (Layer T W)
  lateLayerStart : Option ℕ
  tailWritesSourceKv : Bool
  engramHasher : Option (List ℕ → List (ℕ → T.Ids))
  dsparkLayersToCapture : List ℕ
  /-- `model_type == "deepseek_v41" and vision_n_layers > 0` -/
  vision : Bool
  imageTokenId : ℕ
  mean : T.Residual → T.Aux
  enterLateLayerTail : T.Rank → T.Rank
  exitLateLayerTail : T.Rank → T.Rank
  commHidden : Comm W T.Hidden
  commEmb : Comm W T.Emb
  length_hasher : ∀ h ∈ engramHasher, ∀ ids, (h ids).length = ids.length

/-- The arguments of one forward over a prefill chunk of `rows` rows. -/
structure Chunk (T : Tensors) (rows : ℕ) where
  positions : List ℕ
  hiddenStates : List T.Residual
  inputIds : List ℕ
  inputIdsGlobal : List ℕ
  captureDspark : Bool
  lateLayerTail : Option (Tail rows)
  ranks : ℕ → T.Rank
  length_hiddenStates : hiddenStates.length = rows
  length_inputIds : inputIds.length = rows

/-- The variables of the layer loop, as the ranks hold them. -/
structure State (T : Tensors) (W : ℕ) where
  R : Fin W → List T.Residual
  prevPre : Option (Fin W → List T.Pre)
  ranks : Fin W → T.Rank
  inputIds : List ℕ
  inputIdsGlobal : List ℕ
  positions : List ℕ
  hashIds : Option (List (ℕ → T.Ids))
  aux : List (Fin W → List T.Aux)
  saved : Bool

/-- What a forward returns on each rank, with the auxiliary states it appended
and the caches it leaves. `tail` says whether the rows are the tail rows. -/
structure Out (T : Tensors) (W : ℕ) where
  R : Fin W → List T.Residual
  prevPre : Option (Fin W → List T.Pre)
  ranks : Fin W → T.Rank
  aux : List (Fin W → List T.Aux)
  tail : Bool

variable {T : Tensors}

/-! ## One layer -/

namespace Layer

/-- `_hc_combine` on the rows of one rank, with the kernel for `m` rows. -/
def combineRows (L : Layer T W) (which : Sublayer) (m : ℕ) (R : List T.Residual)
    (pre : Option (List T.Pre)) : List T.Hidden :=
  match pre with
  | none => R.map (fun r => L.hcCombine which m r none)
  | some P => List.zipWith (fun r p => L.hcCombine which m r (some p)) R P

/-- `hc_post` on the rows of one rank, with the kernel for `m` rows. -/
def postRows (L : Layer T W) (m : ℕ) (x : List T.Hidden) (R : List T.Residual)
    (mix : List T.Mix) : List T.Residual :=
  List.zipWith (fun h rm => L.hcPost m h rm.1 rm.2) x (R.zip mix)

/-- Stock attention: every rank's partial of its rows, all-reduced. -/
def stockAttn (L : Layer T W) (c : Comm W T.Hidden) (positions : List ℕ)
    (σ : Fin W → T.Rank) (x : Fin W → List T.Hidden) :
    (Fin W → T.Rank) × (Fin W → List T.Hidden) :=
  let o := fun r => L.selfAttn r (σ r) positions (x r)
  (fun r => (o r).1, fun _ => c.allReduce (fun q => (o q).2))

/-- The wrapped `MQALayer.forward`: gather the rows, run the attention without
its all-reduce, and reduce. An output of another row count raises. -/
def attnForward (L : Layer T W) (c : Comm W T.Hidden) (ctx : Option (Plan W rows))
    (positions : List ℕ) (σ : Fin W → T.Rank) (x : Fin W → List T.Hidden) :
    Option ((Fin W → T.Rank) × (Fin W → List T.Hidden)) :=
  match ctx with
  | none => some (L.stockAttn c positions σ x)
  | some p =>
    if ∀ r, (x r).length = p.inRows then
      let xf := if p.sharded then gatherAll x else x
      let o := fun r => L.selfAttn r (σ r) positions (xf r)
      if ∀ r, (o r).2.length = rows then
        some (fun r => (o r).1, reduceOut p c (fun q => (o q).2))
      else none
    else some (L.stockAttn c positions σ x)

/-- Stock MoE: every rank's partial of its rows, all-reduced. -/
def stockMoe (L : Layer T W) (c : Comm W T.Hidden) (ids idsGlobal : List ℕ)
    (x : Fin W → List T.Hidden) : Fin W → List T.Hidden :=
  fun _ => c.allReduce (fun q => L.mlp q (x q) ids idsGlobal)

/-- The wrapped `DeepseekV2MoE.forward`. -/
def moeForward (L : Layer T W) (c : Comm W T.Hidden) (ctx : Option (Plan W rows))
    (ids idsGlobal : List ℕ) (x : Fin W → List T.Hidden) :
    Option (Fin W → List T.Hidden) :=
  match ctx with
  | none => some (L.stockMoe c ids idsGlobal x)
  | some p =>
    if ∀ r, (x r).length = p.inRows then
      let xf := if p.sharded then gatherAll x else x
      let out := fun r => L.mlp r (xf r) ids idsGlobal
      if ∀ r, (out r).length = rows then some (reduceOut p c out) else none
    else some (L.stockMoe c ids idsGlobal x)

/-- `forward_hc_pre_from_prev`, run by every rank on the rows it holds: combine,
attention, post, combine, MoE, post. Both loops run this code; `ctx` is the
plan that the wrapped sublayers and the kernel choices see. -/
def forwardHcPreFromPrev (L : Layer T W) (M : Model T W) (ctx : Option (Plan W rows))
    (S : State T W) : Option (State T W) := do
  let m := fun (n : ℕ) => spLogicalRows ctx n
  let x := fun r => L.combineRows .attn (m (S.R r).length) (S.R r) (S.prevPre.map (· r))
  let (ranks, x) ← L.attnForward M.commHidden ctx S.positions S.ranks x
  let stats := fun r => (S.R r).map (L.hcMixStats .attn)
  let R := fun r => L.postRows (m (x r).length) (x r) (S.R r) ((stats r).map Prod.snd)
  let x := fun r => L.combineRows .ffn (m (R r).length) (R r) (some ((stats r).map Prod.fst))
  let x ← L.moeForward M.commHidden ctx S.inputIds S.inputIdsGlobal x
  let stats := fun r => (R r).map (L.hcMixStats .ffn)
  let R := fun r => L.postRows (m (x r).length) (x r) (R r) ((stats r).map Prod.snd)
  some { S with R := R, ranks := ranks, prevPre := some fun r => (stats r).map Prod.fst }

end Layer

/-- `torch.where((ids == image_token_id)[:, None, None], before, after)`. -/
def whereImage (imageTokenId : ℕ) (ids : List ℕ) (before after : List T.Residual) :
    List T.Residual :=
  List.zipWith (fun i ba => if i = imageTokenId then ba.1 else ba.2) ids (before.zip after)

/-! ## The stock loop -/

/-- Stock `Engram.forward`. -/
def Engram.forward (e : Engram T W) (c : Comm W T.Emb) (x : Fin W → List T.Residual)
    (ids : List T.Ids) : Fin W → List T.Residual :=
  let emb := if e.shared then ids.map e.embed
    else c.allReduce (fun q => ids.map (e.ownedRows q))
  fun r => List.zipWith e.applyGate (x r) (e.wkv emb)

namespace Model

/-- The tail of this forward with the layer it starts at. -/
def tailOf (M : Model T W) (c : Chunk T rows) : Option (ℕ × Tail rows) :=
  match M.lateLayerStart with
  | none => none
  | some late => c.lateLayerTail.map (fun t => (late, t))

/-- The variables both loops start from. -/
def start (M : Model T W) (c : Chunk T rows) : State T W where
  R := fun _ => c.hiddenStates
  prevPre := none
  ranks := fun r => c.ranks r
  inputIds := c.inputIds
  inputIdsGlobal := c.inputIdsGlobal
  positions := c.positions
  hashIds := M.engramHasher.map (· c.inputIds)
  aux := []
  saved := false

/-- The rows of the loop's id tensors and positions when the tail is entered. -/
def narrow (tail : Tail rows) (S : State T W) : State T W :=
  { S with
    inputIds := tail.rowsOf 0 S.inputIds
    inputIdsGlobal := tail.rowsOf 0 S.inputIdsGlobal
    positions := tail.positions
    hashIds := S.hashIds.map (tail.rowsOf (fun _ => T.zeroIds))
    saved := true }

/-- The stock loop enters the tail: the source layer writes its compressed KV
for every row, then every tensor keeps its tail rows. -/
def stockEnterTail (M : Model T W) (L : Layer T W) (tail : Tail rows)
    (S : State T W) : Option (State T W) := do
  let ranks := if M.tailWritesSourceKv then
      fun r => L.writeTailSourceKv r (S.ranks r) (S.R r) (S.prevPre.map (· r)) S.positions
    else S.ranks
  -- `tail.rows(None)` raises
  let pre ← S.prevPre
  some (narrow tail { S with
    ranks := fun r => M.enterLateLayerTail (ranks r)
    R := fun r => tail.rowsOf T.zeroResidual (S.R r)
    prevPre := some fun r => tail.rowsOf T.zeroPre (pre r) })

/-- The head of a stock iteration: at `late_layer_start` the tail is entered. -/
def stockTailStep (M : Model T W) (c : Chunk T rows) (i : ℕ) (L : Layer T W)
    (S : State T W) : Option (State T W) :=
  match M.tailOf c with
  | some (late, tail) => if i = late then M.stockEnterTail L tail S else some S
  | none => some S

/-- The Engram step of the stock loop. -/
def stockEngram (M : Model T W) (L : Layer T W) (S : State T W) : Option (State T W) :=
  match L.engram with
  | none => some S
  | some e => do
    let hashIds ← S.hashIds
    let after := e.forward M.commEmb S.R (hashIds.map (· e.layerHashIndex))
    some { S with R := if M.vision then
        fun r => whereImage M.imageTokenId S.inputIds (S.R r) (after r) else after }

/-- The rows the stock loop captures at layer `i`: the tail rows of a layer
before the tail. -/
def stockAux (M : Model T W) (c : Chunk T rows) (i : ℕ) (S : State T W) :
    Fin W → List T.Residual :=
  match M.tailOf c with
  | some (late, tail) =>
    if i < late then fun r => tail.rowsOf T.zeroResidual (S.R r) else S.R
  | none => S.R

/-- The auxiliary capture of the stock loop at layer `i`. -/
def stockCapture (M : Model T W) (c : Chunk T rows) (i : ℕ) (S : State T W) : State T W :=
  if c.captureDspark && i ∈ M.dsparkLayersToCapture then
    { S with aux := S.aux ++ [fun r => (M.stockAux c i S r).map M.mean] }
  else S

/-- One iteration of the stock loop. -/
def stockLayer (M : Model T W) (c : Chunk T rows) (i : ℕ) (L : Layer T W)
    (S : State T W) : Option (State T W) := do
  let S ← M.stockTailStep c i L S
  let S ← M.stockEngram L S
  L.forwardHcPreFromPrev M (none : Option (Plan W rows)) (M.stockCapture c i S)

/-- The stock loop from layer `i` on. -/
def stockLoop (M : Model T W) (c : Chunk T rows) :
    ℕ → List (Layer T W) → State T W → Option (State T W)
  | _, [], S => some S
  | i, L :: Ls, S => do
    let S ← M.stockLayer c i L S
    M.stockLoop c (i + 1) Ls S

/-- Leaving the tail after the last layer, and the result. -/
def finish (M : Model T W) (S : State T W) : Out T W where
  R := S.R
  prevPre := S.prevPre
  ranks := if S.saved then fun r => M.exitLateLayerTail (S.ranks r) else S.ranks
  aux := S.aux
  tail := S.saved

/-- The stock per-layer loop on the full rows. -/
def stockForwardLayers (M : Model T W) (c : Chunk T rows) :
    Option (Out T W) := do
  let S ← M.stockLoop c 0 M.layers (M.start c)
  some (M.finish S)

end Model

/-! ## The sequence-parallel loop -/

/-- `_WKV_OK`: the agreed verdicts of the `wkv` self-check, by Engram layer and
chunk size. -/
abbrev WkvOk : Type := ℕ × ℕ → Option Bool

/-- The variables of the sequence-parallel loop. `inRegion` also says whether
`_ctx.plan` is set. -/
structure SpState (T : Tensors) (W : ℕ) extends State T W where
  inRegion : Bool
  idsRows : Option (Fin W → List ℕ)
  wkvOk : WkvOk

/-- `_wkv_shard`: the rank's rows of `wkv`, from the shard when the shard's GEMM
is known to give the rows of the full one (`_agree_min` of every rank's
comparison, once for each layer and chunk size). -/
def wkvShardRows [DecidableEq T.Kv] (p : Plan W rows) (wkvShard : Bool) (e : Engram T W)
    (emb : Fin W → List T.Emb) (ok : WkvOk) : (Fin W → List T.Kv) × WkvOk :=
  let mine := fun r => p.own r (e.wkv (gatherAll emb r))
  let part := fun r => e.wkv (emb r)
  if wkvShard then
    match ok (e.layerHashIndex, rows) with
    | none =>
      let agreed := decide (∀ r, mine r = part r)
      (if agreed then part else mine,
        fun key => if key = (e.layerHashIndex, rows) then some agreed else ok key)
    | some true => (part, ok)
    | some false => (mine, ok)
  else (mine, ok)

/-- `_sp_engram`: the stock lookup on all rows, then `wkv` and the gate on the
rank's rows. -/
def spEngram [DecidableEq T.Kv] (p : Plan W rows) (wkvShard : Bool) (c : Comm W T.Emb)
    (e : Engram T W) (x : Fin W → List T.Residual) (ids : List T.Ids) (ok : WkvOk) :
    (Fin W → List T.Residual) × WkvOk :=
  let partials := !e.shared
  let emb : Fin W → List T.Emb := fun q =>
    if e.shared then ids.map e.embed else ids.map (e.ownedRows q)
  if p.sharded then
    let emb := if partials then reduceRows p c emb else fun r => p.own r (emb r)
    let (kv, ok) := wkvShardRows p wkvShard e emb ok
    (fun r => List.zipWith e.applyGate (x r) (kv r), ok)
  else
    let emb := if partials then reduceOut p c emb else emb
    (fun r => List.zipWith e.applyGate (x r) (e.wkv (emb r)), ok)

namespace Model

/-- The compressed-KV write of the last source layer before the tail, on every
row of the chunk. -/
def spSourceKv (M : Model T W) (p : Plan W rows) (L : Layer T W) (S : State T W) :
    Option (Fin W → T.Rank) :=
  if M.tailWritesSourceKv then
    if p.sharded then
      -- `_gather_rows(p, None)` raises
      S.prevPre.map (fun pre r => L.writeTailSourceKv r (S.ranks r) (gatherAll S.R r)
        (some (gatherAll pre r)) S.positions)
    else some (fun r => L.writeTailSourceKv r (S.ranks r) (S.R r) (S.prevPre.map (· r))
        S.positions)
  else some S.ranks

/-- The sequence-parallel loop enters the tail: the source layer gets the
gathered rows, then the region ends and every tensor keeps its tail rows. -/
def spEnterTail (M : Model T W) (p : Plan W rows) (L : Layer T W) (tail : Tail rows)
    (S : SpState T W) : Option (SpState T W) := do
  let ranks ← M.spSourceKv p L S.toState
  let pre ← S.prevPre
  some { S with
    toState := narrow tail { S.toState with
      ranks := fun r => M.enterLateLayerTail (ranks r)
      R := if p.sharded then tailRows p tail T.zeroResidual S.R
        else fun r => tail.rowsOf T.zeroResidual (S.R r)
      prevPre := some (if p.sharded then tailRows p tail T.zeroPre pre
        else fun r => tail.rowsOf T.zeroPre (pre r)) }
    inRegion := false }

/-- The head of an iteration: at `late_layer_start` the tail is entered. -/
def spTailStep (M : Model T W) (p : Plan W rows) (c : Chunk T rows) (i : ℕ)
    (L : Layer T W) (S : SpState T W) : Option (SpState T W) :=
  match M.tailOf c with
  | some (late, tail) => if i = late then M.spEnterTail p L tail S else some S
  | none => some S

/-- The Engram step of the sequence-parallel loop. -/
def spEngramStep [DecidableEq T.Kv] (M : Model T W) (wkvShard : Bool) (p : Plan W rows)
    (L : Layer T W) (S : SpState T W) : Option (SpState T W) :=
  match L.engram with
  | none => some S
  | some e => do
    let hashIds ← S.hashIds
    let ids := hashIds.map (· e.layerHashIndex)
    let (after, ok) := if S.inRegion then
        spEngram p wkvShard M.commEmb e S.R ids S.wkvOk
      else (e.forward M.commEmb S.R ids, S.wkvOk)
    if M.vision then
      if S.inRegion && p.sharded then
        let idsRows := S.idsRows.getD (fun r => p.own r S.inputIds)
        some { S with
          R := fun r => whereImage M.imageTokenId (idsRows r) (S.R r) (after r)
          idsRows := some idsRows
          wkvOk := ok }
      else
        some { S with
          R := fun r => whereImage M.imageTokenId S.inputIds (S.R r) (after r)
          wkvOk := ok }
    else some { S with R := after, wkvOk := ok }

/-- The rows the sequence-parallel loop captures at layer `i`. -/
def spAux (M : Model T W) (p : Plan W rows) (c : Chunk T rows) (i : ℕ) (S : SpState T W) :
    Fin W → List T.Residual :=
  if S.inRegion && p.sharded then
    match M.tailOf c with
    | some (_, tail) => tailRows p tail T.zeroResidual S.R
    | none => gatherAll S.R
  else match M.tailOf c with
    | some (late, tail) =>
      if i < late then fun r => tail.rowsOf T.zeroResidual (S.R r) else S.R
    | none => S.R

/-- The auxiliary capture of the sequence-parallel loop at layer `i`. -/
def spCapture (M : Model T W) (p : Plan W rows) (c : Chunk T rows) (i : ℕ)
    (S : SpState T W) : SpState T W :=
  if c.captureDspark && i ∈ M.dsparkLayersToCapture then
    { S with aux := S.aux ++ [fun r => (M.spAux p c i S r).map M.mean] }
  else S

/-- One iteration of the sequence-parallel loop. -/
def spLayer [DecidableEq T.Kv] (M : Model T W) (wkvShard : Bool) (p : Plan W rows)
    (c : Chunk T rows) (i : ℕ) (L : Layer T W) (S : SpState T W) :
    Option (SpState T W) := do
  let S ← M.spTailStep p c i L S
  let S ← M.spEngramStep wkvShard p L S
  let S := M.spCapture p c i S
  let S' ← L.forwardHcPreFromPrev M (if S.inRegion then some p else none) S.toState
  some { S with toState := S' }

/-- The sequence-parallel loop from layer `i` on. -/
def spLoop [DecidableEq T.Kv] (M : Model T W) (wkvShard : Bool) (p : Plan W rows)
    (c : Chunk T rows) : ℕ → List (Layer T W) → SpState T W → Option (SpState T W)
  | _, [], S => some S
  | i, L :: Ls, S => do
    let S ← M.spLayer wkvShard p c i L S
    M.spLoop wkvShard p c (i + 1) Ls S

/-- The variables of the sequence-parallel loop at its start. -/
def spStart (M : Model T W) (p : Plan W rows) (c : Chunk T rows) (ok : WkvOk) :
    SpState T W :=
  { M.start c with
    R := fun r => if p.sharded then p.own r c.hiddenStates else c.hiddenStates
    inRegion := true
    idsRows := none
    wkvOk := ok }

/-- `_sp_forward_layers`: what it returns on every rank, and the verdicts it
leaves for the next chunk. -/
def spForwardLayers [DecidableEq T.Kv] (M : Model T W) (wkvShard : Bool) (p : Plan W rows)
    (c : Chunk T rows) (ok : WkvOk) : Option (Out T W × WkvOk) := do
  let S ← M.spLoop wkvShard p c 0 M.layers (M.spStart p c ok)
  if S.saved then some (M.finish S.toState, S.wkvOk)
  else if p.sharded then do
    -- `_gather_rows(p, None)` raises: no layer has run
    let pre ← S.prevPre
    some (M.finish { S.toState with R := gatherAll S.R, prevPre := some (gatherAll pre) },
      S.wkvOk)
  else some (M.finish S.toState, S.wkvOk)

/-- The installed `_forward_layers_hc_pre_from_prev`: the sequence-parallel loop
when `_plan` gives a plan, else the stock one. -/
def forwardLayers [DecidableEq T.Kv] (M : Model T W) (wkvShard : Bool)
    (plan : Option (Plan W rows)) (c : Chunk T rows) (ok : WkvOk) : Option (Out T W × WkvOk) :=
  match plan with
  | none => (M.stockForwardLayers c).map (fun out => (out, ok))
  | some p => M.spForwardLayers wkvShard p c ok

end Model

end PrefillSp
