import SparkTP4.SwaCone

/-!
# Planning and admitting a cone replay

The scheduler side of `adapter/swa_cone.py`. After the stock match a request is switched to
the cone match where that saves enough (`planRequest`): its match fields are moved before the
engine has decided whether to admit it, and the `Plan` on the request keeps the stock match.
The engine's selection can refuse the request, or admit a first pass of any length, chunked
or not; `guardedSelect` keeps the plan only for a chunked pass that covers the replay, and
otherwise puts the stock match back and selects again. The batch collects the plans of the
requests whose first pass it runs, and raises where a pass does not cover its plan
(`buildConeBatch`).

The tree core and the selection of the engine are parameters: a call of the tree core that
raises is `none`, and the selection is any function that may change the adder. Slots, lengths
and page ids are Python integers.
-/

namespace SwaCone

/-! ## Requests -/

/-- The fields of a match: `_STOCK_FIELDS` and `kv.cache_protected_len`. -/
structure Match (Node : Type) where
  prefixIndices : List ℤ
  lastNode : Node
  lastHostNode : Node
  bestMatchNode : Node
  hostHitLength : ℤ
  swaHostHitLength : ℤ
  swaBranchingSeqlen : Option ℤ
  cacheProtectedLen : ℤ

/-- `Plan` -/
structure Plan (Node : Type) where
  s : ℤ
  fullHit : ℤ
  /-- resident full page ids of `[s, F)`, in order -/
  srcPages : List ℤ
  stock : Match Node

/-- `Plan.n` -/
def Plan.n {Node : Type} (plan : Plan Node) : ℤ := plan.fullHit - plan.s

/-- What a request says about itself. -/
structure ReqInfo (Token : Type) where
  session : Bool
  multimodalInputs : Bool
  inputEmbeds : Bool
  positionalEmbedOverrides : Bool
  returnLogprob : Bool
  logprobStartLen : ℤ
  originInputLen : ℤ
  isDllm : Bool
  /-- `"-ref" in str(req.rid)` -/
  refRid : Bool
  fullUntruncatedFillIds : List Token
  extraKey : Option String
  cacheSalt : Option String

/-- A request: what it says, its match and its plan. -/
structure Req (Node Token : Type) where
  info : ReqInfo Token
  found : Match Node
  plan : Option (Plan Node)

/-- `RadixKey` -/
structure RadixKey (Token : Type) where
  tokenIds : List Token
  extraKey : Option String
  limit : ℤ
  cacheSalt : Option String

/-- The cache: what `_eligible_cache` reads of it, and its tree core. -/
structure Cache (Node Token : Type) where
  treeCore : Bool
  disable : Bool
  enableHicache : Bool
  enableSessionRadixCache : Bool
  isMambaEnabled : Bool
  decoderSwaBoundedReplay : Bool
  linker : Bool
  freeOutOfWindowSlots : Bool
  /-- `sliding_window_size` of the SWA component, none without one -/
  swaComponent : Option ℤ
  pageSize : ℤ
  slidingWindowSize : ℤ
  /-- the matched length, the node and the pinned length -/
  matchFullDevicePrefix : RadixKey Token → Option (ℤ × Node × ℤ)
  collectFullDeviceIndices : Node → Option (List ℤ)

/-- `STATE`, with the outcome of `_tree_pins_ok`. -/
structure State where
  active : Bool
  earlyLayers : Option ℤ
  tokens : ℤ
  minSave : ℤ
  test : Bool
  treePinsOk : Bool

variable {Node Token : Type}

/-! ## The plan -/

/-- `_eligible_cache` -/
def eligibleCache (cache : Cache Node Token) : Bool :=
  if !cache.treeCore || cache.disable then false
  else if cache.enableHicache || cache.enableSessionRadixCache then false
  else if cache.isMambaEnabled then false
  else if !cache.decoderSwaBoundedReplay then false
  else if cache.linker then false
  else if !cache.freeOutOfWindowSlots then false
  else cache.swaComponent.any (· ≠ 0)

/-- `_eligible_req` -/
def eligibleReq (st : State) (req : Req Node Token) : Bool :=
  if req.info.session then false
  else if req.info.multimodalInputs || req.info.inputEmbeds then false
  else if req.info.positionalEmbedOverrides then false
  else if req.found.hostHitLength ≠ 0 then false
  else if req.info.returnLogprob && !(req.info.logprobStartLen = -1 ||
      req.info.logprobStartLen = req.info.originInputLen) then false
  else if req.info.isDllm then false
  else !(st.test && req.info.refRid)

/-- `seg.view(-1, page)` -/
def pageRows (seg : List ℤ) (page : ℕ) : List (List ℤ) :=
  (List.range (seg.length / page)).map fun j => (seg.drop (j * page)).take page

/-- A row of slots is a whole page: `seg - base == arange(page)` and `base % page == 0`. -/
def wholePage (page : ℕ) (row : List ℤ) : Bool :=
  let base := row.headD 0
  row.map (· - base) = (List.range page).map (fun (t : ℕ) => (t : ℤ)) && Int.fmod base page = 0

/-- How `plan_request` ends. -/
inductive PlanOutcome (Node : Type) where
  | raised
  | kept
  | planned (plan : Plan Node)

/-- The match that a planned request is switched to. -/
def coneMatch (stock : Match Node) (node : Node) (idx : List ℤ) (s : ℤ) : Match Node :=
  { stock with
    prefixIndices := idx.take s.toNat
    lastNode := node
    lastHostNode := node
    bestMatchNode := node
    cacheProtectedLen := s }

/-- `plan_request` from the match in the tree on, for a replay start `s`. -/
def planFrom (cache : Cache Node Token) (req : Req Node Token) (fullHit s : ℤ) :
    PlanOutcome Node × Req Node Token :=
  let key : RadixKey Token := {
    tokenIds := req.info.fullUntruncatedFillIds
    extraKey := req.info.extraKey
    limit := fullHit
    cacheSalt := req.info.cacheSalt }
  match cache.matchFullDevicePrefix key with
  | none => (.raised, req)
  | some (matched, nodeId, pinned) =>
    if matched ≠ fullHit ∨ pinned < fullHit then (.kept, req)
    else match cache.collectFullDeviceIndices nodeId with
      | none => (.raised, req)
      | some idx =>
        if (idx.length : ℤ) < fullHit then (.kept, req)
        else
          let seg := (idx.take fullHit.toNat).drop s.toNat
          let rows := pageRows seg cache.pageSize.toNat
          if rows.all (wholePage cache.pageSize.toNat) then
            let plan : Plan Node := {
              s := s
              fullHit := fullHit
              srcPages := rows.map fun row => Int.fdiv (row.headD 0) cache.pageSize
              stock := req.found }
            (.planned plan, { req with
              found := coneMatch req.found nodeId idx s
              plan := some plan })
          else (.kept, req)

/-- `plan_request` -/
def planRequest (st : State) (cache : Cache Node Token) (req : Req Node Token) :
    PlanOutcome Node × Req Node Token :=
  let req := { req with plan := none }
  match st.earlyLayers with
  | none => (.kept, req)
  | some earlyLayers =>
    if !st.active || !st.treePinsOk then (.kept, req)
    else if !eligibleCache cache || !eligibleReq st req then (.kept, req)
    else if st.tokens < minReplayTokens cache.slidingWindowSize earlyLayers cache.pageSize then
      (.kept, req)
    else match req.found.swaBranchingSeqlen with
      | none => (.kept, req)
      | some fullHit =>
        match planWindow req.found.prefixIndices.length (some fullHit) st.tokens st.minSave
            cache.pageSize with
        | none => (.kept, req)
        | some s => planFrom cache req fullHit s

/-- What the hook of `init_next_round_input` does after the stock match: an error disables the
replay. -/
def initNextRoundInput (st : State) (cache : Cache Node Token) (req : Req Node Token) :
    State × Req Node Token :=
  if st.active then
    match planRequest st cache req with
    | (.raised, req) => ({ st with active := false }, { req with plan := none })
    | (_, req) => (st, req)
  else (st, { req with plan := none })

/-! ## The admission -/

/-- `revert` -/
def revert (req : Req Node Token) : Req Node Token :=
  match req.plan with
  | none => req
  | some plan => { req with found := plan.stock, plan := none }

/-- What a selection returns: an `AddReqResult`, or an admission. -/
inductive Selected (Refusal : Type) where
  | refusal (reason : Refusal)
  | admission (extendLen : ℤ) (isChunked : Bool)
deriving DecidableEq

/-- The arguments of a selection: `total_tokens` where it is passed by name, and the others. -/
structure SelectArgs (Other : Type) where
  totalTokens : Option ℤ
  other : Other

variable {Refusal Other Adder : Type}

/-- `guarded_select` -/
def guardedSelect
    (orig : Adder → Req Node Token → SelectArgs Other → Selected Refusal × Adder)
    (adder : Adder) (req : Req Node Token) (args : SelectArgs Other) :
    Selected Refusal × Adder × Req Node Token :=
  let first := orig adder req args
  match req.plan, first.1 with
  | none, _ => (first.1, first.2, req)
  | some _, .refusal _ => (first.1, first.2, req)
  | some plan, .admission extendLen isChunked =>
    if plan.n ≤ extendLen ∧ isChunked = true then (first.1, first.2, req)
    else
      let delta := plan.s - plan.stock.prefixIndices.length
      let req := revert req
      let args := { args with totalTokens := args.totalTokens.map (· + delta) }
      let second := orig first.2 req args
      (second.1, second.2, req)

/-! ## The batch -/

/-- An entry of `ConeBatch`: the row start in the extend, the replay rows, the extend rows of the
request, `s`, and the resident page ids. -/
structure ConeEntry where
  start : ℤ
  n : ℤ
  ext : ℤ
  s : ℤ
  srcPages : List ℤ
deriving DecidableEq

/-- `ConeBatch` -/
structure ConeBatch where
  entries : List ConeEntry
  page : ℤ
deriving DecidableEq

/-- A request of a batch with its `prefix_lens` and its `extend_lens`. -/
structure Extend (Node Token : Type) where
  req : Req Node Token
  pre : ℤ
  ext : ℤ

/-- The loop of `build_cone_batch`, from row `start` on: the entries, and the requests without
their plans. None is the `RuntimeError`. -/
def coneEntries : ℤ → List (Extend Node Token) → Option (List ConeEntry × List (Req Node Token))
  | _, [] => some ([], [])
  | start, x :: batch =>
    match x.req.plan with
    | none => do
      let (entries, reqs) ← coneEntries (start + x.ext) batch
      some (entries, x.req :: reqs)
    | some plan =>
      if x.pre ≠ plan.s ∨ x.ext < plan.n then none
      else do
        let (entries, reqs) ← coneEntries (start + x.ext) batch
        some ({ start := start, n := plan.n, ext := x.ext, s := plan.s, srcPages := plan.srcPages }
          :: entries, { x.req with plan := none } :: reqs)

/-- `build_cone_batch` -/
def buildConeBatch (batch : List (Extend Node Token)) (page : ℤ) :
    Option (Option ConeBatch × List (Req Node Token)) := do
  let (entries, reqs) ← coneEntries 0 batch
  some (if entries.isEmpty then none else some { entries := entries, page := page }, reqs)

end SwaCone
