import SparkTP4.RingPaths

/-!
# The queue pairs of the ring transport

What a rank publishes of itself (`roce_local_blob`), and how it connects its queue pairs with
what the others have published (`connect_qp`, `roce_connect`). An address of a queue pair is the
GID of its device and its number there; the verbs library is taken at its word that no two queue
pairs of the ranks have the same one.

`PathsExact` says what the maps are for. A map that a rank accepts is stored by its proxy, path
for path. And once all ranks have connected, the queue pair on which a rank posts to a peer on a
path is connected to the one on which the peer posts back on this path, and no other queue pair
is connected to either.
-/

namespace RingPaths

/-! ## Connecting -/

/-- `sizeof(roce_blob_t)` -/
def blobBytes : ℕ := 456

/-- `roce_blob_t` -/
structure Blob where
  abiVersion : ℕ
  world : ℕ
  rank : ℕ
  nHca : ℕ
  layoutPaths : ℕ
  oppositePaths : ℕ
  regionAddr : ℕ
  rkey : ℕ → ℕ
  lid : ℕ → ℕ
  gid : ℕ → ℕ
  mtu : ℕ → ℕ
  qpNum : ℕ → ℕ → ℕ
  peerHca : ℕ → ℕ → ℕ

/-- What `open_hca` has found and made, by device; the queue pairs also by peer. -/
structure Devices where
  rkey : ℕ → ℕ
  lid : ℕ → ℕ
  gid : ℕ → ℕ
  mtu : ℕ → ℕ
  qpNum : ℕ → ℕ → ℕ

/-- `peer_path_count[p]` -/
def Ctx.pathCount (c : Ctx) (p : ℕ) : ℕ := c.pathCounts.getD p 0

/-- `peer_hca[p][path]`, as an index. -/
def Ctx.hca (c : Ctx) (p path : ℕ) : ℕ := ((c.peerHca.getD p []).getD path 0).toNat

/-- The blob of a rank. -/
def localBlob (c : Ctx) (d : Devices) : Blob where
  abiVersion := 4
  world := c.world
  rank := c.rank
  nHca := c.nHca
  layoutPaths := 2
  oppositePaths := c.oppositePaths
  regionAddr := c.region
  rkey h := if h < c.nHca then d.rkey h else 0
  lid h := if h < c.nHca then d.lid h else 0
  gid h := if h < c.nHca then d.gid h else 0
  mtu h := if h < c.nHca then d.mtu h else 0
  qpNum h p :=
    if h < c.nHca ∧ p < c.world then if p = c.rank then 0 else d.qpNum h p else 0
  peerHca p path :=
    if p < c.world ∧ p ≠ c.rank ∧ path < c.pathCount p then c.hca p path % 256 else 255

/-- `roce_local_blob`, or `none` for -1. -/
def roceLocalBlob (c : Ctx) (d : Devices) (outLen : ℕ) : Option Blob :=
  if outLen < blobBytes then none else some (localBlob c d)

/-- The attributes that bring a queue pair to RTR. -/
structure QpAttr where
  pathMtu : ℕ
  destQpNum : ℕ
  dlid : ℕ
  dgid : ℕ
  flowLabel : ℕ

/-- The queue pair of the peer, as `remote_hca`, `peer_rkey` and `remote_qp` have it. -/
structure Remote where
  hca : ℕ
  rkey : ℕ
  qp : ℕ

/-- What `roce_connect` leaves behind. -/
structure Links where
  peerAddr : ℕ → ℕ
  remote : ℕ → ℕ → Option Remote
  /-- the attributes of the queue pair of a device for a peer -/
  qp : ℕ → ℕ → Option QpAttr

/-- Before: every queue pair is in INIT. -/
def noLinks : Links := ⟨fun _ => 0, fun _ _ => none, fun _ _ => none⟩

inductive ConnectError where
  | small
  | incompatible (p : ℕ)
  | incomplete (p path : ℕ)
  | verbs (h p : ℕ)

section Connect

variable (c : Ctx) (d : Devices)

/-- The attributes that `connect_qp` sets. -/
def rtrAttr (localH remoteH p : ℕ) (peer : Blob) : QpAttr where
  pathMtu := min (peer.mtu remoteH) (d.mtu localH)
  destQpNum := peer.qpNum remoteH c.rank
  dlid := peer.lid remoteH
  dgid := peer.gid remoteH
  flowLabel := if c.world = 4 ∧ (p + c.world - c.rank) % c.world = 2 then 16383 else 0

-- `ibv_modify_qp` for the queue pair of a device and a peer succeeds, to RTR and to RTS
variable (modifies : ℕ → ℕ → QpAttr → Bool)

/-- One path of `roce_connect`: the check of what the peer has published, and `connect_qp`. -/
def connectPath (p : ℕ) (peer : Blob) (s : Links × ℕ) (path : ℕ) :
    Except ConnectError (Links × ℕ) :=
  let localH := c.hca p path
  let remoteH := peer.peerHca c.rank path
  let attr := rtrAttr c d localH remoteH p peer
  if remoteH ≥ peer.nHca ∨ s.2 &&& 1 <<< remoteH ≠ 0 ∨ peer.regionAddr = 0 ∨
      peer.rkey remoteH = 0 ∨ peer.qpNum remoteH c.rank = 0 then .error (.incomplete p path)
  else if !modifies localH p attr then .error (.verbs localH p)
  else .ok (
    { peerAddr := s.1.peerAddr
      remote := fun q k =>
        if q = p ∧ k = path then
          some ⟨remoteH, peer.rkey remoteH, peer.qpNum remoteH c.rank⟩
        else s.1.remote q k
      qp := fun h q => if h = localH ∧ q = p then some attr else s.1.qp h q },
    s.2 ||| 1 <<< remoteH)

/-- The metadata check. -/
def Compatible (p : ℕ) (peer : Blob) : Prop :=
  peer.abiVersion = 4 ∧ peer.world = c.world ∧ peer.rank = p ∧ peer.layoutPaths = 2 ∧
    peer.oppositePaths = c.oppositePaths ∧ 2 ≤ peer.nHca ∧ peer.nHca ≤ 4

instance (p : ℕ) (peer : Blob) : Decidable (Compatible c p peer) :=
  inferInstanceAs (Decidable (_ ∧ _))

/-- One peer of `roce_connect`. -/
def connectPeer (blobs : List Blob) (s : Links) (p : ℕ) : Except ConnectError Links :=
  match blobs[p]? with
  | none => .error .small
  | some peer =>
    if ¬Compatible c p peer then .error (.incompatible p)
    else if p = c.rank then .ok s
    else Prod.fst <$> (List.range (c.pathCount p)).foldlM (connectPath c d modifies p peer)
      ({ s with peerAddr := Function.update s.peerAddr p peer.regionAddr }, 0)

/-- `roce_connect` -/
def roceConnect (blobs : List Blob) : Except ConnectError Links :=
  if blobs.length * blobBytes < blobBytes * c.world then .error .small
  else (List.range c.world).foldlM (connectPeer c d modifies blobs) noLinks

end Connect

/-! ## The ranks -/

/-- What a rank is set up with. -/
structure Node where
  env : Env
  hcaNames : List String
  region : ℕ
  slotBytes : ℕ
  machine : Machine
  devices : Devices
  modifies : ℕ → ℕ → QpAttr → Bool

inductive SetupError where
  | python (e : PyError)
  | create (e : CreateError)

/-- The arguments that Python passes to `roce_create`. -/
def Node.args (n : Node) (world rank opposite : ℕ) (layout : Layout) (flattened : List ℤ) : Args where
  world := world
  rank := rank
  hcaNames := n.hcaNames
  region := n.region
  regionBytes := layout.totalBytes
  slotBytes := n.slotBytes
  oppositePaths := opposite
  peerHcaMap := hcaBytes flattened

/-- A rank as `roce_oneshot.py` sets it up, until its proxy is created. -/
def Node.start (py : Py) (world rank : ℕ) (n : Node) : Except SetupError Ctx := do
  let selected ← (selectPaths py n.env world rank n.hcaNames).mapError .python
  match roceLayout world n.slotBytes with
  | none => .error (.python .geometry)
  | some layout =>
    let flattened ← (flattenPeerHcaMap world rank selected.1 selected.2).mapError .python
    (roceCreate n.machine n.env (n.args world rank selected.1 layout flattened)).mapError .create

/-- A queue pair: the one of a device of a rank for a peer. -/
structure Qp where
  rank : ℕ
  hca : ℕ
  peer : ℕ
deriving DecidableEq

/-- The queue pair on which `post_path` posts the stripe and the flag of a path. -/
def Ctx.postQp (c : Ctx) (peer path : ℕ) : Qp := ⟨c.rank, c.hca peer path, peer⟩

/-- All ranks at the end of their setup. -/
structure Ring where
  world : ℕ
  node : ℕ → Node
  ctx : ℕ → Ctx
  blobs : List Blob
  links : ℕ → Links

namespace Ring

variable (g : Ring)

/-- The queue pairs of the ranks. -/
def Made (q : Qp) : Prop :=
  q.rank < g.world ∧ q.hca < (g.ctx q.rank).nHca ∧ q.peer < g.world ∧ q.peer ≠ q.rank

/-- The GID and the number of a queue pair. -/
def address (q : Qp) : ℕ × ℕ :=
  ((g.node q.rank).devices.gid q.hca, (g.node q.rank).devices.qpNum q.hca q.peer)

/-- `q` has been given the address of `q'`. -/
def ConnectedTo (q q' : Qp) : Prop :=
  ∃ attr, (g.links q.rank).qp q.hca q.peer = some attr ∧ (attr.dgid, attr.destQpNum) = g.address q'

/-- Every rank has set up its proxy, published itself and connected to what all have published. -/
structure SetUp (py : Py) : Prop where
  started : ∀ r < g.world, (g.node r).start py g.world r = .ok (g.ctx r)
  published : (List.range g.world).mapM (fun r =>
    roceLocalBlob (g.ctx r) (g.node r).devices blobBytes) = some g.blobs
  connected : ∀ r < g.world,
    roceConnect (g.ctx r) (g.node r).devices (g.node r).modifies g.blobs = .ok (g.links r)
  /-- no two queue pairs have the same address -/
  distinct : ∀ q q', g.Made q → g.Made q' → g.address q = g.address q' → q = q'

/-- A path of rank `r` to rank `p`. -/
structure Active (r p k : ℕ) : Prop where
  rank : r < g.world
  peer : p < g.world
  other : p ≠ r
  path : k < (g.ctx r).pathCount p

/-- The two ends of a path have each other, and nobody else has either. -/
structure Paired (r p k : ℕ) : Prop where
  back : g.Active p r k
  made : g.Made ((g.ctx r).postQp p k)
  outgoing : ∀ q, g.Made q →
    (g.ConnectedTo ((g.ctx r).postQp p k) q ↔ q = (g.ctx p).postQp r k)
  incoming : ∀ q, g.Made q →
    (g.ConnectedTo q ((g.ctx p).postQp r k) ↔ q = (g.ctx r).postQp p k)
  /-- what the rank knows of the other end, with the key of the device it is on -/
  remote : (g.links r).remote p k = some ⟨(g.ctx p).hca r k,
    (g.node p).devices.rkey ((g.ctx p).hca r k),
    (g.node p).devices.qpNum ((g.ctx p).hca r k) r⟩

end Ring

/-- The proxy has this map, with `-1` for the paths that are not active. -/
structure Ctx.Stores (c : Ctx) (mapping : List (List ℤ)) : Prop where
  peerHca : c.peerHca = mapping.map fun paths => paths ++ List.replicate (4 - paths.length) (-1)
  pathCount : ∀ p < mapping.length,
    c.pathCount p = if p = c.rank then 0 else (mapping.getD p []).length

/-- **Path maps**, for any reading of texts. -/
structure PathsExact (py : Py) : Prop where
  /-- A map that Python accepts is flattened, and `roce_create` refuses it for no reason of its
  own: it can only be out of memory, without a device, or find an unreadable threshold. -/
  admitted : ∀ (n : Node) (world rank opposite : ℕ) (mapping : List (List ℤ)) (layout : Layout),
    Unset n.env.waveMode → n.hcaNames.length ≤ 4 → rank < world →
    roceLayout world n.slotBytes = some layout →
    selectPaths py n.env world rank n.hcaNames = .ok (opposite, mapping) →
    ∃ flattened, flattenPeerHcaMap world rank opposite mapping = .ok flattened ∧
      ∀ e, roceCreate n.machine n.env (n.args world rank opposite layout flattened) = .error e →
        e = .memory ∨ e = .threshold ∨ ∃ h, e = .device h
  /-- A proxy that is created has the map that Python has accepted. -/
  stored : ∀ (n : Node) (world rank opposite : ℕ) (mapping : List (List ℤ)) (c : Ctx),
    rank < world → selectPaths py n.env world rank n.hcaNames = .ok (opposite, mapping) →
    n.start py world rank = .ok c → c.Stores mapping
  /-- After all have connected, every path is paired with the same path of its peer. -/
  paired : ∀ g : Ring, g.SetUp py → ∀ r p k, g.Active r p k → g.Paired r p k

end RingPaths
