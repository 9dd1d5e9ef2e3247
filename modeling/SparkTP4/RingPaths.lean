import Mathlib.Data.Finset.Dedup
import Mathlib.Data.Finset.Range
import Mathlib.Data.Finset.SDiff
import Mathlib.Data.Int.Notation
import Mathlib.Data.List.Dedup
import SparkTP4.RoceLayout

/-!
# The paths between the ranks of the ring transport

Each rank has some RDMA devices and sends to every other rank on two paths – on two or four to
the opposite one of four ranks –, each on a device of its own. Which ones is a *map*: for every
rank a tuple of device numbers, read from the environment (`_path_config.py`), written as four
bytes a rank (`_proxy.py`) and checked again and stored by the proxy (`roce_create` of
`_roce_proxy.c`). Every device has a queue pair for every other rank. The ranks publish their
maps and queue pair numbers (`roce_local_blob`), and `roce_connect` gives the queue pair of a
path the address of its other end.

A text is its characters. What Python reads as white space and as a number is a parameter, and
so are the answers of the machine: memory, `strtoull`, the devices, and `ibv_modify_qp`.
-/

namespace RingPaths

open RoceLayout (mulOverflow addOverflow)

abbrev Text := List Char

/-- The texts of the environment, `none` where a variable is not set. -/
structure Env where
  /-- `B12X_ROCE_OPPOSITE_PATHS` -/
  oppositePaths : Option Text := none
  /-- `B12X_ROCE_PEER_HCA_MAP` -/
  peerHcaMap : Option Text := none
  /-- `B12X_ROCE_PEER_HCA_MAPS` -/
  peerHcaMaps : Option Text := none
  /-- `B12X_ROCE_WAVE_MODE` -/
  waveMode : Option Text := none
  /-- `B12X_ROCE_TWO_WAVE_THRESHOLD_BYTES` -/
  twoWaveThreshold : Option Text := none

/-- A variable that is not set, or empty. -/
def Unset (text : Option Text) : Prop := text.getD [] = []

instance (text : Option Text) : Decidable (Unset text) := inferInstanceAs (Decidable (_ = _))

/-- How Python reads texts. -/
structure Py where
  /-- what `str.strip` removes -/
  space : Char → Bool
  /-- `int(text)`, `none` for a `ValueError` -/
  int : Text → Option ℤ

/-- `text.strip()` -/
def Py.strip (py : Py) (text : Text) : Text :=
  ((text.dropWhile py.space).reverse.dropWhile py.space).reverse

/-- `os.getenv(name, "").strip()` -/
def Py.getenv (py : Py) (text : Option Text) : Text := py.strip (text.getD [])

/-- `text.split("=", 1)` in two parts, or `none`. -/
def splitOnce (text : Text) : Option (Text × Text) :=
  let key := text.takeWhile (· ≠ '=')
  match text.dropWhile (· ≠ '=') with
  | [] => none
  | _ :: value => some (key, value)

/-! ## The map from the environment -/

inductive PyError where
  /-- not 2 or 4 -/
  | oppositePaths
  /-- 4 without four ranks and four devices -/
  | fourPaths
  | fewHcas (hcaCount : ℕ)
  | maps (count : ℕ)
  | required
  | entry (item : Text)
  | notRank (peer : ℤ)
  | repeats (peer : ℤ)
  | hcas (peer : ℤ)
  | unmapped
  | canonical
  /-- `_flatten_peer_hca_map` -/
  | mapLength
  | sentinels
  | pathCount (peer : ℕ)
  | manyPaths
  /-- `Layout` -/
  | geometry
deriving DecidableEq

/-- `CANONICAL_TP4_HCAS` -/
def canonicalHcas : List String := ["rocep1s0f0", "rocep1s0f1", "roceP2p1s0f0", "roceP2p1s0f1"]

/-- `CANONICAL_TP4_FOUR_PATH_MAP` -/
def canonicalMap : List (List (List ℤ)) :=
  [[[-1, -1], [0, 2], [0, 3, 2, 1], [1, 3]],
    [[1, 3], [-1, -1], [0, 2], [0, 3, 2, 1]],
    [[1, 2, 3, 0], [1, 3], [-1, -1], [0, 2]],
    [[0, 2], [1, 2, 3, 0], [1, 3], [-1, -1]]]

section Config

variable (py : Py) (env : Env) (worldSize rank hcaCount oppositePaths : ℕ)

/-- `opposite_path_count` -/
def oppositePathCount : Except PyError ℕ :=
  let raw := py.getenv env.oppositePaths
  if raw = [] then .ok 2
  else
    match py.int raw with
    | none => .error .oppositePaths
    | some count =>
      if count ≠ 2 ∧ count ≠ 4 then .error .oppositePaths
      else if count = 4 ∧ (worldSize ≠ 4 ∨ hcaCount ≠ 4) then .error .fourPaths
      else .ok count.toNat

/-- `peer_path_count`, and `_peer_path_count` of the proxy's module. -/
def peerPathCount (peer : ℤ) : ℕ :=
  if peer = rank then 0
  else if worldSize = 4 ∧ (peer - rank) % worldSize = 2 then oppositePaths
  else 2

/-- The numbers of an entry, `none` for a `ValueError`. -/
def parseItem (item : Text) : Option (ℤ × List ℤ) := do
  let (peerText, pathsText) ← splitOnce item
  let pathText := pathsText.splitOn '/'
  let peer ← py.int peerText
  if pathText.length = peerPathCount worldSize rank oppositePaths peer then
    let paths ← pathText.mapM py.int
    some (peer, paths)
  else none

/-- One entry of the map, added to `parsed`. -/
def addEntry (parsed : List (ℤ × List ℤ)) (entry : Text) : Except PyError (List (ℤ × List ℤ)) :=
  let item := py.strip entry
  match parseItem py worldSize rank oppositePaths item with
  | none => .error (.entry item)
  | some (peer, paths) =>
    if peer < 0 ∨ peer ≥ worldSize ∨ peer = rank then .error (.notRank peer)
    else if peer ∈ parsed.map Prod.fst then .error (.repeats peer)
    else if paths.dedup.length ≠ paths.length ∨ ∃ hca ∈ paths, hca < 0 ∨ hca ≥ hcaCount then
      .error (.hcas peer)
    else .ok (parsed ++ [(peer, paths)])

/-- The text of the map of this rank. -/
def rawMap : Except PyError Text :=
  let raw := py.getenv env.peerHcaMap
  let perRank := py.getenv env.peerHcaMaps
  if raw = [] ∧ perRank ≠ [] then
    let maps := (perRank.splitOn ';').map py.strip
    if maps.length ≠ worldSize then .error (.maps maps.length) else .ok (maps.getD rank [])
  else .ok raw

/-- `set(range(world_size)) - {rank}` -/
def expectedPeers : Finset ℤ := ((List.range worldSize).map Int.ofNat).toFinset \ {(rank : ℤ)}

/-- `peer_hca_map` -/
def peerHcaMap : Except PyError (List (List ℤ)) :=
  if hcaCount < 2 then .error (.fewHcas hcaCount)
  else do
    let raw ← rawMap py env worldSize rank
    if raw = [] then
      if hcaCount = 2 then
        .ok ((List.range worldSize).map fun peer => if peer = rank then [-1, -1] else [0, 1])
      else .error .required
    else
      let parsed ← (raw.splitOn ',').foldlM (addEntry py worldSize rank hcaCount oppositePaths) []
      if (parsed.map Prod.fst).toFinset ≠ expectedPeers worldSize rank then .error .unmapped
      else
        .ok ((List.range worldSize).map fun (peer : ℕ) =>
          if peer = rank then [-1, -1]
          else ((parsed.find? fun e => e.1 = (peer : ℤ)).map Prod.snd).getD [])

variable (hcaNames : List String)

/-- `validate_four_path_tp4_mapping` -/
def validateFourPathTp4Mapping (mapping : List (List ℤ)) : Except PyError Unit :=
  if oppositePaths ≠ 4 then .ok ()
  else if worldSize ≠ 4 ∨ hcaNames ≠ canonicalHcas ∨ mapping ≠ canonicalMap.getD rank [] then
    .error .canonical
  else .ok ()

/-- The path count and the map that the runtime selects (`roce_oneshot.py`). -/
def selectPaths : Except PyError (ℕ × List (List ℤ)) := do
  let opposite ← oppositePathCount py env worldSize hcaNames.length
  let mapping ← peerHcaMap py env worldSize rank hcaNames.length opposite
  validateFourPathTp4Mapping worldSize rank opposite hcaNames mapping
  .ok (opposite, mapping)

/-- The four numbers of one entry. -/
def flattenEntry (entry : List ℤ × ℕ) : Except PyError (List ℤ) :=
  let values := entry.1.map fun hca => if hca < 0 then 255 else hca
  if entry.2 = rank ∧ ∃ hca ∈ entry.1, 0 ≤ hca then .error .sentinels
  else if entry.2 ≠ rank ∧
      entry.1.length ≠ peerPathCount worldSize rank oppositePaths entry.2 then
    .error (.pathCount entry.2)
  else if values.length > 4 then .error .manyPaths
  else .ok (values ++ List.replicate (4 - values.length) 255)

/-- `_flatten_peer_hca_map` -/
def flattenPeerHcaMap (mapping : List (List ℤ)) : Except PyError (List ℤ) :=
  if oppositePaths ≠ 2 ∧ oppositePaths ≠ 4 then .error .oppositePaths
  else if mapping.length ≠ worldSize then .error .mapLength
  else List.flatten <$> mapping.zipIdx.mapM (flattenEntry worldSize rank oppositePaths)

end Config

/-- `(ctypes.c_uint8 * len(flattened))(*flattened)` -/
def hcaBytes (flattened : List ℤ) : List ℕ := flattened.map fun v => (v % 256).toNat

/-! ## The proxy's context -/

/-- What `roce_layout` returns. -/
structure Layout where
  recvOff : ℕ
  flagOff : ℕ
  sendOff : ℕ
  ctrlOff : ℕ
  totalBytes : ℕ
  flagStride : ℕ
  slots : ℕ
  paths : ℕ
deriving DecidableEq

/-- `roce_layout`, or `none` for -1. -/
def roceLayout (world slotBytes : ℕ) : Option Layout :=
  if world < 2 ∨ world > 16 ∨ slotBytes = 0 ∨ slotBytes % 4096 ≠ 0 then none
  else if slotBytes > 2 ^ 40 then none
  else do
    let recvBytes ← mulOverflow (world * 2) slotBytes
    let sendBytes ← mulOverflow 2 slotBytes
    let flagBytes ← mulOverflow (world * 2 * 2) 128
    let sendOff ← addOverflow recvBytes flagBytes
    let ctrlOff ← addOverflow sendOff sendBytes
    let total ← addOverflow ctrlOff 128
    some ⟨0, recvBytes, sendOff, ctrlOff, total, 128, 2, 2⟩

inductive WaveMode where
  | two
  | mixedTwo
  | oppositeFirst
  | strictThree
  | balanced32
deriving DecidableEq

inductive CreateError where
  | geometry
  | memory
  | waveMode
  | threshold
  /-- a path to `p` without a device of its own -/
  | hcas (p : ℕ)
  | inactive (p path : ℕ)
  | canonical
  /-- several direct or opposite paths -/
  | multiple (h : ℕ)
  | lacks (h : ℕ)
  | device (h : ℕ)
deriving DecidableEq

/-- What `strtoull` returns: the value, whether it sets `errno`, and where it stops. -/
structure Strtoull where
  value : ℕ
  errno : Bool
  stop : ℕ

/-- The answers of the machine to `roce_create`. -/
structure Machine where
  /-- `calloc` returns memory -/
  calloc : Bool
  strtoull : Text → Strtoull
  /-- `open_hca` succeeds -/
  opens : ℕ → String → Bool

/-- The arguments of `roce_create`. -/
structure Args where
  world : ℕ
  rank : ℕ
  hcaNames : List String
  region : ℕ
  regionBytes : ℕ
  slotBytes : ℕ
  oppositePaths : ℕ
  peerHcaMap : List ℕ

/-- The paths of four-path mode by device: `direct_peer_by_hca` and so on. -/
structure Tables where
  directPeer : List ℤ
  directPath : List ℤ
  oppositePeer : List ℤ
  oppositePath : List ℤ
deriving DecidableEq

/-- `roce_ctx_t`, as `roce_create` returns it. -/
structure Ctx where
  world : ℕ
  rank : ℕ
  nHca : ℕ
  region : ℕ
  regionBytes : ℕ
  slotBytes : ℕ
  layout : Layout
  oppositePaths : ℕ
  waveMode : WaveMode
  twoWaveThresholdBytes : ℕ
  peerHca : List (List ℤ)
  pathCounts : List ℕ
  tables : Tables

section Create

variable (m : Machine) (env : Env) (a : Args)

/-- `n_hca` -/
def Args.nHca : ℕ := a.hcaNames.length

/-- The geometry check, with the layout. -/
def checkGeometry : Except CreateError Layout :=
  match roceLayout a.world a.slotBytes with
  | none => .error .geometry
  | some layout =>
    if layout.totalBytes > a.regionBytes ∨ a.rank ≥ a.world ∨ a.nHca < 2 ∨ a.nHca > 4 ∨
        (a.oppositePaths ≠ 2 ∧ a.oppositePaths ≠ 4) ∨
        (a.oppositePaths = 4 ∧ (a.world ≠ 4 ∨ a.nHca ≠ 4)) ∨
        a.peerHcaMap.length ≠ a.world * 4 then .error .geometry
    else .ok layout

/-- The wave mode. -/
def readWaveMode : Except CreateError WaveMode :=
  let text := env.waveMode.getD []
  if text = [] then .ok (if a.oppositePaths = 4 then .balanced32 else .two)
  else if a.oppositePaths = 4 then
    if text = "balanced32".toList then .ok .balanced32 else .error .waveMode
  else if text = "two".toList then .ok .two
  else if text = "mixed2".toList then .ok .mixedTwo
  else if text = "opposite_first".toList then .ok .oppositeFirst
  else if text = "strict3".toList then .ok .strictThree
  else .error .waveMode

/-- The threshold of the two-wave schedule. -/
def readThreshold : Except CreateError ℕ :=
  let text := env.twoWaveThreshold.getD []
  if text = [] then .ok 131072
  else
    let r := m.strtoull text
    if r.errno ∨ r.stop = 0 ∨ r.stop ≠ text.length ∨ r.value > 2 ^ 32 - 1 ∨
        (r.value ≠ 0 ∧ r.value % 16 ≠ 0) then .error .threshold
    else .ok r.value

/-- `peer_path_count[p]` of another rank. -/
def pathCount (p : ℕ) : ℕ :=
  if a.world = 4 ∧ (p + a.world - a.rank) % a.world = 2 then a.oppositePaths else 2

/-- A byte of the map. -/
def mapByte (p path : ℕ) : ℕ := a.peerHcaMap.getD (p * 4 + path) 0

/-- The devices of the active paths to `p`, each seen once. -/
def readPaths (p : ℕ) : List ℕ → ℕ → Except CreateError (List ℤ)
  | [], _ => .ok []
  | h :: hs, seenHcas =>
    if h ≥ a.nHca ∨ seenHcas &&& 1 <<< h ≠ 0 then .error (.hcas p)
    else do
      let rest ← readPaths p hs (seenHcas ||| 1 <<< h)
      .ok ((h : ℤ) :: rest)

/-- `peer_hca[p]` -/
def storePeer (p : ℕ) : Except CreateError (List ℤ) :=
  if p = a.rank then .ok (List.replicate 4 (-1))
  else do
    let count := pathCount a p
    let hcas ← readPaths a p ((List.range count).map (mapByte a p)) 0
    match (List.range' count (4 - count)).find? fun path => mapByte a p path ≠ 255 with
    | some path => .error (.inactive p path)
    | none => .ok (hcas ++ List.replicate (4 - count) (-1))

/-- The loop over the peers. -/
def storePeers : Except CreateError (List (List ℤ)) := (List.range a.world).mapM (storePeer a)

/-- `peer_path_count` -/
def pathCounts : List ℕ :=
  (List.range a.world).map fun p => if p = a.rank then 0 else pathCount a p

/-- `canonical` -/
def isCanonical (peerHca : List (List ℤ)) : Bool :=
  a.world = 4 && a.nHca = 4 && a.hcaNames = canonicalHcas &&
    (List.range a.world).all fun p => (List.range 4).all fun path =>
      (peerHca.getD p []).getD path 0 =
        if path < (pathCounts a).getD p 0 then
          ((canonicalMap.getD a.rank []).getD p []).getD path (-1)
        else -1

/-- One path entered in the tables of its device. -/
def placePath (peerHca : List (List ℤ)) (p : ℕ) (t : Tables) (path : ℕ) :
    Except CreateError Tables :=
  let h := ((peerHca.getD p []).getD path 0).toNat
  if p = (a.rank + 2) % a.world then
    if t.oppositePeer.getD h 0 ≠ -1 then .error (.multiple h)
    else .ok { t with oppositePeer := t.oppositePeer.set h p, oppositePath := t.oppositePath.set h path }
  else
    if t.directPeer.getD h 0 ≠ -1 then .error (.multiple h)
    else .ok { t with directPeer := t.directPeer.set h p, directPath := t.directPath.set h path }

/-- Tables without an entry. -/
def noTables : Tables :=
  ⟨List.replicate 4 (-1), List.replicate 4 (-1), List.replicate 4 (-1), List.replicate 4 (-1)⟩

/-- The tables of four-path mode. -/
def fillTables (peerHca : List (List ℤ)) : Except CreateError Tables :=
  if a.oppositePaths = 4 then do
    let t ← (List.range a.world).foldlM (fun t p =>
      (List.range ((pathCounts a).getD p 0)).foldlM (placePath a peerHca p) t) noTables
    match (List.range a.nHca).find? fun h =>
        t.directPeer.getD h 0 < 0 || t.oppositePeer.getD h 0 < 0 with
    | some h => .error (.lacks h)
    | none => .ok t
  else .ok noTables

/-- The check of the schedules that need the canonical map. -/
def checkCanonical (waveMode : WaveMode) (peerHca : List (List ℤ)) : Except CreateError Unit :=
  if (a.oppositePaths = 4 ∨ waveMode ≠ .two) ∧ isCanonical a peerHca = false then
    .error .canonical
  else .ok ()

/-- The loop over `open_hca`. -/
def openHcas : Except CreateError Unit :=
  match a.hcaNames.zipIdx.find? fun name => !m.opens name.2 name.1 with
  | some name => .error (.device name.2)
  | none => .ok ()

/-- `roce_create` -/
def roceCreate : Except CreateError Ctx := do
  let layout ← checkGeometry a
  if m.calloc then
    let waveMode ← readWaveMode env a
    let threshold ← readThreshold m env
    let peerHca ← storePeers a
    checkCanonical a waveMode peerHca
    let tables ← fillTables a peerHca
    openHcas m a
    .ok ⟨a.world, a.rank, a.nHca, a.region, a.regionBytes, a.slotBytes, layout, a.oppositePaths,
      waveMode, threshold, peerHca, pathCounts a, tables⟩
  else .error .memory

end Create

end RingPaths
