import SparkTP4.RingArrivals
import SparkTP4.RingPathsExact
import SparkTP4.Striping

/-!
# The posts of the ring transport

What the proxy does for one operation (`post_op` of `_roce_proxy.c`). The payload is split into a
stripe for each path to a peer; a stripe is written to the slot of the sender at the receiver,
and a flag after it on the same queue pair. Five schedules order these posts. Without a threshold,
or below it, the ranks are served in turn. Above it, four ranks with four devices post in two or
three *waves*, and a wave is posted only when the writes of the one before have completed. With
four paths to the opposite rank there are no waves, and the first device changes from one
operation to the next.

A schedule is the list of what the proxy does in its order. A failure ends the proxy, so nothing
that stands after it is done. Words are natural numbers here, the payload is far below `2^32`
bytes.

`PostsExact` is what all schedules have in common: there is no failure in them, every path to
every peer is posted once, with the stripe that belongs to it, and what is waited for has been
posted.
-/

namespace RingPosts

open RingPaths Striping

/-! ## The schedules -/

/-- What the proxy does next. -/
inductive Act where
  /-- `post_path` -/
  | post (peer path offset bytes : ℕ)
  /-- `drain_path` -/
  | drainPath (peer path : ℕ)
  /-- `drain_peer_paths` -/
  | drainPeer (peer : ℕ)
  /-- the error return -/
  | fail
deriving DecidableEq

/-- `ROCE_MAX_PATHS`, and `ROCE_MAX_HCAS` -/
def maxPaths : ℕ := 4

/-- `ROCE_LAYOUT_PATHS` -/
def layoutPaths : ℕ := 2

/-- The packs of a path in `split_stripes`. -/
def pathPacks (nbytes count path : ℕ) : ℕ :=
  if path < count then
    nbytes / 16 / count + if path < nbytes / 16 % count then 1 else 0
  else 0

/-- Offsets and bytes by path. -/
structure Stripes where
  offset : ℕ → ℕ
  bytes : ℕ → ℕ

/-- The offset that the loop of `split_stripes` has reached. -/
def stripeOffset (nbytes count : ℕ) : ℕ → ℕ
  | 0 => 0
  | path + 1 => stripeOffset nbytes count path + pathPacks nbytes count path * 16

/-- `split_stripes` -/
def splitStripes (nbytes count : ℕ) : Stripes where
  offset := stripeOffset nbytes count
  bytes path := pathPacks nbytes count path * 16

section Schedules

variable (c : Ctx) (seq nbytes : ℕ) (s : Stripes)

/-- The other ranks, in their order. -/
def otherRanks : List ℕ := (List.range c.world).filter (· ≠ c.rank)

/-- A path with its stripe. -/
def postPath (e : ℕ × ℕ) : Act := .post e.1 e.2 (s.offset e.2) (s.bytes e.2)

/-- The paths to a peer. -/
def peerPaths (peer : ℕ) : List (ℕ × ℕ) := (List.range (c.pathCount peer)).map (peer, ·)

/-- `post_peer` -/
def postPeer (peer : ℕ) : List Act := (peerPaths c peer).map (postPath s)

/-- The bits of a mask: peers in their order without the rank itself, two paths each. -/
def maskBits : List (ℕ × ℕ) :=
  (otherRanks c).flatMap fun peer => (List.range layoutPaths).map (peer, ·)

/-- The paths of a mask. -/
def masked (mask : ℕ) : List (ℕ × ℕ) :=
  ((maskBits c).zipIdx.filter fun e => mask.testBit e.2).map Prod.fst

/-- A wave: its posts, and the wait for each of them. -/
def wave (mask : ℕ) : List Act :=
  (masked c mask).map (postPath s) ++ (masked c mask).map fun e => .drainPath e.1 e.2

/-- The masks of `mixed_two_wave`, by rank. -/
def mixedMasks : List (List ℕ) := [[0x0b, 0x34], [0x2c, 0x13], [0x31, 0x0e], [0x07, 0x38]]

/-- The masks of `strict_three_wave`, by rank. -/
def strictMasks : List (List ℕ) :=
  [[0x33, 0x04, 0x08], [0x0f, 0x20, 0x10], [0x3c, 0x01, 0x02], [0x33, 0x08, 0x04]]

/-- `mixed_two_wave` -/
def mixedTwoWave : List Act := (mixedMasks.getD c.rank []).flatMap (wave c s)

/-- `strict_three_wave` -/
def strictThreeWave : List Act := (strictMasks.getD c.rank []).flatMap (wave c s)

/-- `distance` -/
def distance (peer : ℕ) : ℕ := (peer + c.world - c.rank) % c.world

/-- The two neighbours. -/
def directRanks : List ℕ :=
  (List.range c.world).filter fun peer => distance c peer = 1 ∨ distance c peer = 3

/-- `opposite` -/
def opposite : ℕ := (c.rank + 2) % c.world

/-- The schedule `opposite_first`. -/
def oppositeFirst : List Act :=
  postPeer c s (opposite c) ++ [.drainPeer (opposite c)] ++ (directRanks c).flatMap (postPeer c s)

/-- The schedule `two`. -/
def directFirst : List Act :=
  (directRanks c).flatMap (postPeer c s) ++ (directRanks c).map .drainPeer ++
    postPeer c s (opposite c)

/-- The path of a device in the tables, if it is on this device. -/
def tablePath (t : Tables) (peerHca : List (List ℤ)) (postDirect : Bool) (h : ℕ) : Option (ℕ × ℕ) :=
  let peer := (if postDirect then t.directPeer else t.oppositePeer).getD h (-1)
  let path := (if postDirect then t.directPath else t.oppositePath).getD h (-1)
  if peer < 0 ∨ path < 0 ∨ (peerHca.getD peer.toNat []).getD path.toNat (-1) ≠ h then none
  else some (peer.toNat, path.toNat)

/-- One device of `balanced32_post`. -/
def balancedStep (half quarter : Stripes) (e : Bool × ℕ) : Act :=
  match tablePath c.tables c.peerHca e.1 e.2 with
  | none => .fail
  | some path => postPath (if e.1 then half else quarter) path

/-- The two rounds of `balanced32_post` over the devices. -/
def balancedOrder (rank seq : ℕ) : List (Bool × ℕ) :=
  let startHca := (rank + seq % 4) % maxPaths
  let directFirst : Bool := seq % 2 = 0
  [directFirst, !directFirst].flatMap fun postDirect =>
    (List.range maxPaths).map fun ordinal => (postDirect, (startHca + ordinal) % maxPaths)

/-- `balanced32_post` -/
def balanced32Post (half quarter : Stripes) : List Act :=
  (balancedOrder c.rank seq).map (balancedStep c half quarter)

/-- `two_wave` -/
def TwoWave : Prop :=
  c.world = 4 ∧ c.nHca = 4 ∧ c.twoWaveThresholdBytes ≠ 0 ∧ c.twoWaveThresholdBytes ≤ nbytes

instance decidableTwoWave : Decidable (TwoWave c nbytes) := inferInstanceAs (Decidable (_ ∧ _))

/-- The schedule of the waves. -/
def waveSchedule : WaveMode → List Act
  | .mixedTwo => mixedTwoWave c s
  | .strictThree => strictThreeWave c s
  | .oppositeFirst => oppositeFirst c s
  | .two | .balanced32 => directFirst c s

/-- `post_op` -/
def postOp : List Act :=
  if nbytes = 0 ∨ nbytes > c.slotBytes ∨ nbytes % 16 ≠ 0 then [.fail]
  else
    let half := splitStripes nbytes layoutPaths
    let quarter := splitStripes nbytes maxPaths
    if c.oppositePaths = maxPaths then balanced32Post c seq half quarter
    else if TwoWave c nbytes then waveSchedule c half c.waveMode
    else (otherRanks c).flatMap (postPeer c half)

end Schedules

/-! ## The addresses -/

/-- Where the flag of a path is written at the receiver, from its first flag on. -/
def flagAddress (rank peer path slot : ℕ) : ℕ :=
  let row := if path < layoutPaths then rank else peer
  let column := if path < layoutPaths then path else path - layoutPaths
  ((row * 2 + slot) * layoutPaths + column) * 128

/-- Where the kernel of a rank waits for the flag of a path from a peer. -/
def waitAddress (rank peer path slot : ℕ) : ℕ :=
  let row := if path < layoutPaths then peer else rank
  let column := if path < layoutPaths then path else path - layoutPaths
  ((row * 2 + slot) * layoutPaths + column) * 128

/-! ## What a schedule is for -/

/-- The path of a post. -/
def Act.path? : Act → Option (ℕ × ℕ)
  | .post peer path _ _ => some (peer, path)
  | _ => none

/-- The paths that are posted. -/
def posted (acts : List Act) : List (ℕ × ℕ) := acts.filterMap Act.path?

/-- The paths to all other ranks. -/
def activePaths (c : Ctx) : List (ℕ × ℕ) := (otherRanks c).flatMap (peerPaths c)

/-- What one step makes of the paths whose writes have not been waited for. -/
def Act.pending (paths : List (ℕ × ℕ)) : Act → List (ℕ × ℕ)
  | .post peer path _ _ => (peer, path) :: paths
  | .drainPath peer path => paths.filter (· ≠ (peer, path))
  | .drainPeer peer => paths.filter (·.1 ≠ peer)
  | .fail => paths

/-- The paths that have been posted and not waited for since. -/
def pending (acts : List Act) : List (ℕ × ℕ) := acts.foldl Act.pending []

/-- The waves of a wave mode. -/
def waves (c : Ctx) : WaveMode → List (List (ℕ × ℕ))
  | .mixedTwo => (mixedMasks.getD c.rank []).map (masked c)
  | .strictThree => (strictMasks.getD c.rank []).map (masked c)
  | .oppositeFirst => [peerPaths c (opposite c), (directRanks c).flatMap (peerPaths c)]
  | .two | .balanced32 => [(directRanks c).flatMap (peerPaths c), peerPaths c (opposite c)]

/-- **The post of one operation**: what a schedule does for a payload. -/
structure PostsExact (c : Ctx) (nbytes : ℕ) (acts : List Act) : Prop where
  /-- nothing fails for a reason of its own -/
  no_fail : .fail ∉ acts
  /-- every path to every peer is posted once -/
  once : (posted acts).Perm (activePaths c)
  /-- a path is posted with its share of the packs, as many shares as there are paths to the peer -/
  stripe : ∀ peer path offset bytes, .post peer path offset bytes ∈ acts →
    offset = packOffset (nbytes / 16) (c.pathCount peer) path * 16 ∧
      bytes = stripePacks (nbytes / 16) (c.pathCount peer) path * 16
  /-- every byte of the payload goes to a peer on one path -/
  tile : ∀ peer < c.world, peer ≠ c.rank → ∀ i < nbytes, ∃! path, ∃ offset bytes,
    .post peer path offset bytes ∈ acts ∧ offset ≤ i ∧ i < offset + bytes
  /-- in the schedules with waves, what has not been waited for is of one wave -/
  waves : c.oppositePaths ≠ maxPaths → TwoWave c nbytes → ∀ before after, acts = before ++ after →
    ∃ wave ∈ waves c c.waveMode, pending before ⊆ wave

/-- The kernel of a rank, as its waits see it. -/
def kernelSetting (c : Ctx) (threads : ℕ) (hpos : 0 < threads) : RingArrivals.Setting where
  world := c.world
  rank := c.rank
  threads := threads
  oppositePaths := c.oppositePaths
  threads_pos := hpos

/-- The flags that the threads of a block wait for. -/
def Waited (c : Ctx) (threads : ℕ) (hpos : 0 < threads) (e : ℕ × ℕ) : Prop :=
  ∃ t < threads, e ∈ (kernelSetting c threads hpos).waits t

/-- **The posts between the ranks** that have been set up. -/
structure RingExact (g : Ring) (slotBytes : ℕ) : Prop where
  /-- every operation is posted as it should be, whatever its sequence number -/
  posts : ∀ r < g.world, ∀ seq nbytes, nbytes ≠ 0 → nbytes ≤ slotBytes → nbytes % 16 = 0 →
    PostsExact (g.ctx r) nbytes (postOp (g.ctx r) seq nbytes)
  /-- no two senders or paths or slots share a flag -/
  flags : ∀ q p k slot p' k' slot', g.Active p q k → g.Active p' q k' → slot < 2 → slot' < 2 →
    flagAddress p q k slot = flagAddress p' q k' slot' → p = p' ∧ k = k' ∧ slot = slot'
  /-- the kernel waits for the flag of every path, where the peer writes it, and for no other -/
  waited : ∀ q threads, ∀ hpos : 0 < threads, q < g.world → 8 ≤ threads → g.world ≤ threads →
    ∀ p k slot, (Waited (g.ctx q) threads hpos (p, k) ↔ g.Active p q k) ∧
      waitAddress q p k slot = flagAddress p q k slot

end RingPosts
