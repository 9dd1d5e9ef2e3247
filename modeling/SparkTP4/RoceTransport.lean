import SparkTP4.Transition
import SparkTP4.Striping

/-!
# The RoCE transport

The kernels (`_oneshot_cute.py`, `_twoshot_cute.py`) and the proxy thread
(`_roce_proxy.c`) of every rank, with the RDMA queues between the ranks. All
ranks run the same sequence of operations `1, 2, …`; a one-shot operation (an
all-reduce or an all-gather) sends its payload from one of two slots to one of
two slots, a two-shot operation reduces and gathers its shards in chunks
through a single send buffer and one receive buffer for each source and phase.

A kernel is a set of tasks (`Task`). Its blocks and threads run concurrently,
so a task may run as soon as the tasks that the barriers and arrival counters
put before it have run (`Needs`); orders that only follow from the loop order
inside a block are left out, which can only add interleavings. A flag is seen
by one thread for each peer and HCA, and a block reads a peer's packs after all
its threads have seen theirs. A wait that reaches its spin limit sets the error
word: nothing more is published, the operation does not finish, and the proxy
abandons a two-shot operation.

The proxy reads the doorbell and the record of each pending operation, field by
field, and posts the writes one by one: for each peer and HCA the stripe of the
payload, then the flag. A queue delivers the packs of a write in any order and
its flag after them; a delivered pack is read from the sender's memory at that
moment. Sequence numbers stay below the guard of the runtime, so they do not
wrap.
-/

namespace RoceTransport

open Striping

/-! ## Operations -/

inductive Kind where
  | oneshot
  | twoshot
  deriving DecidableEq

/-- The parts a kernel waits for: the payload of a one-shot operation, or a
chunk of the reduce-scatter (phase 0) or of the all-gather (phase 1). -/
inductive Part where
  | one
  | rs (c : ℕ)
  | ag (c : ℕ)
  deriving DecidableEq

/-- An operation, the same on every rank. -/
structure Op where
  kind : Kind
  packs : ℕ
  chunkPacks : ℕ
  chunks : ℕ

/-- The words of a slot of the control record. -/
structure Record where
  nbytes : ℕ
  kind : Kind
  chunkPacks : ℕ
  chunks : ℕ

def Record.empty : Record := ⟨0, .oneshot, 0, 0⟩

def packBytes : ℕ := 16

def Op.record (o : Op) : Record := ⟨o.packs * packBytes, o.kind, o.chunkPacks, o.chunks⟩

/-- A part of an operation of this kind and number of chunks. -/
def HasPart (kind : Kind) (chunks : ℕ) : Part → Prop
  | .one => kind = .oneshot
  | .rs c => kind = .twoshot ∧ c < chunks
  | .ag c => kind = .twoshot ∧ c < chunks

instance (kind : Kind) (chunks : ℕ) (part : Part) : Decidable (HasPart kind chunks part) := by
  unfold HasPart
  split <;> infer_instance

/-! ## What is sent -/

/-- The first pack of the message for `part` from rank `p` to rank `q`: the
payload, a chunk of the receiver's shard, or a chunk of the sender's shard. -/
def msgStart (W packs chunkPacks p q : ℕ) : Part → ℕ
  | .one => 0
  | .rs c => chunkStart packs W chunkPacks q c
  | .ag c => chunkStart packs W chunkPacks p c

/-- The number of packs of that message. -/
def msgLength (W packs chunkPacks p q : ℕ) : Part → ℕ
  | .one => packs
  | .rs c => chunkLength packs W chunkPacks q c
  | .ag c => chunkLength packs W chunkPacks p c

/-- The pack that lands at the start of the receive buffer. -/
def msgBase (W packs p q : ℕ) : Part → ℕ
  | .one => 0
  | .rs _ => shardStart packs W q
  | .ag _ => shardStart packs W p

/-- The packs of the message. -/
def Op.packsOf (o : Op) (W p q : ℕ) (part : Part) : List ℕ :=
  List.range' (msgStart W o.packs o.chunkPacks p q part) (msgLength W o.packs o.chunkPacks p q part)

/-- The packs of the message that HCA `h` carries. -/
def stripeOf (W H packs chunkPacks p q h : ℕ) (part : Part) : List ℕ :=
  stripe (msgStart W packs chunkPacks p q part) (msgLength W packs chunkPacks p q part) H h

/-- The send buffers of a rank. -/
inductive Source where
  | slot (k : ℕ)
  | pipe
  deriving DecidableEq

/-- The receive buffers of a rank, for each source. -/
inductive Region where
  | slot (k : ℕ)
  | pipe (gather : Bool)
  deriving DecidableEq

/-- The flag words of a rank, for each source and HCA. -/
inductive Cell where
  | slot (k : ℕ)
  | rs (c : ℕ)
  | ag (c : ℕ)
  deriving DecidableEq

def slotOf (n : ℕ) : ℕ := n % 2

/-- The buffer the kernel of operation `n` stages its input in. -/
def Kind.stageTo (n : ℕ) : Kind → Source
  | .oneshot => .slot (slotOf n)
  | .twoshot => .pipe

def sourceOf (n : ℕ) : Part → Source
  | .one => .slot (slotOf n)
  | .rs _ => .pipe
  | .ag _ => .pipe

def regionOf (n : ℕ) : Part → Region
  | .one => .slot (slotOf n)
  | .rs _ => .pipe false
  | .ag _ => .pipe true

def cellOf (n : ℕ) : Part → Cell
  | .one => .slot (slotOf n)
  | .rs c => .rs c
  | .ag c => .ag c

/-- A posted write: the packs of its data that have not landed yet, and the
flag after them. -/
structure Msg where
  op : ℕ
  part : Part
  base : ℕ
  todo : List ℕ

/-! ## The setting -/

/-- The checks of `post_op` and `run_pipe_op` on a record. -/
def Accepted (W slotBytes pipeBytes maxChunks : ℕ) (rc : Record) : Prop :=
  rc.nbytes ≠ 0 ∧ rc.nbytes % packBytes = 0 ∧
    match rc.kind with
    | .oneshot => rc.nbytes ≤ slotBytes
    | .twoshot => rc.nbytes ≤ pipeBytes ∧ rc.chunks ≠ 0 ∧ rc.chunks ≤ maxChunks ∧
        rc.chunkPacks ≠ 0 ∧
        (rc.nbytes / packBytes + W - 1) / W ≤ rc.chunks * rc.chunkPacks

instance (W slotBytes pipeBytes maxChunks : ℕ) (rc : Record) :
    Decidable (Accepted W slotBytes pipeBytes maxChunks rc) := by
  unfold Accepted
  cases rc.kind <;> infer_instance

/-- The operations all ranks run, their inputs, the launch geometry, and the
sizes of the region. The host admits only operations whose record the proxy
accepts (`should_allreduce`, `pipe_geometry`). -/
structure Setting (W H : ℕ) (V : Type) where
  op : ℕ → Op
  /-- pack `i` of the input of a rank for an operation -/
  input : Fin W → ℕ → ℕ → V
  /-- the reduction of one pack, in rank order -/
  combine : (Fin W → V) → V
  /-- the blocks of the kernel of an operation on a rank -/
  blocks : Fin W → ℕ → ℕ
  /-- the block that handles a pack -/
  blockOf : Fin W → ℕ → Part → ℕ → ℕ
  slotBytes : ℕ
  pipeBytes : ℕ
  maxChunks : ℕ
  garbage : V
  world_ge : 2 ≤ W
  hcas_pos : 0 < H
  blocks_pos : ∀ r n, 0 < blocks r n
  op_accepted : ∀ n, Accepted W slotBytes pipeBytes maxChunks (op n).record

variable {W H : ℕ} {V : Type}

/-- The value of pack `i` of the message for `part` of operation `n` from `p`:
its input, or in the all-gather the reduced pack. -/
def Setting.payload (cfg : Setting W H V) (p : Fin W) (n : ℕ) (part : Part) (i : ℕ) : V :=
  match part with
  | .ag _ => cfg.combine (fun q => cfg.input q n i)
  | _ => cfg.input p n i

/-! ## The kernel -/

/-- The tasks of a kernel. -/
inductive Task (W H : ℕ) where
  /-- pack `i` (of chunk `c`) of the input goes to the send buffer -/
  | stage (c i : ℕ)
  | setNbytes
  | setKind
  | setChunkPacks
  | setChunks
  /-- the doorbell -/
  | ring
  /-- the ready word of a chunk -/
  | publish (part : Part)
  /-- a thread of block `b` sees the flag of a peer's stripe -/
  | see (b : ℕ) (part : Part) (p : Fin W) (h : Fin H)
  /-- pack `i` is read from the receive buffer of peer `p` -/
  | read (part : Part) (p : Fin W) (i : ℕ)
  /-- pack `i` of chunk `c` of the own shard is reduced into the send buffer -/
  | store (c i : ℕ)
  deriving DecidableEq

/-- The threads of block `b` have seen all flags of `part`. -/
def Sees (r : Fin W) (D : List (Task W H)) (b : ℕ) (part : Part) : Prop :=
  ∀ p : Fin W, p ≠ r → ∀ h : Fin H, Task.see b part p h ∈ D

instance (r : Fin W) (D : List (Task W H)) (b : ℕ) (part : Part) :
    Decidable (Sees r D b part) := by
  unfold Sees
  infer_instance

/-- The packs of chunk `c` of the shard of rank `j`. -/
def Op.chunkOf (o : Op) (W j c : ℕ) : List ℕ := chunk o.packs W o.chunkPacks j c

/-- The task belongs to the kernel of operation `n` on rank `r`, and the tasks
before it are among the tasks `D` that have run. -/
def Needs (cfg : Setting W H V) (r : Fin W) (n : ℕ) (D : List (Task W H)) : Task W H → Prop
  | .stage c i => match (cfg.op n).kind with
    | .oneshot => c = 0 ∧ i < (cfg.op n).packs
    | .twoshot => c < (cfg.op n).chunks ∧ ∃ j : Fin W, j ≠ r ∧ i ∈ (cfg.op n).chunkOf W j c
  -- the last block that staged its packs writes the record of a one-shot operation
  | .setNbytes => (cfg.op n).kind = .oneshot → ∀ i < (cfg.op n).packs, Task.stage 0 i ∈ D
  | .setKind => (cfg.op n).kind = .oneshot → ∀ i < (cfg.op n).packs, Task.stage 0 i ∈ D
  | .setChunkPacks => (cfg.op n).kind = .twoshot
  | .setChunks => (cfg.op n).kind = .twoshot
  | .ring => Task.setNbytes ∈ D ∧ Task.setKind ∈ D ∧
      ((cfg.op n).kind = .twoshot → Task.setChunkPacks ∈ D ∧ Task.setChunks ∈ D)
  | .publish .one => False
  | .publish (.rs c) => HasPart (cfg.op n).kind (cfg.op n).chunks (.rs c) ∧
      ∀ j : Fin W, j ≠ r → ∀ i ∈ (cfg.op n).chunkOf W j c, Task.stage c i ∈ D
  | .publish (.ag c) => HasPart (cfg.op n).kind (cfg.op n).chunks (.ag c) ∧
      (∀ b < cfg.blocks r n, Sees r D b (.rs c)) ∧
      ∀ i ∈ (cfg.op n).chunkOf W r c, Task.store c i ∈ D
  | .see b part p _ => HasPart (cfg.op n).kind (cfg.op n).chunks part ∧ b < cfg.blocks r n ∧
      p ≠ r ∧ ((cfg.op n).kind = .oneshot → ∀ i < (cfg.op n).packs,
        cfg.blockOf r n .one i = b → Task.stage 0 i ∈ D)
  | .read part p i => HasPart (cfg.op n).kind (cfg.op n).chunks part ∧ p ≠ r ∧
      i ∈ (cfg.op n).packsOf W p r part ∧ Sees r D (cfg.blockOf r n part i) part
  | .store c i => HasPart (cfg.op n).kind (cfg.op n).chunks (.rs c) ∧
      i ∈ (cfg.op n).chunkOf W r c ∧ ∀ p : Fin W, p ≠ r → Task.read (.rs c) p i ∈ D

instance (cfg : Setting W H V) (r : Fin W) (n : ℕ) (D : List (Task W H)) (t : Task W H) :
    Decidable (Needs cfg r n D t) := by
  unfold Needs
  split
  case h_1 => cases (cfg.op n).kind <;> infer_instance
  all_goals infer_instance

/-- Every task of the kernel has run. -/
def AllDone (cfg : Setting W H V) (r : Fin W) (n : ℕ) (D : List (Task W H)) : Prop :=
  Task.ring ∈ D ∧
    match (cfg.op n).kind with
    | .oneshot => (∀ b < cfg.blocks r n, Sees r D b .one) ∧
        ∀ p : Fin W, p ≠ r → ∀ i < (cfg.op n).packs, Task.read .one p i ∈ D
    | .twoshot => ∀ c < (cfg.op n).chunks,
        Task.publish (.rs c) ∈ D ∧ Task.publish (.ag c) ∈ D ∧
        (∀ b < cfg.blocks r n, Sees r D b (.rs c) ∧ Sees r D b (.ag c)) ∧
        ∀ p : Fin W, p ≠ r → ∀ i ∈ (cfg.op n).chunkOf W p c, Task.read (.ag c) p i ∈ D

instance (cfg : Setting W H V) (r : Fin W) (n : ℕ) (D : List (Task W H)) :
    Decidable (AllDone cfg r n D) := by
  unfold AllDone
  cases (cfg.op n).kind <;> infer_instance

/-! ## The state -/

/-- What the proxy thread is doing. -/
inductive Proxy (W H : ℕ) where
  /-- about to read the doorbell -/
  | idle
  /-- in the loop up to the doorbell value `upto`, with `k` words of the record
  of the next operation read -/
  | fetch (upto k : ℕ) (rc : Record)
  /-- posting `part` of the next operation, the peers and HCAs of `todo` to go;
  `rs` and `ag` chunks of a two-shot operation have been taken up -/
  | post (upto : ℕ) (rc : Record) (rs ag : ℕ) (part : Part) (todo : List (Fin W × Fin H))

/-- The memory and the threads of a rank, without what its peers write. -/
structure Rank (W H : ℕ) (V : Type) where
  /-- the operation whose kernel runs, or runs next: the epoch plus one -/
  op : ℕ
  done : List (Task W H)
  /-- the error word -/
  error : Bool
  /-- the packs read from the peers -/
  got : Part × Fin W → ℕ → V
  send : Source → ℕ → V
  seq : ℕ
  record : ℕ → Record
  ready : Part → ℕ
  pipeDone : ℕ
  lastSeq : ℕ
  proxy : Proxy W H
  failed : Bool

/-- The ranks, what their peers write, and the writes in flight. The receive
buffers and the flags are indexed by the receiver and the sender, the queues by
the sender, the receiver and the HCA. -/
structure State (W H : ℕ) (V : Type) where
  rank : Fin W → Rank W H V
  recv : Fin W × Fin W → Region → ℕ → V
  flag : Fin W × Fin W → Cell → Fin H → ℕ
  queue : Fin W → Fin W → Fin H → List Msg

def Rank.start (garbage : V) : Rank W H V where
  op := 1
  done := []
  error := false
  got _ _ := garbage
  send _ _ := garbage
  seq := 0
  record _ := .empty
  ready _ := 0
  pipeDone := 0
  lastSeq := 0
  proxy := .idle
  failed := false

def State.start (cfg : Setting W H V) : State W H V where
  rank _ := .start cfg.garbage
  recv _ _ _ := cfg.garbage
  flag _ _ _ := 0
  queue _ _ _ := []

section Write

variable {α β γ δ : Type} [DecidableEq α] [DecidableEq β] [DecidableEq γ]

/-- The map `m` with the entry at `a`, `b` replaced. -/
def put (m : α → β → δ) (a : α) (b : β) (v : δ) : α → β → δ :=
  fun a' b' => if a' = a ∧ b' = b then v else m a' b'

/-- The map `m` with the entry at `a`, `b`, `c` replaced. -/
def write (m : α → β → γ → δ) (a : α) (b : β) (c : γ) (v : δ) : α → β → γ → δ :=
  fun a' b' c' => if a' = a ∧ b' = b ∧ c' = c then v else m a' b' c'

end Write

/-! ## The steps of a kernel -/

/-- The flag a wait compares, and the error word before a publication. -/
def Guard (S : State W H V) (r : Fin W) : Task W H → Prop
  | .see _ part p h => S.flag (r, p) (cellOf (S.rank r).op part) h = (S.rank r).op
  | .publish _ => (S.rank r).error = false
  | _ => True

instance (S : State W H V) (r : Fin W) (t : Task W H) : Decidable (Guard S r t) := by
  unfold Guard
  split <;> infer_instance

/-- The effect of a task of the kernel of rank `r`, with the receive buffers
`inbox` of the rank. -/
def Rank.exec (cfg : Setting W H V) (r : Fin W) (inbox : Fin W → Region → ℕ → V)
    (R : Rank W H V) (t : Task W H) : Rank W H V :=
  let n := R.op
  let k := slotOf n
  let rc := R.record k
  let R := { R with done := t :: R.done }
  match t with
  | .stage _ i => { R with send := put R.send ((cfg.op n).kind.stageTo n) i (cfg.input r n i) }
  | .setNbytes =>
    { R with record := Function.update R.record k { rc with nbytes := (cfg.op n).record.nbytes } }
  | .setKind => { R with record := Function.update R.record k { rc with kind := (cfg.op n).kind } }
  | .setChunkPacks =>
    { R with record := Function.update R.record k { rc with chunkPacks := (cfg.op n).chunkPacks } }
  | .setChunks =>
    { R with record := Function.update R.record k { rc with chunks := (cfg.op n).chunks } }
  | .ring => { R with seq := n }
  | .publish part => { R with ready := Function.update R.ready part n }
  | .see _ _ _ _ => R
  | .read part p i =>
    { R with
      got := put R.got (part, p) i
        (inbox p (regionOf n part) (i - msgBase W (cfg.op n).packs p r part)) }
  | .store c i =>
    { R with
      send := put R.send .pipe i (cfg.combine (fun q =>
        if q = r then cfg.input r n i else R.got (.rs c, q) i)) }

/-- The last block publishes the epoch, a two-shot kernel once the proxy has
released the send buffer. -/
def Rank.finish (cfg : Setting W H V) (r : Fin W) (R : Rank W H V) : Option (Rank W H V) :=
  if R.error = false ∧ AllDone cfg r R.op R.done ∧
      ((cfg.op R.op).kind = .twoshot → R.pipeDone = R.op) then
    some { R with op := R.op + 1, done := [] }
  else none

/-! ## The steps of a proxy -/

/-- The peers and HCAs of rank `r` in the order the proxy posts to them. -/
def targets (r : Fin W) : List (Fin W × Fin H) :=
  ((List.finRange W).filter (· ≠ r)).flatMap (fun q => (List.finRange H).map (fun h => (q, h)))

/-- The write for `part` of operation `s` that the proxy of rank `p` posts to
rank `q` on HCA `h`, as the words of the record say. -/
def Record.msg (rc : Record) (s : ℕ) (part : Part) (p q : Fin W) (h : Fin H) : Msg where
  op := s
  part := part
  base := msgBase W (rc.nbytes / packBytes) p q part
  todo := stripeOf W H (rc.nbytes / packBytes) rc.chunkPacks p q h part

/-- The proxy after an operation: the next pending one, or the doorbell. -/
def nextOp (upto s : ℕ) : Proxy W H := if s < upto then .fetch upto 0 .empty else .idle

/-- `ROCE_SLOTS` -/
def roceSlots : ℕ := 2

/-- The proxy reads the doorbell. -/
def Rank.poll (R : Rank W H V) : Option (Rank W H V) :=
  match R.proxy with
  | .idle =>
    if R.seq = R.lastSeq then some R
    -- "doorbell skipped"
    else if roceSlots < R.seq - R.lastSeq then some { R with failed := true }
    else some { R with proxy := .fetch R.seq 0 .empty }
  | _ => none

/-- The proxy with the next word of the record `cur` read. After the last word
it checks the record and takes up the operation, or fails. -/
def fetchNext (cfg : Setting W H V) (cur : Record) (r : Fin W) (upto k : ℕ) (rc : Record) :
    Option (Proxy W H) :=
  match k with
  | 0 => some (.fetch upto 1 { rc with nbytes := cur.nbytes })
  | 1 =>
    match cur.kind with
    | .oneshot =>
      if Accepted W cfg.slotBytes cfg.pipeBytes cfg.maxChunks { rc with kind := cur.kind } then
        some (.post upto { rc with kind := cur.kind } 0 0 .one (targets r))
      else none
    | .twoshot => some (.fetch upto 2 { rc with kind := cur.kind })
  | 2 => some (.fetch upto 3 { rc with chunkPacks := cur.chunkPacks })
  | _ =>
    if Accepted W cfg.slotBytes cfg.pipeBytes cfg.maxChunks { rc with chunks := cur.chunks } then
      some (.post upto { rc with chunks := cur.chunks } 0 0 (.rs 0) [])
    else none

/-- The proxy reads the next word of the record of the next operation. -/
def Rank.fetch (cfg : Setting W H V) (r : Fin W) (R : Rank W H V) : Option (Rank W H V) :=
  match R.proxy with
  | .fetch upto k rc =>
    match fetchNext cfg (R.record (slotOf (R.lastSeq + 1))) r upto k rc with
    | some proxy => some { R with proxy := proxy }
    | none => some { R with failed := true }
  | _ => none

/-- The next write of the proxy, with its peer and HCA. -/
def Rank.nextWrite (r : Fin W) (R : Rank W H V) : Option (Rank W H V × Fin W × Fin H × Msg) :=
  match R.proxy with
  | .post upto rc rs ag part ((q, h) :: todo) =>
    some ({ R with proxy := .post upto rc rs ag part todo }, q, h,
      rc.msg (R.lastSeq + 1) part r q h)
  | _ => none

/-- `last_seq = s` after a one-shot operation. -/
def Rank.commit (R : Rank W H V) : Option (Rank W H V) :=
  match R.proxy with
  | .post upto rc _ _ _ [] =>
    if rc.kind = .oneshot then
      some { R with lastSeq := R.lastSeq + 1, proxy := nextOp upto (R.lastSeq + 1) }
    else none
  | _ => none

/-- The proxy takes up the next chunk of a phase, once the kernel published it. -/
def Rank.choose (r : Fin W) (gather : Bool) (R : Rank W H V) : Option (Rank W H V) :=
  match R.proxy with
  | .post upto rc rs ag _ [] =>
    if rc.kind = .twoshot then
      if gather then
        if ag < rc.chunks ∧ R.ready (.ag ag) = R.lastSeq + 1 then
          some { R with proxy := .post upto rc rs (ag + 1) (.ag ag) (targets r) }
        else none
      else
        if rs < rc.chunks ∧ R.ready (.rs rs) = R.lastSeq + 1 then
          some { R with proxy := .post upto rc (rs + 1) ag (.rs rs) (targets r) }
        else none
    else none
  | _ => none

/-- The proxy is done with a two-shot operation once every chunk is posted and
no write is outstanding. -/
def Rank.release (drained : Bool) (R : Rank W H V) : Option (Rank W H V) :=
  match R.proxy with
  | .post upto rc rs ag _ [] =>
    if rc.kind = .twoshot ∧ rc.chunks ≤ rs ∧ rc.chunks ≤ ag ∧ drained then
      some { R with
        pipeDone := R.lastSeq + 1
        lastSeq := R.lastSeq + 1
        proxy := nextOp upto (R.lastSeq + 1) }
    else none
  | _ => none

/-- The proxy abandons a two-shot operation whose kernel timed out. -/
def Rank.abandon (R : Rank W H V) : Option (Rank W H V) :=
  match R.proxy with
  | .post _ rc _ _ _ _ =>
    if rc.kind = .twoshot ∧ R.error then some { R with failed := true } else none
  | _ => none

/-! ## The steps of the system -/

inductive Action (W H : ℕ) where
  /-- the kernel of rank `r` runs a task -/
  | exec (r : Fin W) (t : Task W H)
  /-- a wait of the kernel of rank `r` reaches its spin limit -/
  | timeout (r : Fin W)
  | finish (r : Fin W)
  | poll (r : Fin W)
  | fetch (r : Fin W)
  /-- the proxy of rank `r` posts its next write -/
  | post (r : Fin W)
  | commit (r : Fin W)
  | choose (r : Fin W) (gather : Bool)
  | release (r : Fin W)
  | abandon (r : Fin W)
  /-- a pack of the oldest write in a queue lands, or its flag does -/
  | deliver (p q : Fin W) (h : Fin H) (i : Option ℕ)
  deriving DecidableEq

def State.setRank (S : State W H V) (r : Fin W) (R : Rank W H V) : State W H V :=
  { S with rank := Function.update S.rank r R }

/-- A step of the proxy of rank `r`, unless the proxy has failed. -/
def State.byProxy (S : State W H V) (r : Fin W) (f : Rank W H V → Option (Rank W H V)) :
    Option (State W H V) :=
  if (S.rank r).failed then none else (f (S.rank r)).map (S.setRank r)

/-- Every write of rank `r` has landed. -/
def State.drained (S : State W H V) (r : Fin W) : Bool :=
  decide (∀ (q : Fin W) (h : Fin H), (S.queue r q h).length = 0)

/-- The proxy of rank `r` posts its next write. -/
def State.post (S : State W H V) (r : Fin W) : Option (State W H V) :=
  if (S.rank r).failed then none
  else (S.rank r).nextWrite r |>.map (fun (R, q, h, m) =>
    { S.setRank r R with queue := write S.queue r q h (S.queue r q h ++ [m]) })

/-- A queue delivers a pack of its oldest write, or the flag when every pack
has landed. -/
def State.deliver (S : State W H V) (p q : Fin W) (h : Fin H) (i : Option ℕ) :
    Option (State W H V) :=
  match S.queue p q h, i with
  | [], _ => none
  | m :: rest, some i =>
    if i ∈ m.todo then
      some { S with
        recv := write S.recv (q, p) (regionOf m.op m.part) (i - m.base)
          ((S.rank p).send (sourceOf m.op m.part) i)
        queue := write S.queue p q h ({ m with todo := m.todo.filter (· ≠ i) } :: rest) }
    else none
  | m :: rest, none =>
    if m.todo.length = 0 then
      some { S with
        flag := write S.flag (q, p) (cellOf m.op m.part) h m.op
        queue := write S.queue p q h rest }
    else none

/-- The receive buffers of rank `r`. -/
def State.inbox (S : State W H V) (r : Fin W) : Fin W → Region → ℕ → V := fun p => S.recv (r, p)

/-- One step of the system. -/
def step (cfg : Setting W H V) (S : State W H V) : Action W H → Option (State W H V)
  | .exec r t =>
    if t ∉ (S.rank r).done ∧ Needs cfg r (S.rank r).op (S.rank r).done t ∧ Guard S r t then
      some (S.setRank r ((S.rank r).exec cfg r (S.inbox r) t))
    else none
  | .timeout r => some (S.setRank r { S.rank r with error := true })
  | .finish r => ((S.rank r).finish cfg r).map (S.setRank r)
  | .poll r => S.byProxy r Rank.poll
  | .fetch r => S.byProxy r (Rank.fetch cfg r)
  | .post r => S.post r
  | .commit r => S.byProxy r Rank.commit
  | .choose r gather => S.byProxy r (Rank.choose r gather)
  | .release r => S.byProxy r (Rank.release (S.drained r))
  | .abandon r => S.byProxy r Rank.abandon
  | .deliver p q h i => S.deliver p q h i

/-- The states that the ranks, their proxies and the queues can reach. -/
def Reachable (cfg : Setting W H V) : State W H V → Prop :=
  Transition.Reachable (step cfg) (fun _ _ => True) (State.start cfg)

end RoceTransport
