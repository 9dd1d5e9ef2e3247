import SparkTP4.RingPostsExact
import SparkTP4.Transition

/-!
# The ring transport

The kernels of all ranks (`_oneshot_cute.py`, `_allgather_cute.py`), their proxies
(`_roce_proxy.c`) and the queue pairs between them. All ranks run the same operations `1, 2, …`
of any sizes. A kernel stages its input in one of two slots, writes the size and the doorbell,
waits for a flag on every path from every peer and reads the slots of the peers. A proxy reads
the doorbell, and for each missed operation its size, and then goes through the schedule of the
operation.

Nobody acknowledges anything: a slot, a flag and a size are written again two operations later.

The threads of a kernel run in any order that its barriers and counters leave, and the proxy may
pause anywhere. It may be stopped between two operations and started again; where a post ends
with an error, or is stopped in the middle, it is not taken up again (the runtime is poisoned
then). The card reads the packs of a write from the memory of its sender at any moment after the
post, and lands them in any order, but the writes of a queue one after the other, and the flag of
a write after its packs. Completions are polled later than that. The sequence numbers are 32 bits
wide and wrap; the number of an operation, `op`, is for the specification only.
-/

namespace RingTransport

open RingPaths RingPosts

/-! ## The setting -/

/-- The ranks, the operations and their inputs. -/
structure Setting (V : Type) where
  ring : Ring
  py : Py
  setUp : ring.SetUp py
  slotBytes : ℕ
  /-- the same on all ranks, which they compare -/
  slots : ∀ r < ring.world, (ring.node r).slotBytes = slotBytes
  /-- the payload of an operation in bytes -/
  nbytes : ℕ → ℕ
  nbytes_pos : ∀ n, nbytes n ≠ 0
  nbytes_le : ∀ n, nbytes n ≤ slotBytes
  nbytes_mod : ∀ n, nbytes n % 16 = 0
  /-- a pack of the input of a rank for an operation -/
  input : ℕ → ℕ → ℕ → V
  threads : ℕ
  threads_pos : 0 < threads
  threads_ge : 8 ≤ threads
  world_le : ring.world ≤ threads
  /-- the blocks of the launch of an operation on a rank -/
  grid : ℕ → ℕ → ℕ
  grid_pos : ∀ r n, 0 < grid r n
  garbage : V

variable {V : Type}

namespace Setting

variable (cfg : Setting V)

def world : ℕ := cfg.ring.world

/-- The context of the proxy of a rank. -/
def ctx (r : ℕ) : Ctx := cfg.ring.ctx r

/-- The packs of an operation. -/
def packs (n : ℕ) : ℕ := cfg.nbytes n / 16

/-- The block that handles a pack. -/
def blockOf (r n i : ℕ) : ℕ := i / cfg.threads % cfg.grid r n

/-- The flags that a thread of the kernel of a rank waits for. -/
def waits (r t : ℕ) : List (ℕ × ℕ) :=
  (kernelSetting (cfg.ctx r) cfg.threads cfg.threads_pos).waits t

end Setting

/-- The packs of a stripe. -/
def stripePacks (offset bytes : ℕ) : List ℕ := List.range' (offset / 16) (bytes / 16)

/-- `seq & 1` -/
def slotOf (seq : UInt32) : ℕ := seq.toNat % 2

/-- `ROCE_SLOTS` -/
def roceSlots : ℕ := 2

/-- `ROCE_SEND_DEPTH / 4` -/
def sendDepth : ℕ := 64

/-! ## The state -/

/-- What a kernel does. -/
inductive Task where
  /-- a pack of the input goes to the send slot -/
  | stage (i : ℕ)
  /-- the size of the slot -/
  | setNbytes
  /-- the doorbell -/
  | ring
  /-- a thread of a block sees the flag of a path from a peer -/
  | see (b t peer path : ℕ)
  /-- a pack of a peer is read -/
  | read (peer i : ℕ)
deriving DecidableEq

/-- Where a proxy is. -/
inductive Proxy where
  /-- about to read the doorbell -/
  | idle
  /-- about to read the size of the next operation, with so many to go -/
  | fetch (pending : ℕ)
  /-- in the schedule of the next operation -/
  | post (pending : ℕ) (todo : List Act)
  /-- between `roce_stop` and `roce_start` -/
  | stopped

/-- A posted write: the packs that the card has not read yet, those that have not landed, and
the flag. -/
structure Msg (V : Type) where
  op : ℕ
  seq : UInt32
  todo : List ℕ
  taken : List (ℕ × V)

/-- The memory and the threads of a rank, without what its peers write. -/
structure Rank (V : Type) where
  /-- the operation whose kernel runs, or runs next -/
  op : ℕ
  done : List Task
  error : Bool
  /-- what the kernel has read, by peer and pack -/
  got : ℕ × ℕ → V
  /-- what the finished operations have read -/
  result : ℕ → ℕ × ℕ → V
  epoch : UInt32
  /-- by slot and pack -/
  send : ℕ × ℕ → V
  doorbell : UInt32
  slotNbytes : ℕ → ℕ
  lastSeq : UInt32
  proxy : Proxy
  opsPosted : ℕ
  /-- by peer and path -/
  flagWrites : ℕ × ℕ → ℕ
  /-- by device and peer -/
  outstanding : ℕ × ℕ → ℕ
  failed : Bool

/-- All ranks, and the network. -/
structure State (V : Type) where
  rank : ℕ → Rank V
  /-- by receiver, sender, slot and pack -/
  recv : ℕ × ℕ × ℕ × ℕ → V
  /-- by receiver and address -/
  flag : ℕ × ℕ → UInt32
  /-- by sender, receiver and path -/
  queue : ℕ × ℕ × ℕ → List (Msg V)

def Rank.start (garbage : V) : Rank V where
  op := 1
  done := []
  error := false
  got _ := garbage
  result _ _ := garbage
  epoch := 0
  send _ := garbage
  doorbell := 0
  slotNbytes _ := 0
  lastSeq := 0
  proxy := .idle
  opsPosted := 0
  flagWrites _ := 0
  outstanding _ := 0
  failed := false

def State.start (cfg : Setting V) : State V where
  rank _ := .start cfg.garbage
  recv _ := cfg.garbage
  flag _ := 0
  queue _ := []

/-! ## The kernel -/

section Kernel

variable (cfg : Setting V) (r : ℕ)

/-- The threads of a block have seen all their flags. -/
def SeenAll (b : ℕ) (D : List Task) : Prop :=
  ∀ t < cfg.threads, ∀ e ∈ cfg.waits r t, Task.see b t e.1 e.2 ∈ D

instance decidableSeenAll (b : ℕ) (D : List Task) : Decidable (SeenAll cfg r b D) :=
  inferInstanceAs (Decidable (∀ t < cfg.threads, ∀ e ∈ cfg.waits r t, Task.see b t e.1 e.2 ∈ D))

/-- The task belongs to the kernel of operation `n`, and the tasks before it have run. -/
def Needs (n : ℕ) (D : List Task) : Task → Prop
  | .stage i => i < cfg.packs n
  | .setNbytes => ∀ i < cfg.packs n, Task.stage i ∈ D
  | .ring => Task.setNbytes ∈ D
  -- a block waits when it has staged its packs
  | .see b t peer path => b < cfg.grid r n ∧ t < cfg.threads ∧ (peer, path) ∈ cfg.waits r t ∧
      ∀ i < cfg.packs n, cfg.blockOf r n i = b → Task.stage i ∈ D
  | .read peer i => peer < cfg.world ∧ peer ≠ r ∧ i < cfg.packs n ∧
      SeenAll cfg r (cfg.blockOf r n i) D

instance decidableNeeds (n : ℕ) (D : List Task) (t : Task) : Decidable (Needs cfg r n D t) := by
  cases t <;> unfold Needs <;> infer_instance

/-- Every task of the kernel has run. -/
def AllDone (n : ℕ) (D : List Task) : Prop :=
  Task.ring ∈ D ∧ (∀ b < cfg.grid r n, SeenAll cfg r b D) ∧
    ∀ peer < cfg.world, peer ≠ r → ∀ i < cfg.packs n, Task.read peer i ∈ D

instance decidableAllDone (n : ℕ) (D : List Task) : Decidable (AllDone cfg r n D) :=
  inferInstanceAs (Decidable (_ ∧ _ ∧ _))

/-- The sequence number of the kernel. -/
def Rank.seq (R : Rank V) : UInt32 := R.epoch + 1

/-- The flag that a wait is for. -/
def Guard (S : State V) : Task → Prop
  | .see _ _ peer path =>
    S.flag (r, waitAddress r peer path (slotOf (S.rank r).seq)) = (S.rank r).seq
  | _ => True

instance decidableGuard (S : State V) (t : Task) : Decidable (Guard r S t) := by
  cases t <;> unfold Guard <;> infer_instance

/-- The effect of a task, with the slots of the receiver. -/
def Rank.exec (recv : ℕ × ℕ × ℕ × ℕ → V) (R : Rank V) (t : Task) : Rank V :=
  let slot := slotOf R.seq
  let R := { R with done := t :: R.done }
  match t with
  | .stage i => { R with send := Function.update R.send (slot, i) (cfg.input r R.op i) }
  | .setNbytes => { R with slotNbytes := Function.update R.slotNbytes slot (cfg.nbytes R.op) }
  | .ring => { R with doorbell := R.seq }
  | .see .. => R
  | .read peer i => { R with got := Function.update R.got (peer, i) (recv (r, peer, slot, i)) }

/-- The last block publishes the epoch, when no wait has timed out. -/
def Rank.finish (R : Rank V) : Option (Rank V) :=
  if R.error = false ∧ AllDone cfg r R.op R.done then
    some { R with
      op := R.op + 1
      done := []
      epoch := R.seq
      result := Function.update R.result R.op R.got }
  else none

end Kernel

/-! ## The proxy -/

section Proxy

variable (c : Ctx)

/-- The doorbell is read. -/
def Rank.poll (R : Rank V) : Option (Rank V) :=
  match R.proxy with
  | .idle =>
    if R.doorbell = R.lastSeq then some R
    -- "doorbell skipped"
    else if roceSlots < (R.doorbell - R.lastSeq).toNat then some { R with failed := true }
    else some { R with proxy := .fetch (R.doorbell - R.lastSeq).toNat }
  | _ => none

/-- The size of the next operation is read. -/
def Rank.fetch (R : Rank V) : Option (Rank V) :=
  match R.proxy with
  | .fetch pending =>
    let s := R.lastSeq + 1
    some { R with proxy := .post pending (postOp c s.toNat (R.slotNbytes (slotOf s))) }
  | _ => none

/-- The next write of the schedule, with its peer and path. -/
def Rank.post (R : Rank V) : Option (Rank V × ℕ × ℕ × Msg V) :=
  match R.proxy with
  | .post pending (.post peer path offset bytes :: todo) =>
    let h := c.hca peer path
    if R.outstanding (h, peer) < sendDepth then
      some ({ R with
          proxy := .post pending todo
          flagWrites := Function.update R.flagWrites (peer, path) (R.flagWrites (peer, path) + 1)
          outstanding := Function.update R.outstanding (h, peer) (R.outstanding (h, peer) + 1) },
        peer, path, ⟨R.opsPosted + 1, R.lastSeq + 1, stripePacks offset bytes, []⟩)
    else none
  | _ => none

/-- The schedule goes on after a wait, or fails. -/
def Rank.await (R : Rank V) : Option (Rank V) :=
  match R.proxy with
  | .post pending (.drainPath peer path :: todo) =>
    if R.outstanding (c.hca peer path, peer) = 0 then some { R with proxy := .post pending todo }
    else none
  | .post pending (.drainPeer peer :: todo) =>
    if ∀ path < c.pathCount peer, R.outstanding (c.hca peer path, peer) = 0 then
      some { R with proxy := .post pending todo }
    else none
  | .post _ (.fail :: _) => some { R with failed := true }
  | _ => none

/-- The proxy after an operation: the next one, or the doorbell. -/
def nextOp (pending : ℕ) : Proxy := if pending ≤ 1 then .idle else .fetch (pending - 1)

/-- `last_seq = s` -/
def Rank.commit (R : Rank V) : Option (Rank V) :=
  match R.proxy with
  | .post pending [] =>
    some { R with
      lastSeq := R.lastSeq + 1
      opsPosted := R.opsPosted + 1
      proxy := nextOp pending }
  | _ => none

/-- The thread ends at the head of its loop. -/
def Rank.stop (R : Rank V) : Option (Rank V) :=
  match R.proxy with
  | .idle => some { R with proxy := .stopped }
  | _ => none

/-- `roce_start` -/
def Rank.restart (R : Rank V) : Option (Rank V) :=
  match R.proxy with
  | .stopped => some { R with proxy := .idle }
  | _ => none

/-- `drain_cq` takes a completion of a path that has so many writes under way. -/
def Rank.complete (underway : ℕ) (peer path : ℕ) (R : Rank V) : Option (Rank V) :=
  let h := c.hca peer path
  if path < c.pathCount peer ∧ underway < R.outstanding (h, peer) then
    some { R with
      outstanding := Function.update R.outstanding (h, peer) (R.outstanding (h, peer) - 1) }
  else none

end Proxy

/-! ## The system -/

inductive Action where
  | exec (r : ℕ) (t : Task)
  /-- a wait of the kernel reaches its spin limit -/
  | timeout (r : ℕ)
  | finish (r : ℕ)
  | poll (r : ℕ)
  | fetch (r : ℕ)
  | post (r : ℕ)
  | await (r : ℕ)
  | commit (r : ℕ)
  | complete (r peer path : ℕ)
  /-- a failed completion, or a stop inside a post -/
  | giveUp (r : ℕ)
  | stop (r : ℕ)
  | restart (r : ℕ)
  /-- the card reads a pack of the `j`-th write in a queue -/
  | take (p q path j i : ℕ)
  /-- a pack of the oldest write lands -/
  | land (p q path i : ℕ)
  /-- the flag of the oldest write lands -/
  | flag (p q path : ℕ)
deriving DecidableEq

variable (cfg : Setting V)

def State.setRank (S : State V) (r : ℕ) (R : Rank V) : State V :=
  { S with rank := Function.update S.rank r R }

/-- A step of the proxy of a rank, unless the proxy has failed. -/
def State.byProxy (S : State V) (r : ℕ) (f : Rank V → Option (Rank V)) : Option (State V) :=
  if (S.rank r).failed then none else (f (S.rank r)).map (S.setRank r)

/-- A rank posts its next write. -/
def State.post (S : State V) (r : ℕ) : Option (State V) :=
  if (S.rank r).failed then none
  else ((S.rank r).post (cfg.ctx r)).map fun x =>
    { S.setRank r x.1 with
      queue := Function.update S.queue (r, x.2.1, x.2.2.1)
        (S.queue (r, x.2.1, x.2.2.1) ++ [x.2.2.2]) }

/-- A write with a pack read from the memory of its sender. -/
def Msg.take (m : Msg V) (send : ℕ × ℕ → V) (i : ℕ) : Msg V :=
  { m with todo := m.todo.filter (· ≠ i), taken := (i, send (slotOf m.seq, i)) :: m.taken }

/-- The card reads a pack. -/
def State.take (S : State V) (p q path j i : ℕ) : Option (State V) :=
  match (S.queue (p, q, path))[j]? with
  | none => none
  | some m =>
    if i ∈ m.todo then
      some { S with
        queue := Function.update S.queue (p, q, path)
          ((S.queue (p, q, path)).set j (m.take (S.rank p).send i)) }
    else none

/-- A write with a pack landed. -/
def Msg.land (m : Msg V) (i : ℕ) : Msg V := { m with taken := m.taken.filter (·.1 ≠ i) }

/-- A pack lands. -/
def State.land (S : State V) (p q path i : ℕ) : Option (State V) :=
  match S.queue (p, q, path) with
  | [] => none
  | m :: rest =>
    match m.taken.find? (·.1 = i) with
    | none => none
    | some e =>
      some { S with
        recv := Function.update S.recv (q, p, slotOf m.seq, i) e.2
        queue := Function.update S.queue (p, q, path) (m.land i :: rest) }

/-- The flag of a write lands after its packs. -/
def State.landFlag (S : State V) (p q path : ℕ) : Option (State V) :=
  match S.queue (p, q, path) with
  | [] => none
  | m :: rest =>
    if m.todo = [] ∧ m.taken = [] then
      some { S with
        flag := Function.update S.flag (q, flagAddress p q path (slotOf m.seq)) m.seq
        queue := Function.update S.queue (p, q, path) rest }
    else none

/-- One step of the system, of a rank or of the network. -/
def stepOf (S : State V) : Action → Option (State V)
  | .exec r t =>
    if t ∉ (S.rank r).done ∧ Needs cfg r (S.rank r).op (S.rank r).done t ∧ Guard r S t then
      some (S.setRank r ((S.rank r).exec cfg r S.recv t))
    else none
  | .timeout r => some (S.setRank r { S.rank r with error := true })
  | .finish r => ((S.rank r).finish cfg r).map (S.setRank r)
  | .poll r => S.byProxy r Rank.poll
  | .fetch r => S.byProxy r (Rank.fetch (cfg.ctx r))
  | .post r => S.post cfg r
  | .await r => S.byProxy r (Rank.await (cfg.ctx r))
  | .commit r => S.byProxy r Rank.commit
  | .complete r peer path =>
    S.byProxy r (Rank.complete (cfg.ctx r) (S.queue (r, peer, path)).length peer path)
  | .giveUp r => some (S.setRank r { S.rank r with failed := true })
  | .stop r => S.byProxy r Rank.stop
  | .restart r => S.byProxy r Rank.restart
  | .take p q path j i => S.take p q path j i
  | .land p q path i => S.land p q path i
  | .flag p q path => S.landFlag p q path

/-- The rank that acts, or sends. -/
def Action.rank : Action → ℕ
  | .exec r _ | .timeout r | .finish r | .poll r | .fetch r | .post r | .await r | .commit r
  | .complete r _ _ | .giveUp r | .stop r | .restart r => r
  | .take p .. | .land p .. | .flag p .. => p

/-- One step of the system. -/
def step (S : State V) (a : Action) : Option (State V) :=
  if a.rank < cfg.world then stepOf cfg S a else none

/-- The states that the ranks and the network can reach. -/
def Reachable : State V → Prop :=
  Transition.Reachable (step cfg) (fun _ _ => True) (State.start cfg)

end RingTransport
