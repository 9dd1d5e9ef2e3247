import Mathlib.Data.List.Basic
import Mathlib.Data.Nat.Notation
import SparkTP4.Transition

/-!
# The arrivals of the ring kernels

The control flow of the all-reduce and the all-gather kernel of the ring transport
(`_oneshot_cute.py`, `_allgather_cute.py`) on one rank, with the health check of the runtime
(`roce_oneshot.py`).

All launches share one stage and one tail counter. An all-reduce runs on 2, 4 or 8 blocks, each
of which adds 8 divided by their number and compares modulo 8; an all-gather runs on 8 blocks,
which add 1 and compare modulo the grid. A wait that reaches its spin limit writes the peer, the
sequence number and a flag into the control record, and then the poison word on the device.

The threads of all blocks interleave at every step, and each load, store and atomic operation is
a step of its own; they take effect in the order of the schedule. The words are 32 bits wide and
wrap. What the peers write is not part of the state: a wait for a flag ends with it or at the
spin limit, as the schedule says. A thread that found the runtime poisoned has left the body,
and neither waits at a barrier nor is waited for.
-/

namespace RingArrivals

/-- The words the launches share: the four counters on the device, and the control record. -/
structure Memory where
  epoch : UInt32
  stage : UInt32
  tail : UInt32
  poison : UInt32
  /-- the sequence number in the control record -/
  doorbell : UInt32
  nbytes : UInt32
  error : UInt32
  peer : UInt32
  /-- the size by slot -/
  slotNbytes : UInt32 → UInt32
  flag : UInt32

def Memory.zero : Memory := ⟨0, 0, 0, 0, 0, 0, 0, 0, fun _ => 0, 0⟩

/-! ## The launches -/

structure Setting where
  world : ℕ
  rank : ℕ
  threads : ℕ
  oppositePaths : ℕ
  threads_pos : 0 < threads

/-- `_allreduce_blocks` -/
def allreduceBlocks (nbytes : ℕ) : ℕ :=
  if nbytes ≤ 16384 then 2 else if nbytes ≤ 65536 then 4 else 8

inductive Launch where
  | allReduce (nbytes : ℕ) (capturing : Bool)
  | allGather (nbytes : ℕ)
  deriving DecidableEq

namespace Launch

def nbytes : Launch → ℕ
  | allReduce nbytes _ | allGather nbytes => nbytes

/-- The number of blocks. -/
def grid : Launch → ℕ
  | allReduce nbytes capturing => if capturing then allreduceBlocks nbytes else 8
  | allGather _ => 8

/-- What a block adds to a counter. -/
def arrivalStep : Launch → UInt32
  | L@(allReduce ..) => 8 / UInt32.ofNat L.grid
  | allGather _ => 1

/-- What the arrivals are compared modulo. -/
def modulus : Launch → UInt32
  | allReduce .. => 8
  | L@(allGather _) => UInt32.ofNat L.grid

end Launch

namespace Setting

variable (cfg : Setting)

/-- The path flags in the order of the waiters of four-path mode: peer and path. -/
def pathFlags : List (ℕ × ℕ) :=
  ((List.range cfg.world).filter (· ≠ cfg.rank)).flatMap fun peer =>
    (List.range (if (peer + cfg.world - cfg.rank) % cfg.world = 2 then 4 else 2)).map (peer, ·)

/-- The flags that a thread waits for. -/
def waits (t : ℕ) : List (ℕ × ℕ) :=
  if cfg.oppositePaths = 4 then cfg.pathFlags[t]?.toList
  else if t < cfg.world ∧ t ≠ cfg.rank then [(t, 0), (t, 1)]
  else []

end Setting

/-! ## The steps of a thread -/

/-- Where a thread is in the kernel. -/
inductive Pc where
  /-- `seq = epoch + 1` -/
  | load
  /-- a poisoned runtime skips the body -/
  | branch
  /-- the share of the thread goes to the send slot -/
  | stage
  | stageSync
  | arriveStage
  /-- the last block stores the size -/
  | ringBytes
  /-- and rings the doorbell -/
  | ring
  /-- the flags that are still to be waited for -/
  | wait (flags : List (ℕ × ℕ))
  /-- the `k`-th of the four stores of a time-out -/
  | record (k peer : ℕ) (flags : List (ℕ × ℕ))
  | waitSync
  /-- the load of the poison word before the data phase -/
  | check
  /-- the share of the thread is reduced or copied, and stored -/
  | data
  | dataSync
  | arriveTail
  /-- the last block loads the flag of the control record -/
  | checkFlag
  /-- and stores the epoch -/
  | advance
  | exit
  | skipped
  deriving DecidableEq

/-- The order of the positions. -/
def Pc.pos : Pc → ℕ
  | load | skipped => 0
  | branch => 1
  | stage => 2
  | stageSync => 3
  | arriveStage => 4
  | ringBytes => 5
  | ring => 6
  | wait _ | record .. => 7
  | waitSync => 8
  | check => 9
  | data => 10
  | dataSync => 11
  | arriveTail => 12
  | checkFlag => 13
  | advance => 14
  | exit => 15

/-- The store or atomic operation of a step. -/
def Memory.exec (L : Launch) (t : ℕ) (seq : UInt32) (M : Memory) : Pc → Memory
  | .arriveStage => if t = 0 then { M with stage := M.stage + L.arrivalStep } else M
  | .ringBytes =>
    { M with
      nbytes := .ofNat L.nbytes
      slotNbytes := fun slot => if slot = seq &&& 1 then .ofNat L.nbytes else M.slotNbytes slot }
  | .ring => { M with doorbell := seq }
  | .record 0 peer _ => { M with peer := .ofNat peer }
  | .record 1 _ _ => { M with error := seq }
  | .record 2 _ _ => { M with flag := 1 }
  | .record _ _ _ => { M with poison := 1 }
  | .arriveTail => if t = 0 then { M with tail := M.tail + L.arrivalStep } else M
  | .advance => { M with epoch := seq }
  | _ => M

/-- What a thread continues with; `ok` says whether a wait saw its flag. -/
def Pc.next (cfg : Setting) (L : Launch) (M : Memory) (t : ℕ) (ok : Bool) : Pc → Pc
  | load => branch
  | branch => if M.poison = 0 then stage else skipped
  | stage => stageSync
  | stageSync => arriveStage
  | arriveStage =>
    if t = 0 ∧ (M.stage + L.arrivalStep) % L.modulus = 0 then ringBytes else wait (cfg.waits t)
  | ringBytes => ring
  | ring => wait (cfg.waits t)
  | wait [] => waitSync
  | wait (f :: flags) => if ok then wait flags else record 0 f.1 flags
  | record k peer flags => if k < 3 then record (k + 1) peer flags else wait flags
  | waitSync => check
  | check => if M.poison = 0 then data else dataSync
  | data => dataSync
  | dataSync => arriveTail
  | arriveTail => if t = 0 ∧ (M.tail + L.arrivalStep) % L.modulus = 0 then checkFlag else exit
  | checkFlag => if M.flag = 0 then advance else exit
  | advance => exit
  | exit => exit
  | skipped => skipped

structure Thread where
  pc : Pc
  seq : UInt32

def Thread.start : Thread := ⟨.load, 0⟩

/-! ## The runtime -/

/-- A step that has been taken. -/
structure Entry where
  launch : ℕ
  block : ℕ
  thread : ℕ
  op : Pc
  ok : Bool

/-- The runtime. The last three fields record the run: the number of launches that have begun,
the words when the last one began, and the steps taken, the last one first. -/
structure State where
  mem : Memory
  launch : Option Launch
  thread : ℕ → ℕ → Thread
  /-- the launches enqueued -/
  queue : List Launch
  proxyFailed : Bool
  begun : ℕ
  entry : Memory
  trace : List Entry

def State.start : State := ⟨.zero, none, fun _ _ => .start, [], false, 0, .zero, []⟩

/-- The thread has left the kernel. -/
def Pc.Left (pc : Pc) : Prop := pc = exit ∨ pc = skipped

instance (pc : Pc) : Decidable pc.Left := inferInstanceAs (Decidable (_ ∨ _))

/-- Every thread of the current launch has left the kernel. -/
def State.Finished (cfg : Setting) (S : State) : Prop :=
  match S.launch with
  | none => True
  | some L => ∀ b < L.grid, ∀ t < cfg.threads, (S.thread b t).pc.Left

instance (cfg : Setting) (S : State) : Decidable (S.Finished cfg) := by
  unfold State.Finished
  split <;> infer_instance

/-- The barriers of thread `t` of block `b` allow the step. -/
def State.Enabled (cfg : Setting) (S : State) (b t : ℕ) : Prop :=
  (S.thread b t).pc = .stageSync ∨ (S.thread b t).pc = .waitSync ∨
      (S.thread b t).pc = .dataSync →
    ∀ u < cfg.threads, (S.thread b u).pc = .skipped ∨
      (S.thread b t).pc.pos ≤ (S.thread b u).pc.pos

instance (cfg : Setting) (S : State) (b t : ℕ) : Decidable (S.Enabled cfg b t) := by
  unfold State.Enabled
  infer_instance

/-- Thread `t` of block `b` takes a step. -/
def State.exec (cfg : Setting) (S : State) (L : Launch) (b t : ℕ) (ok : Bool) : State :=
  let th := S.thread b t
  let th' : Thread :=
    ⟨th.pc.next cfg L S.mem t ok, if th.pc = .load then S.mem.epoch + 1 else th.seq⟩
  { S with
    mem := S.mem.exec L t th.seq th.pc
    thread := Function.update S.thread b (Function.update (S.thread b) t th')
    trace := ⟨S.begun, b, t, th.pc, ok⟩ :: S.trace }

/-- The next launch begins. -/
def State.begin (S : State) (L : Launch) (queue : List Launch) : State :=
  { S with
    launch := some L
    thread := fun _ _ => .start
    queue := queue
    begun := S.begun + 1
    entry := S.mem }

/-- What `check_health` raises, with the words it reports. -/
inductive HealthError where
  | proxyFailed
  | timedOut (peer seq : UInt32)

/-- `check_health` -/
def State.checkHealth (S : State) : Except HealthError Unit :=
  if S.proxyFailed then .error .proxyFailed
  else if S.mem.flag ≠ 0 then .error (.timedOut S.mem.peer S.mem.error)
  else .ok ()

/-- `check_health` raises. -/
def State.Raises (S : State) : Prop := ∃ e, S.checkHealth = .error e

/-- `all_reduce` and `all_gather` up to the launch: the health check, and the launch unless it
raises. -/
def State.collective (S : State) (L : Launch) : State :=
  match S.checkHealth with
  | .error _ => S
  | .ok () => { S with queue := S.queue ++ [L] }

inductive Action where
  /-- a call of `all_reduce` or `all_gather` -/
  | collective (L : Launch)
  /-- a graph replay, which launches without a health check -/
  | replay (Ls : List Launch)
  | proxyFail
  /-- the next launch begins, after the one before it has finished -/
  | begin
  | thread (b t : ℕ) (ok : Bool)

def step (cfg : Setting) (S : State) : Action → Option State
  | .collective L => some (S.collective L)
  | .replay Ls => some { S with queue := S.queue ++ Ls }
  | .proxyFail => some { S with proxyFailed := true }
  | .begin =>
    match S.queue with
    | [] => none
    | L :: queue => if S.Finished cfg then some (S.begin L queue) else none
  | .thread b t ok =>
    match S.launch with
    | none => none
    | some L =>
      if b < L.grid ∧ t < cfg.threads ∧ ¬(S.thread b t).pc.Left ∧ S.Enabled cfg b t then
        some (S.exec cfg L b t ok)
      else none

/-- The states of the runs of the runtime. -/
abbrev Reachable (cfg : Setting) : State → State → Prop :=
  Transition.Reachable (step cfg) (fun _ _ => True)

/-! ## What a run shows -/

/-- A wait for a flag. -/
def Pc.Waits : Pc → Prop
  | wait (_ :: _) => True
  | _ => False

instance (pc : Pc) : Decidable pc.Waits := by
  unfold Pc.Waits
  split <;> infer_instance

/-- The wait of the step reached its spin limit. -/
def Entry.TimedOut (e : Entry) : Prop := e.ok = false ∧ e.op.Waits

instance (e : Entry) : Decidable e.TimedOut := inferInstanceAs (Decidable (_ ∧ _))

/-- No wait has timed out. -/
def State.Clean (S : State) : Prop := ∀ f ∈ S.trace, ¬f.TimedOut

/-- Thread `t` of block `b` took the step `op` in launch `n`. -/
def Logged (trace : List Entry) (n b t : ℕ) (op : Pc) : Prop :=
  ∃ e ∈ trace, e.launch = n ∧ e.block = b ∧ e.thread = t ∧ e.op = op

/-- How often the step `op` was taken in launch `n`. -/
def executed (n : ℕ) (op : Pc) (trace : List Entry) : ℕ :=
  trace.countP fun e => e.launch = n ∧ e.op = op

/-- In launch `n`, when `op` is taken every thread of every block has taken `earlier`. -/
def Preceded (cfg : Setting) (L : Launch) (n : ℕ) (op earlier : Pc) (trace : List Entry) : Prop :=
  ∀ after e before, trace = after ++ e :: before → e.launch = n → e.op = op →
    ∀ b < L.grid, ∀ t < cfg.threads, Logged before n b t earlier

/-- What a run that has led to `S` guarantees. -/
structure Guarded (cfg : Setting) (S : State) : Prop where
  /-- as long as no wait has timed out, the doorbell is rung once a launch, after every thread of
  every block has staged its share -/
  doorbell : S.Clean → ∀ L, S.launch = some L → executed S.begun .ring S.trace ≤ 1 ∧
    (S.Finished cfg → executed S.begun .ring S.trace = 1) ∧
    Preceded cfg L S.begun .ring .stage S.trace
  /-- and the epoch advances by one, once a launch, after every share has been reduced -/
  advance : S.Clean → ∀ L, S.launch = some L → executed S.begun .advance S.trace ≤ 1 ∧
    (S.Finished cfg → executed S.begun .advance S.trace = 1 ∧
      S.mem.epoch = S.entry.epoch + 1) ∧
    Preceded cfg L S.begun .advance .data S.trace
  /-- once a wait has timed out the epoch stays -/
  epoch : ¬S.Clean → ∀ S', Reachable cfg S S' → S'.mem.epoch = S.mem.epoch
  /-- a launch after one with a time-out stages nothing, rings no doorbell and stores nothing -/
  later : ∀ e ∈ S.trace, e.op = .stage ∨ e.op = .ringBytes ∨ e.op = .ring ∨ e.op = .data →
    ∀ f ∈ S.trace, f.TimedOut → e.launch ≤ f.launch
  /-- a block with a time-out stores no output -/
  output : ∀ e ∈ S.trace, e.op = .data → ∀ f ∈ S.trace, f.TimedOut → e.launch = f.launch →
    e.block ≠ f.block
  /-- the flag of the control record is set when a launch with a time-out has finished -/
  recorded : ¬S.Clean → S.Finished cfg → S.mem.flag ≠ 0
  /-- the health check then reports a peer whose flag a wait did not see, and the sequence number
  after the epoch that stays -/
  reported : S.mem.flag ≠ 0 → S.mem.error = S.mem.epoch + 1 ∧
    ∃ f ∈ S.trace, f.TimedOut ∧ ∃ peer path flags, f.op = .wait ((peer, path) :: flags) ∧
      S.mem.peer = .ofNat peer
  /-- from when it is set the health check raises, and what begins with it launches nothing -/
  health : S.mem.flag ≠ 0 → ∀ S', Reachable cfg S S' → S'.Raises ∧ ∀ L, S'.collective L = S'

end RingArrivals
