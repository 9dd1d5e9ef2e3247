import SparkTP4.Transition
import Mathlib.Data.List.Basic
import Mathlib.Data.Nat.Notation
import Mathlib.Algebra.Group.Nat.Defs

/-!
# The poison and the wrap guard of the collective kernels

The control flow of the one-shot and all-gather kernels (`_oneshot_cute.py`,
`_allgather_cute.py`) and of the two-shot kernel (`_twoshot_cute.py`) on one
rank, with the health check of the runtime (`roce_oneshot.py`).

All threads of a launch run one program. An instruction that the source guards
by the thread or block index does nothing on the other threads; a conditional
or a spin continues with an instruction of its own (`Instr.follow`), so that a
load, its test and the store that depends on it are separate steps, and the
threads of all blocks interleave at every step. The epoch, the sequence numbers
and the counters are 32-bit words and wrap.

What the peers and the proxy write is not part of the state: a wait ends with
the flag it spins on or with the spin limit, as the schedule says. Loads and
stores take effect in the order of the schedule.

A barrier holds a thread back until the threads of its block have reached it. A
thread that found the runtime poisoned has left the body, and neither waits at
a barrier nor is waited for: how a barrier counts such threads is up to the
hardware, and any way of counting them is a restriction of this one.
-/

namespace PoisonGuard

/-! ## The words -/

/-- What a kernel waits for: the payloads of a one-shot or all-gather kernel, or
a chunk of the reduce-scatter or of the all-gather of a two-shot kernel. -/
inductive Part where
  | one
  | rs (c : ℕ)
  | ag (c : ℕ)
  deriving DecidableEq

/-- The arrival counters: for each grid of `2 ^ k` blocks the stage and the tail
counter, and those of the two-shot kernel. -/
inductive Counter where
  | stage (k : ℕ)
  | tail (k : ℕ)
  | pipeStage (c : ℕ)
  | pipeReduce (c : ℕ)
  | pipeTail
  deriving DecidableEq

/-- The words a failure is recorded in. -/
inductive Word where
  | peer
  | hca
  | error
  | poison
  deriving DecidableEq

/-- The words the kernels share. All are zero when the runtime is created. -/
structure Memory where
  epoch : UInt32
  poison : UInt32
  counter : Counter → UInt32
  /-- the sequence number in the control record -/
  doorbell : UInt32
  error : UInt32
  peer : UInt32
  hca : UInt32
  ready : Part → UInt32

def Memory.zero : Memory where
  epoch := 0
  poison := 0
  counter _ := 0
  doorbell := 0
  error := 0
  peer := 0
  hca := 0
  ready _ := 0

def Memory.set (M : Memory) (v : UInt32) : Word → Memory
  | .peer => { M with peer := v }
  | .hca => { M with hca := v }
  | .error => { M with error := v }
  | .poison => { M with poison := v }

def wrapSentinel : UInt32 := 0xFFFFFFFF

/-! ## The launches -/

/-- The runtime on a rank. The grids are powers of two that fit the kernels'
32-bit grid size. -/
structure Setting where
  world : ℕ
  hcas : ℕ
  rank : ℕ
  threads : ℕ
  /-- the largest grid is `2 ^ blocksLog` -/
  blocksLog : ℕ
  pipeLog : ℕ
  maxChunks : ℕ
  threads_pos : 0 < threads
  blocksLog_lt : blocksLog < 32
  pipeLog_lt : pipeLog < 32

/-- A launch, with the logarithm of its grid or its number of chunks. -/
inductive Launch where
  | oneshot (k : ℕ)
  | allGather (k : ℕ)
  | allGatherColumns (k : ℕ)
  | twoshot (chunks : ℕ)
  deriving DecidableEq

namespace Launch

/-- The launches that `_grid_blocks` and `pipe_geometry` allow. -/
def Valid (cfg : Setting) : Launch → Prop
  | oneshot k | allGather k | allGatherColumns k => k ≤ cfg.blocksLog
  | twoshot chunks => chunks ≤ cfg.maxChunks

instance (cfg : Setting) (L : Launch) : Decidable (L.Valid cfg) := by
  unfold Valid
  split <;> infer_instance

def gridLog (cfg : Setting) : Launch → ℕ
  | oneshot k | allGather k | allGatherColumns k => k
  | twoshot _ => cfg.pipeLog

/-- The number of blocks. -/
def grid (cfg : Setting) (L : Launch) : ℕ := 2 ^ L.gridLog cfg

def tail : Launch → Counter
  | oneshot k | allGather k | allGatherColumns k => .tail k
  | twoshot _ => .pipeTail

end Launch

/-! ## The programs -/

/-- The steps of a thread. Those after `setEpoch` stand in no program: they are
what a step continues with. -/
inductive Instr where
  /-- `seq = epoch + 1` -/
  | loadEpoch
  /-- thread 0 records the exhaustion if `seq` is 0 -/
  | wrapGuard
  /-- the barrier of the wrap guard -/
  | wrapSync
  /-- a poisoned runtime skips the body -/
  | branch
  | sync
  /-- the share of the thread of a payload or chunk goes to the send buffer -/
  | stage (c : ℕ)
  /-- thread 0 adds one to the counter -/
  | arrive (ctr : Counter)
  /-- block 0 writes the record of a two-shot operation -/
  | record
  | waitFlags (part : Part)
  /-- `waitFlags` unless poisoned -/
  | waitChunk (part : Part)
  /-- `read` unless poisoned -/
  | data (part : Part)
  | setEpoch
  | ring
  | spin (part : Part) (peer hca : ℕ)
  | read (part : Part)
  | stores (ws : List (Word × UInt32))
  | checkReady (part : Part)
  | publish (part : Part)
  | checkEpoch
  | checkRelease
  | awaitRelease
  deriving DecidableEq

/-- What every kernel begins with. -/
def entryCode : List Instr := [.loadEpoch, .wrapGuard, .wrapSync, .branch]

/-- The body of the one-shot and all-gather kernels, which differ in what they
compute from the packs they read. -/
def slotBody (k : ℕ) : List Instr :=
  [.stage 0, .sync, .arrive (.stage k), .waitFlags .one, .sync, .data .one]

def stageChunk (c : ℕ) : List Instr := [.stage c, .sync, .arrive (.pipeStage c)]

def reduceChunk (c : ℕ) : List Instr :=
  [.waitChunk (.rs c), .sync, .data (.rs c), .sync, .arrive (.pipeReduce c)]

def gatherChunk (c : ℕ) : List Instr := [.waitChunk (.ag c), .sync, .data (.ag c)]

def twoshotBody (chunks : ℕ) : List Instr :=
  .record :: (List.range chunks).flatMap stageChunk ++ (List.range chunks).flatMap reduceChunk ++
    (List.range chunks).flatMap gatherChunk

namespace Launch

def body : Launch → List Instr
  | oneshot k | allGather k | allGatherColumns k => slotBody k
  | twoshot chunks => twoshotBody chunks

def program (L : Launch) : List Instr := entryCode ++ L.body ++ [.sync, .arrive L.tail]

/-- Where a thread goes that finds the runtime poisoned. The tail of the one-shot
and all-gather kernels belongs to what it skips, that of the two-shot kernel
does not. -/
def exit (L : Launch) : ℕ :=
  match L with
  | oneshot _ | allGather _ | allGatherColumns _ => L.program.length
  | twoshot _ => entryCode.length + L.body.length

end Launch

/-! ## The steps of a thread -/

/-- A thread of a launch: its position in the program, the rest of the
instruction it is in, and its sequence number. -/
structure Thread where
  pc : ℕ
  todo : Option Instr
  seq : UInt32
  /-- it found the runtime poisoned -/
  skipped : Bool

def Thread.start : Thread := ⟨0, none, 0, false⟩

/-- What the thread executes next. -/
def Thread.current (th : Thread) (program : List Instr) : Option Instr :=
  match th.todo with
  | some i => some i
  | none => program[th.pc]?

/-- The instruction continues with `todo`, or is over. -/
def Thread.proceed (th : Thread) : Option Instr → Thread
  | some i => { th with todo := some i }
  | none => { th with pc := th.pc + 1, todo := none }

/-- The words the wrap guard stores. -/
def wrapStores : List (Word × UInt32) :=
  [(.peer, wrapSentinel), (.hca, wrapSentinel), (.error, wrapSentinel), (.poison, wrapSentinel)]

/-- The words a wait for a peer stores at its spin limit. -/
def waitStores (peer hca : ℕ) (seq : UInt32) : List (Word × UInt32) :=
  [(.peer, .ofNat peer), (.hca, .ofNat hca), (.error, seq), (.poison, seq)]

/-- The words the wait for the proxy stores at its spin limit. -/
def releaseStores (rank : ℕ) (seq : UInt32) : List (Word × UInt32) :=
  [(.peer, .ofNat rank), (.error, seq), (.poison, seq)]

/-- The wait of the thread for its flag, if it has one: a thread for each peer
and HCA. -/
def Setting.wait (cfg : Setting) (t : ℕ) (part : Part) : Option Instr :=
  if t < cfg.world * cfg.hcas ∧ t / cfg.hcas ≠ cfg.rank then
    some (.spin part (t / cfg.hcas) (t % cfg.hcas))
  else none

/-- What the last block to arrive does. -/
def Counter.onLast : Counter → Instr
  | .stage _ => .ring
  | .tail _ => .checkEpoch
  | .pipeStage c => .checkReady (.rs c)
  | .pipeReduce c => .checkReady (.ag c)
  | .pipeTail => .checkRelease

/-- The store or atomic operation of a step. -/
def Memory.exec (M : Memory) (t : ℕ) (seq : UInt32) : Instr → Memory
  | .arrive ctr =>
    if t = 0 then { M with counter := Function.update M.counter ctr (M.counter ctr + 1) } else M
  | .stores ((w, v) :: _) => M.set v w
  | .ring => { M with doorbell := seq }
  | .publish part => { M with ready := Function.update M.ready part seq }
  | .setEpoch => { M with epoch := seq }
  | _ => M

/-- What the thread `t` of block `b` continues with after a step; `ok` says
whether a spin saw the word it waits for. -/
def Instr.follow (cfg : Setting) (L : Launch) (M : Memory) (b t : ℕ) (seq : UInt32) (ok : Bool) :
    Instr → Option Instr
  | wrapGuard => if seq = 0 ∧ t = 0 then some (stores wrapStores) else none
  | arrive ctr =>
    if t = 0 ∧ (M.counter ctr + 1) % UInt32.ofNat (L.grid cfg) = 0 then some ctr.onLast else none
  | record => if b = 0 ∧ t = 0 then some ring else none
  | waitFlags part => cfg.wait t part
  | waitChunk part => if M.poison = 0 then cfg.wait t part else none
  | data part => if M.poison = 0 then some (read part) else none
  | spin _ peer hca => if ok then none else some (stores (waitStores peer hca seq))
  | stores (_ :: w :: ws) => some (stores (w :: ws))
  | checkReady part => if M.error = 0 then some (publish part) else none
  | checkEpoch => if M.error = 0 then some setEpoch else none
  | checkRelease => if M.error = 0 then some awaitRelease else none
  | awaitRelease => if ok then some setEpoch else some (stores (releaseStores cfg.rank seq))
  | _ => none

/-- The registers of the thread after a step. -/
def Thread.exec (cfg : Setting) (L : Launch) (M : Memory) (b t : ℕ) (ok : Bool) (th : Thread) :
    Instr → Thread
  | .loadEpoch => { th.proceed none with seq := M.epoch + 1 }
  | .branch =>
    if M.poison = 0 then th.proceed none else { th with pc := L.exit, skipped := true }
  | i => th.proceed (i.follow cfg L M b t th.seq ok)

/-! ## The runtime -/

/-- A step that has been taken, with the sequence number of the thread and the
error word at that moment. -/
structure Entry where
  launch : ℕ
  block : ℕ
  thread : ℕ
  op : Instr
  ok : Bool
  seq : UInt32
  error : UInt32

/-- The runtime. The last three fields record the run: the number of launches
that have begun, the words when the last one began, and the steps taken. -/
structure State where
  mem : Memory
  launch : Option Launch
  thread : ℕ → ℕ → Thread
  /-- the launches enqueued -/
  queue : List Launch
  /-- `_seq_exhausted` -/
  exhausted : Bool
  proxyFailed : Bool
  begun : ℕ
  entry : Memory
  trace : List Entry

def State.start : State where
  mem := .zero
  launch := none
  thread _ _ := .start
  queue := []
  exhausted := false
  proxyFailed := false
  begun := 0
  entry := .zero
  trace := []

/-- Every thread of the current launch has left the kernel. -/
def State.Finished (cfg : Setting) (S : State) : Prop :=
  match S.launch with
  | none => True
  | some L => ∀ b < L.grid cfg, ∀ t < cfg.threads, L.program.length ≤ (S.thread b t).pc

instance (cfg : Setting) (S : State) : Decidable (S.Finished cfg) := by
  unfold State.Finished
  split <;> infer_instance

/-- Thread `t` of block `b` may leave the barrier it is at. -/
def State.Passes (cfg : Setting) (S : State) (b t : ℕ) : Prop :=
  (S.thread b t).skipped ∨
    ∀ u < cfg.threads, (S.thread b u).skipped ∨ (S.thread b t).pc ≤ (S.thread b u).pc

instance (cfg : Setting) (S : State) (b t : ℕ) : Decidable (S.Passes cfg b t) := by
  unfold State.Passes
  infer_instance

/-- The barriers of thread `t` of block `b` allow the step. -/
def State.Enabled (cfg : Setting) (S : State) (b t : ℕ) : Instr → Prop
  | .sync => S.Passes cfg b t
  | .wrapSync => (S.thread b t).seq = 0 → S.Passes cfg b t
  | _ => True

instance (cfg : Setting) (S : State) (b t : ℕ) (i : Instr) : Decidable (S.Enabled cfg b t i) := by
  unfold State.Enabled
  split <;> infer_instance

/-- Thread `t` of block `b` executes `i`. -/
def State.exec (cfg : Setting) (S : State) (L : Launch) (b t : ℕ) (ok : Bool) (i : Instr) : State :=
  let th := (S.thread b t).exec cfg L S.mem b t ok i
  { S with
    mem := S.mem.exec t (S.thread b t).seq i
    thread := Function.update S.thread b (Function.update (S.thread b) t th)
    trace := ⟨S.begun, b, t, i, ok, th.seq, S.mem.error⟩ :: S.trace }

/-- The next launch begins. -/
def State.begin (S : State) (L : Launch) (queue : List Launch) : State :=
  { S with
    launch := some L
    thread := fun _ _ => .start
    queue := queue
    begun := S.begun + 1
    entry := S.mem }

/-! ## The health check -/

def sequenceGuard : UInt32 := 0xFFFFFFFF - 0x100000

/-- What `check_health` raises, with the words it reports. -/
inductive HealthError where
  | proxyFailed
  | wrapGuard (seq : UInt32)
  | sequenceZero
  | timedOut (peer hca seq : UInt32)
  deriving DecidableEq

/-- `check_health`: what it raises, and `_seq_exhausted` after it. -/
def State.checkHealth (S : State) : Except HealthError Unit × Bool :=
  if S.proxyFailed then (.error .proxyFailed, S.exhausted)
  else if S.exhausted ∨ sequenceGuard ≤ S.mem.doorbell then
    (.error (.wrapGuard S.mem.doorbell), true)
  else if S.mem.error = wrapSentinel ∧ S.mem.peer = wrapSentinel then (.error .sequenceZero, true)
  else if S.mem.error ≠ 0 then
    (.error (.timedOut S.mem.peer S.mem.hca S.mem.error), S.exhausted)
  else (.ok (), S.exhausted)

/-- `check_health` raises. -/
def State.Raises (S : State) : Prop := ∃ e, S.checkHealth.1 = .error e

/-- `all_reduce` and `all_gather` up to the launch: the health check, and the
launch unless it raises. -/
def State.collective (S : State) (L : Launch) : Except HealthError Unit × State :=
  match S.checkHealth with
  | (.error e, exhausted) => (.error e, { S with exhausted := exhausted })
  | (.ok (), exhausted) => (.ok (), { S with exhausted := exhausted, queue := S.queue ++ [L] })

/-! ## The steps -/

inductive Action where
  /-- a call of `all_reduce` or `all_gather` -/
  | collective (L : Launch)
  /-- a graph replay, which launches without a health check -/
  | replay (Ls : List Launch)
  | checkHealth
  | proxyFail
  /-- the next launch begins, after the one before it has finished -/
  | begin
  | thread (b t : ℕ) (ok : Bool)

def step (cfg : Setting) (S : State) : Action → Option State
  | .collective L => if L.Valid cfg then some (S.collective L).2 else none
  | .replay Ls =>
    if ∀ L ∈ Ls, L.Valid cfg then some { S with queue := S.queue ++ Ls } else none
  | .checkHealth => some { S with exhausted := S.checkHealth.2 }
  | .proxyFail => some { S with proxyFailed := true }
  | .begin =>
    match S.queue with
    | [] => none
    | L :: queue => if S.Finished cfg then some (S.begin L queue) else none
  | .thread b t ok =>
    match S.launch with
    | none => none
    | some L =>
      match (S.thread b t).current L.program with
      | none => none
      | some i =>
        if (b < L.grid cfg ∧ t < cfg.threads) ∧ S.Enabled cfg b t i then
          some (S.exec cfg L b t ok i)
        else none

/-! ## What a run shows -/

/-- The step stages a payload, rings the doorbell, reads a flag or a receive
buffer, or stores a ready word or the epoch. -/
def Instr.Touches : Instr → Prop
  | stage _ | ring | spin .. | read _ | publish _ | setEpoch => True
  | _ => False

/-- The step spins on a word that a peer or the proxy writes. -/
def Instr.Waits : Instr → Prop
  | spin .. | awaitRelease => True
  | _ => False

/-- The wait of the step reached its spin limit. -/
def Entry.TimedOut (e : Entry) : Prop := e.ok = false ∧ e.op.Waits

/-- A wait timed out, or the launch saw the sequence number 0. -/
def Entry.Failed (e : Entry) : Prop := e.TimedOut ∨ e.seq = 0

/-- Thread `t` of block `b` took the step `op` in launch `n`. -/
def Logged (trace : List Entry) (n b t : ℕ) (op : Instr) : Prop :=
  ∃ e ∈ trace, e.launch = n ∧ e.block = b ∧ e.thread = t ∧ e.op = op

/-- The states of the runs of the runtime. -/
abbrev Reachable (cfg : Setting) : State → State → Prop :=
  Transition.Reachable (step cfg) (fun _ _ => True)

end PoisonGuard
