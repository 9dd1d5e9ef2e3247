import SparkTP4.Transition
import Mathlib.Algebra.BigOperators.Group.Finset.Basic
import Mathlib.Data.Fintype.Basic

/-!
# The thread pool of the row store

`Pool` of `row_store.cpp`: `run` hands a job to the workers, which take its chunks
by ticket together with the caller. A step is a region under `mutex_`, an atomic
operation, the read of `chunks_` between two of them, or one call of `serve`; a
thread blocked in a condition variable goes on only when it is notified or wakes
spuriously.

There is one pool and it is never destroyed, so `stop_` is left out. The counters
are unbounded here; `next_` stays within the chunks and the threads
(`Counts.next_le`).
-/

namespace Pool

/-- `kChunk`, the ids of a ticket. -/
def kChunk : ℕ := 1

/-- The position of a thread in `drain`. -/
inductive Drain where
  /-- before `next_.fetch_add` -/
  | take
  /-- before the ticket is compared with `chunks_` -/
  | test (ticket : ℕ)
  | serve (ticket : ℕ)
  /-- before `remaining_.fetch_sub` -/
  | sub
  /-- before `done_.notify_one` -/
  | notify
  deriving DecidableEq

/-- Who has called `drain`, with the number of the job whose `Work` it passes: a
worker, with its `seen`, or the caller of `run`. -/
inductive Frame where
  | worker (seen job : ℕ)
  | caller (job : ℕ)
  deriving DecidableEq

def Frame.job : Frame → ℕ
  | worker _ j | caller j => j

/-- What a thread does next. -/
inductive Pc (W : Type) where
  /-- a worker in `ready_.wait` -/
  | await (seen : ℕ)
  /-- a worker after `drain` -/
  | leave (seen job : ℕ)
  /-- a thread that does not call `run` -/
  | idle
  /-- `run` before it has `caller_` -/
  | lock (work : W)
  | set (work : W)
  /-- before `ready_.notify_all` -/
  | ready (job : ℕ)
  /-- the caller in `done_.wait` -/
  | wait (job : ℕ)
  /-- before `caller_` is released -/
  | unlock (job : ℕ)
  | drain (frame : Frame) (at_ : Drain)

/-- Where `drain` returns to. -/
def Frame.back {W : Type} : Frame → Pc W
  | worker seen j => .leave seen j
  | caller j => .wait j

variable {W T : Type}

/-- The members of the pool. A job is numbered by its place among the calls of
`run`; `ready` and `done` are the threads blocked in the condition variables. -/
structure Mem (W T : Type) where
  /-- the thread that has `caller_` -/
  lock : Option T
  job : Option ℕ
  next : ℕ
  chunks : ℕ
  remaining : ℕ
  active : ℕ
  generation : ℕ
  ready : Finset T
  done : Finset T
  /-- record of the run: the `Work` of each job, the chunks passed to `serve` with
  the job whose `Work` it was, and the jobs that `run` has returned from -/
  works : List W
  served : List (ℕ × ℕ)
  returned : List ℕ

structure State (W T : Type) where
  mem : Mem W T
  pc : T → Pc W

def State.start (worker : T → Bool) : State W T where
  mem := ⟨none, none, 0, 0, 0, 0, 0, ∅, ∅, [], [], []⟩
  pc t := if worker t then .await 0 else .idle

section Step

variable [DecidableEq T] (count : W → ℕ)

def chunksOf (work : W) : ℕ := (count work + kChunk - 1) / kChunk

/-- `done_.notify_one` wakes the thread `pick`, or nobody if nobody is blocked. -/
def Mem.notifyOne (M : Mem W T) : Option T → Option (Mem W T)
  | some t => if t ∈ M.done then some { M with done := M.done.erase t } else none
  | none => if M.done = ∅ then some M else none

/-- A step of `drain` with the `Work` of job `j`: the memory, and the next position
unless it returns. -/
def Mem.drain (M : Mem W T) (j : ℕ) (pick : Option T) : Drain → Option (Mem W T × Option Drain)
  | .take => some ({ M with next := M.next + 1 }, some (.test M.next))
  | .test k => some (M, if M.chunks ≤ k then none else some (.serve k))
  | .serve k => some ({ M with served := (j, k) :: M.served }, some .sub)
  | .sub =>
    some ({ M with remaining := M.remaining - 1 },
      some (if M.remaining = 1 then .notify else .take))
  | .notify => (M.notifyOne pick).map fun M => (M, some .take)

/-- The region in which a worker of `ready_.wait` looks for a job. -/
def Mem.await (M : Mem W T) (t : T) (seen : ℕ) : Mem W T × Pc W :=
  if M.generation = seen then ({ M with ready := insert t M.ready }, .await seen)
  else
    match M.job with
    | none => (M, .await M.generation)
    | some j => ({ M with active := M.active + 1 }, .drain (.worker M.generation j) .take)

/-- The region in which `run` sets the job up. -/
def Mem.set (M : Mem W T) (work : W) : Mem W T :=
  { M with
    job := some M.works.length
    next := 0
    chunks := chunksOf count work
    remaining := chunksOf count work
    generation := M.generation + 1
    works := M.works ++ [work] }

/-- The region in which `run` waits for its job. -/
def Mem.wait (M : Mem W T) (t : T) (j : ℕ) : Mem W T × Pc W :=
  if M.remaining = 0 ∧ M.active = 0 then ({ M with job := none }, .unlock j)
  else ({ M with done := insert t M.done }, .wait j)

def State.move (S : State W T) (t : T) (r : Mem W T × Pc W) : State W T :=
  ⟨r.1, Function.update S.pc t r.2⟩

/-- The next step of thread `t`. -/
def State.thread (S : State W T) (t : T) (pick : Option T) : Option (State W T) :=
  match S.pc t with
  | .await seen => if t ∈ S.mem.ready then none else some (S.move t (S.mem.await t seen))
  | .leave seen _ =>
    ({ S.mem with active := S.mem.active - 1 }.notifyOne pick).map fun M =>
      S.move t (M, .await seen)
  | .idle => none
  | .lock work =>
    if S.mem.lock = none then some (S.move t ({ S.mem with lock := some t }, .set work)) else none
  | .set work => some (S.move t (S.mem.set count work, .ready S.mem.works.length))
  | .ready j => some (S.move t ({ S.mem with ready := ∅ }, .drain (.caller j) .take))
  | .wait j => if t ∈ S.mem.done then none else some (S.move t (S.mem.wait t j))
  | .unlock j =>
    some (S.move t ({ S.mem with lock := none, returned := j :: S.mem.returned }, .idle))
  | .drain frame d =>
    (S.mem.drain frame.job pick d).map fun r =>
      S.move t (r.1, match r.2 with | some d => .drain frame d | none => frame.back)

inductive Action (W T : Type) where
  /-- thread `t` calls `run` -/
  | call (t : T) (work : W)
  /-- the next step of thread `t`; a notification goes to the thread `pick` -/
  | thread (t : T) (pick : Option T)
  /-- thread `t` wakes up without a notification -/
  | spurious (t : T)

def step (S : State W T) : Action W T → Option (State W T)
  | .call t work =>
    match S.pc t with
    | .idle => some (S.move t (S.mem, .lock work))
    | _ => none
  | .thread t pick => S.thread count t pick
  | .spurious t =>
    some { S with mem :=
      { S.mem with ready := S.mem.ready.erase t, done := S.mem.done.erase t } }

abbrev Reachable (worker : T → Bool) : State W T → Prop :=
  Transition.Reachable (step count) (fun _ _ => True) (.start worker)

end Step

end Pool
