import SparkTP4.Transition
import Mathlib.Data.Nat.Notation
import Mathlib.Logic.Function.Basic
import Mathlib.Algebra.Group.Nat.Defs

/-!
# The idle park of the RoCE proxy

The proxy thread of a rank (`proxy_main` in `_roce_proxy.c` with the idle park of
`_roce_idle_park.h`) and the threads of the engine that call `roce_park_allow`,
`roce_park_wake` and `roce_stop`. Every load and store of a shared word is a step
of its own, so the calls of any number of threads interleave with the proxy at
every point.

The futex word is the number of bumps modulo `2 ^ 32`; `FUTEX_WAIT` compares and
blocks in one step, and a blocked proxy is released by a `FUTEX_WAKE`, by a
signal or at its time limit. Clock readings, the outcome of posts and drains,
and the doorbells of the kernels come with the schedule. The clock values that
are only kept for the statistics are left out.
-/

namespace IdlePark

/-- What `roce_park_block` returns. -/
inductive Why where
  | woken
  | doorbell
  | stopped
  deriving DecidableEq

/-- What the proxy does next. -/
inductive Pc where
  /-- the condition of the loop of `proxy_main` -/
  | top
  | poll
  | drain
  /-- `roce_park_due` -/
  | due
  | outstanding
  | post
  /-- `roce_park_block` begins -/
  | enter
  /-- the load of the generation before the loop -/
  | gen0
  /-- the loop of `roce_park_block`, load by load -/
  | gen
  | allow
  | doorbell
  | gen1
  | running
  | wait
  | blocked
  | timedOut
  | leave (why : Why)
  | exited (failed : Bool)
  deriving DecidableEq

/-- The proxy is in `roce_park_block`. -/
def Pc.InPark : Pc → Prop
  | enter | gen0 | gen | allow | doorbell | gen1 | running | wait | blocked | timedOut
  | leave _ => True
  | _ => False

/-- How far a call of an engine thread has come. `start` is the number of bumps
when it began and `bump` that after its own; `allows` is the number of
`roce_park_allow` when it cleared `allow`. -/
inductive Call where
  | none
  /-- `roce_park_wake` is about to clear `allow` -/
  | clear (start : ℕ)
  /-- `roce_stop` is about to clear `running` -/
  | exchange (start : ℕ)
  | bump (stop : Bool) (start allows : ℕ)
  | wake (stop : Bool) (start allows bump : ℕ)
  | join (start bump : ℕ)

/-- A call that has returned; a `roce_stop` that finds the proxy already stopped
returns without a bump. -/
structure Return where
  stop : Bool
  start : ℕ
  allows : ℕ
  bump : Option ℕ

structure State where
  allow : Bool
  /-- the number of bumps -/
  gen : ℕ
  after : UInt64
  running : Bool
  /-- the sequence number in the control record -/
  seq : UInt32
  /-- the proxy -/
  pc : Pc
  idle : ℕ
  since : UInt64
  seen : UInt32
  lastSeq : UInt32
  g0 : ℕ
  g : ℕ
  /-- the writes posted and not completed -/
  writes : ℕ
  parks : ℕ
  wakes : ℕ
  timeouts : ℕ
  late : ℕ
  /-- the threads of the engine -/
  call : ℕ → Call
  /-- record of the run: the `roce_park_allow`, the calls that have returned, and
  the returns of `roce_park_block` -/
  allows : ℕ
  returned : List Return
  returns : ℕ

/-- `roce_start` has run. -/
def State.start : State where
  allow := false
  gen := 0
  after := 0
  running := true
  seq := 0
  pc := .top
  idle := 0
  since := 0
  seen := 0
  lastSeq := 0
  g0 := 0
  g := 0
  writes := 0
  parks := 0
  wakes := 0
  timeouts := 0
  late := 0
  call _ := .none
  allows := 0
  returned := []
  returns := 0

/-! ## The proxy -/

def roceSlots : UInt32 := 2

/-- The futex word after `n` bumps. -/
def word (n : ℕ) : ℕ := n % 2 ^ 32

/-- `roce_park_due` at the clock value `now`: the new `since_ns`, and whether it is
time to park. -/
def State.due (S : State) (now : UInt64) : UInt64 × Bool :=
  let since := if S.idle = 64 ∨ S.allow = false then 0 else S.since
  if S.allow = false ∨ S.after = 0 then (since, false)
  else if since = 0 then (now, false)
  else (since, S.after ≤ now - since)

/-- A step of the proxy: the clock reads `now`, what it posts or drains succeeds or
not, and `n` writes are posted or complete. -/
def State.proxy (S : State) (now : UInt64) (ok : Bool) (n : ℕ) : Option State :=
  match S.pc with
  | .top => some { S with pc := if S.running then .poll else .exited false }
  | .poll =>
    if S.seq = S.lastSeq then
      some { S with idle := S.idle + 1, pc := if (S.idle + 1) % 64 = 0 then .drain else .top }
    else some { S with idle := 0, seen := S.seq, pc := .post }
  | .drain =>
    if ok then some { S with writes := S.writes - n, pc := .due }
    else some { S with pc := .exited true }
  | .due =>
    some { S with since := (S.due now).1, pc := if (S.due now).2 then .outstanding else .top }
  | .outstanding => some { S with pc := if S.writes = 0 then .enter else .top }
  | .post =>
    if ok ∧ S.seen - S.lastSeq ≤ roceSlots then
      some { S with writes := S.writes + n, lastSeq := S.seen, pc := .top }
    else some { S with pc := .exited true }
  | .enter => some { S with parks := S.parks + 1, pc := .gen0 }
  | .gen0 => some { S with g0 := S.gen, pc := .gen }
  | .gen => some { S with g := S.gen, pc := .allow }
  | .allow => some { S with pc := if S.allow then .doorbell else .leave .woken }
  | .doorbell => some { S with pc := if S.seq = S.lastSeq then .running else .gen1 }
  | .gen1 =>
    some { S with pc := if word S.gen = word S.g0 then .leave .doorbell else .leave .woken }
  | .running => some { S with pc := if S.running then .wait else .leave .stopped }
  | .wait => some { S with pc := if word S.gen = word S.g then .blocked else .gen }
  | .blocked => none
  | .timedOut =>
    let S := { S with timeouts := S.timeouts + 1 }
    if ok then some { S with writes := S.writes - n, pc := .gen }
    else some { S with returns := S.returns + 1, pc := .exited true }
  | .leave why =>
    let S := { S with since := 0, idle := 0, returns := S.returns + 1, pc := .top }
    match why with
    | .woken => some { S with wakes := S.wakes + 1 }
    | .doorbell => some { S with late := S.late + 1 }
    | .stopped => some S
  | .exited _ => none

/-! ## The engine -/

/-- A `FUTEX_WAKE` releases the proxy. -/
def Pc.wakeup : Pc → Pc
  | blocked => gen
  | pc => pc

/-- The next step of the call of thread `t`. -/
def State.engine (S : State) (t : ℕ) : Option State :=
  match S.call t with
  | .none => none
  | .clear start =>
    some { S with allow := false, call := Function.update S.call t (.bump false start S.allows) }
  | .exchange start =>
    if S.running then
      some { S with running := false, call := Function.update S.call t (.bump true start S.allows) }
    else
      some { S with
        call := Function.update S.call t .none
        returned := ⟨true, start, S.allows, none⟩ :: S.returned }
  | .bump stop start allows =>
    some { S with
      gen := S.gen + 1
      call := Function.update S.call t (.wake stop start allows (S.gen + 1)) }
  | .wake stop start allows bump =>
    if stop then
      some { S with
        pc := S.pc.wakeup
        call := Function.update S.call t (.join start bump) }
    else
      some { S with
        pc := S.pc.wakeup
        call := Function.update S.call t .none
        returned := ⟨false, start, allows, some bump⟩ :: S.returned }
  | .join start bump =>
    if S.pc = .exited true ∨ S.pc = .exited false then
      some { S with
        call := Function.update S.call t .none
        returned := ⟨true, start, S.allows, some bump⟩ :: S.returned }
    else none

/-! ## The steps -/

inductive Action where
  /-- `roce_park_configure` -/
  | configure (after : UInt64)
  /-- `roce_park_allow`, a single store -/
  | allow
  /-- thread `t` calls `roce_park_wake` -/
  | callWake (t : ℕ)
  /-- thread `t` calls `roce_stop` -/
  | callStop (t : ℕ)
  /-- the next step of the call of thread `t` -/
  | engine (t : ℕ)
  /-- a kernel rings the doorbell -/
  | ring
  | proxy (now : UInt64) (ok : Bool) (n : ℕ)
  /-- the time limit of `FUTEX_WAIT` -/
  | timeout
  /-- `FUTEX_WAIT` is interrupted -/
  | signal

/-- The doorbells that ring while the proxy is away do not come round to the last
sequence number it has posted: no kernel gets that far without it. -/
def step (S : State) : Action → Option State
  | .configure after => some { S with after := after }
  | .allow => some { S with allow := true, allows := S.allows + 1 }
  | .callWake t =>
    match S.call t with
    | .none => some { S with call := Function.update S.call t (.clear S.gen) }
    | _ => none
  | .callStop t =>
    match S.call t with
    | .none => some { S with call := Function.update S.call t (.exchange S.gen) }
    | _ => none
  | .engine t => S.engine t
  | .ring => if S.seq + 1 ≠ S.lastSeq then some { S with seq := S.seq + 1 } else none
  | .proxy now ok n => S.proxy now ok n
  | .timeout => if S.pc = .blocked then some { S with pc := .timedOut } else none
  | .signal => if S.pc = .blocked then some { S with pc := .gen } else none

/-- Fewer than `2 ^ 32` bumps come between the load of the generation and the wait
for it. -/
def InTime (S : State) : Action → Prop
  | .proxy .. => S.pc = .wait → S.gen < S.g + 2 ^ 32
  | _ => True

instance (S : State) (a : Action) : Decidable (InTime S a) := by
  unfold InTime
  split <;> infer_instance

abbrev Reachable : State → State → Prop := Transition.Reachable step InTime

/-- A step of the proxy. -/
def Action.IsProxy : Action → Prop
  | proxy .. => True
  | _ => False

instance : DecidablePred Action.IsProxy := fun a => by
  unfold Action.IsProxy
  split <;> infer_instance

/-- The proxy returns from `roce_park_block` with its next `n` steps at the latest,
and does not block before it does, whatever the others do within `ok`. -/
def LeavesWithin (ok : Action → Prop) (n : ℕ) (S : State) : Prop :=
  ∀ as S', Transition.run step S as = some S' →
    Transition.AllowedRun step (fun S a => InTime S a ∧ ok a) S as →
      S.returns < S'.returns ∨ S'.pc ≠ .blocked ∧ as.countP (fun a => a.IsProxy) < n

end IdlePark
