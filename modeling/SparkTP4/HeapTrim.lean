import SparkTP4.Transition
import Mathlib.Algebra.Order.Field.Rat
import Mathlib.Logic.Function.Basic

/-!
# The heap trimmer of the tokenizer manager

`Trimmer` of `adapter/heap_trim2.py` gives the free heap of glibc back, by `malloc_trim(0)`.
A poll thread decides in `step`; a trim that is due runs on the thread that ends the last
tokenization in flight (`Activity.exit`, then `gap`). Both go through `_trim`, under
`Trimmer._lock`. The threads share the fields of `Activity` and `Trimmer`, and every read and
every write of a field is a step of its own: the poll thread and the tokenizing threads
interleave at every point, and the poll thread may be held up between what it has read and
the lock. What `Activity._lock` guards is one step.

The readings of `RssAnon`, of the free bytes, of the performance counter and of the detokenized
output come with the schedule. Seconds and milliseconds are exact numbers. The receipts and
the counters that they print are left out; no decision reads them.
-/

namespace HeapTrim

/-- The settings that `Config` accepts. -/
structure Config where
  idleS : ℚ
  minBytes : ℤ
  minIntervalS : ℚ
  maxBusyS : ℚ
  infoEveryS : ℚ
  budgetMs : ℚ
  maxDeferS : ℚ
  msPerGib : ℚ
  nonneg : ∀ v ∈ [idleS, minIntervalS, maxBusyS, infoEveryS, budgetMs, maxDeferS, msPerGib], 0 ≤ v
  minBytes_pos : 0 < minBytes

/-- What `step` and `_trim` return. -/
inductive Verdict where
  | nohook
  | interval
  | busy
  | due
  | small
  | defer
  | abort
  | trim
  | forced
  | busytrim
  deriving DecidableEq

/-- The `how` of a trim. -/
inductive How where
  | trim
  | forced
  | busytrim
  deriving DecidableEq

def How.verdict : How → Verdict
  | .trim => .trim
  | .forced => .forced
  | .busytrim => .busytrim

/-- A call of `malloc_trim` starts or ends. -/
inductive Event where
  | started (t : ℚ)
  | ended (t : ℚ)
  deriving DecidableEq

/-- Who holds `Trimmer._lock`. -/
inductive Holder (ι : Type) where
  | poll
  | gap (i : ι)
  deriving DecidableEq

variable {ι : Type}

/-- The fields of `Activity` and `Trimmer`, and the clock. -/
structure Shared (ι : Type) where
  clock : ℚ
  /-- `act.hooks` is not empty -/
  hooks : Bool
  inflight : ℤ
  last : ℚ
  msPerGib : ℚ
  r0 : ℤ
  f0 : ℤ
  lastTrim : Option ℚ
  lastInfo : Option ℚ
  deferredSince : Option ℚ
  busySince : Option ℚ
  dueSince : Option ℚ
  lock : Option (Holder ι)
  /-- record: the calls of `malloc_trim`, the last one first -/
  calls : List Event

/-- What a step reads outside the shared fields. -/
structure Reading where
  /-- `rss_kb()` -/
  rss : ℤ
  /-- `free_bytes()` -/
  free : ℤ
  /-- `outputs_quiet(idle_s)` -/
  outputsQuiet : Bool
  /-- the milliseconds of the call -/
  ms : ℚ

/-- `Activity.quiet` -/
def Shared.quiet (s : Shared ι) (idleS : ℚ) : Bool := s.inflight = 0 ∧ idleS ≤ s.clock - s.last

/-- `Activity.between` -/
def Shared.between (s : Shared ι) : Bool := s.inflight = 0

/-! ## `_trim` -/

/-- What `_trim` has read when it stores the outcome of the call. -/
structure Outcome where
  how : How
  r : ℤ
  f : ℤ
  ms : ℚ
  r1 : ℤ
  now : ℚ

/-- What the holder of the lock does next. -/
inductive Held where
  /-- `gap` reads the due mark once more -/
  | due
  | rss (how : How) (waitGap : Bool)
  | free (how : How) (waitGap : Bool) (r : ℤ)
  | check (how : How) (waitGap : Bool) (r f : ℤ)
  | clearBusy
  | clearDue
  | between (how : How) (r f : ℤ)
  | call (how : How) (r f : ℤ)
  | calling (how : How) (r f : ℤ)
  | returned (how : How) (r f : ℤ) (ms : ℚ)
  | now (how : How) (r f : ℤ) (ms : ℚ) (r1 : ℤ)
  /-- the stores after the call, one by one -/
  | storeR0 (o : Outcome)
  | storeF0 (o : Outcome)
  | storeDeferred (o : Outcome)
  | storeBusy (o : Outcome)
  | storeLast (o : Outcome)
  | storeDue (o : Outcome)
  | learn (o : Outcome)
  /-- the lock is about to be released -/
  | done (v : Option Verdict)

/-- `_trim` begins: a caller that has no readings yet leaves them to it. -/
def Held.enter (how : How) (waitGap : Bool) : Option (ℤ × ℤ) → Held
  | none => .rss how waitGap
  | some (r, f) => .check how waitGap r f

/-- The cost per GiB, learned from a trim that has returned at least 64 MiB. -/
def learnMsPerGib (msPerGib : ℚ) (o : Outcome) : ℚ :=
  let backKb := max 0 (o.r - o.r1)
  if 64 * 1024 ≤ backKb then msPerGib / 2 + o.ms / (backKb / 2 ^ 20) / 2 else msPerGib

variable (cfg : Config)

/-- **A step under the lock.** -/
def Held.step (s : Shared ι) (x : Reading) : Held → Shared ι × Held
  | .due => (s, if s.dueSince = none then .done none else .enter .busytrim true none)
  | .rss how waitGap => (s, .free how waitGap x.rss)
  | .free how waitGap r => (s, .check how waitGap r x.free)
  | .check how waitGap r f =>
    (s, if how ≠ .busytrim then .call how r f
      else if f < cfg.minBytes then .clearBusy
      else if waitGap then .between how r f
      else .call how r f)
  | .clearBusy => ({ s with busySince := none }, .clearDue)
  | .clearDue => ({ s with dueSince := none }, .done (some .small))
  | .between how r f => (s, if s.between then .call how r f else .done (some .abort))
  | .call how r f => ({ s with calls := .started s.clock :: s.calls }, .calling how r f)
  | .calling how r f => ({ s with calls := .ended s.clock :: s.calls }, .returned how r f x.ms)
  | .returned how r f ms => (s, .now how r f ms x.rss)
  | .now how r f ms r1 => (s, .storeR0 ⟨how, r, f, ms, r1, s.clock⟩)
  | .storeR0 o => ({ s with r0 := o.r1 }, .storeF0 o)
  | .storeF0 o => ({ s with f0 := o.f }, .storeDeferred o)
  | .storeDeferred o => ({ s with deferredSince := none }, .storeBusy o)
  | .storeBusy o => ({ s with busySince := none }, .storeLast o)
  | .storeLast o => ({ s with lastTrim := some o.now }, .storeDue o)
  | .storeDue o => ({ s with dueSince := none }, .learn o)
  | .learn o => ({ s with msPerGib := learnMsPerGib s.msPerGib o }, .done (some o.how.verdict))
  | .done v => (s, .done v)

/-! ## `step` -/

/-- What a step has decided about the interval: when, and from which `last_trim`. -/
structure Decision where
  now : ℚ
  /-- record: the `last_trim` that it has read -/
  seen : Option ℚ
  inInterval : Bool

/-- What the poll thread does next. -/
inductive Poll where
  /-- between two steps, with what the last one has returned -/
  | waiting (v : Option Verdict)
  | clock
  /-- the two reads of `last_trim` -/
  | lastTrim (now : ℚ)
  | interval (now : ℚ)
  | gate (d : Decision)
  /-- the busy path -/
  | growth (d : Decision)
  | clearBusy (d : Decision)
  | busySeen (d : Decision)
  | busyMark (d : Decision)
  | busyAge (d : Decision)
  | dueSeen (d : Decision)
  | dueMark (d : Decision)
  | dueAge (d : Decision)
  /-- the idle path -/
  | unbusy (d : Decision)
  | undue (d : Decision)
  | rss (d : Decision)
  | info (d : Decision) (r : ℤ)
  | grownRss (d : Decision) (r f : ℤ)
  | grownFree (d : Decision) (r f grown : ℤ)
  | predict (d : Decision) (r f grown : ℤ)
  | small
  | deferSeen (d : Decision) (r f : ℤ)
  | deferMark (d : Decision) (r f : ℤ)
  | deferAge (d : Decision) (r f : ℤ)
  | recheck (d : Decision) (how : How) (r f : ℤ)
  /-- `with self._lock` -/
  | acquire (d : Decision) (how : How) (waitGap : Bool) (known : Option (ℤ × ℤ))
  | held (h : Held)
  /-- the loop of the thread has ended with an exception -/
  | stopped

/-- `now - since < bound`; a mark that another thread has cleared raises. -/
def Poll.age (now bound : ℚ) (young old : Poll) : Option ℚ → Poll
  | none => .stopped
  | some since => if now - since < bound then young else old

/-- The first read of `last_trim`. -/
def Poll.ofLastTrim (now : ℚ) : Option ℚ → Poll
  | none => .gate ⟨now, none, false⟩
  | some _ => .interval now

/-- The second read of `last_trim`. -/
def Poll.ofInterval (now minIntervalS : ℚ) : Option ℚ → Poll
  | none => .stopped
  | some t => .gate ⟨now, some t, now - t < minIntervalS⟩

/-- The return inside the interval, after the busy wait has been counted. -/
def Poll.afterBusy (d : Decision) : Poll :=
  if d.inInterval then .waiting (some .interval) else .busyAge d

/-- No growth, and the last read of the free bytes was a short time ago. -/
def Shared.idleSmall (s : Shared ι) (now : ℚ) (r : ℤ) : Bool :=
  (r - s.r0) * 1024 < cfg.minBytes ∧ ∃ t ∈ s.lastInfo, now - t < cfg.infoEveryS

/-- The predicted milliseconds of a call. -/
def Shared.estMs (s : Shared ι) (f grown : ℤ) : ℚ := s.msPerGib * min f grown / 2 ^ 30

/-- **A step of the poll thread that does not touch the lock.** -/
def Poll.step (s : Shared ι) (x : Reading) : Poll → Shared ι × Poll
  | .waiting _ => (s, if s.hooks then .clock else .waiting (some .nohook))
  | .clock => (s, .lastTrim s.clock)
  | .lastTrim now => (s, .ofLastTrim now s.lastTrim)
  | .interval now => (s, .ofInterval now cfg.minIntervalS s.lastTrim)
  | .gate d => (s, if s.quiet cfg.idleS then .unbusy d else .growth d)
  | .growth d =>
    (s, if cfg.maxBusyS ≤ 0 ∨ (x.rss - s.r0) * 1024 < cfg.minBytes then .clearBusy d
      else .busySeen d)
  | .clearBusy d =>
    ({ s with busySince := none },
      .waiting (some (if d.inInterval then .interval else .busy)))
  | .busySeen d => (s, if s.busySince = none then .busyMark d else .afterBusy d)
  | .busyMark d => ({ s with busySince := some d.now }, .afterBusy d)
  | .busyAge d => (s, .age d.now cfg.maxBusyS (.waiting (some .busy)) (.dueSeen d) s.busySince)
  | .dueSeen d => (s, if s.dueSince = none then .dueMark d else .dueAge d)
  | .dueMark d => ({ s with dueSince := some d.now }, .dueAge d)
  | .dueAge d =>
    (s, .age d.now cfg.maxBusyS (.waiting (some .due)) (.acquire d .busytrim false none)
      s.dueSince)
  | .unbusy d => ({ s with busySince := none }, .undue d)
  | .undue d =>
    ({ s with dueSince := none }, if d.inInterval then .waiting (some .interval) else .rss d)
  | .rss d => (s, if s.idleSmall cfg d.now x.rss then .small else .info d x.rss)
  | .info d r => ({ s with lastInfo := some d.now }, .grownRss d r x.free)
  | .grownRss d r f => (s, .grownFree d r f ((r - s.r0) * 1024))
  | .grownFree d r f grown =>
    let grown := max grown (f - s.f0)
    (s, if f < cfg.minBytes ∨ grown < cfg.minBytes then .small else .predict d r f grown)
  | .predict d r f grown =>
    (s, if cfg.budgetMs < s.estMs f grown ∧ x.outputsQuiet = false then .deferSeen d r f
      else .recheck d .trim r f)
  | .small => ({ s with deferredSince := none }, .waiting (some .small))
  | .deferSeen d r f => (s, if s.deferredSince = none then .deferMark d r f else .deferAge d r f)
  | .deferMark d r f => ({ s with deferredSince := some d.now }, .deferAge d r f)
  | .deferAge d r f =>
    (s, if cfg.maxDeferS ≤ 0 then .waiting (some .defer)
      else .age d.now cfg.maxDeferS (.waiting (some .defer)) (.recheck d .forced r f)
        s.deferredSince)
  | .recheck d how r f =>
    (s, if s.quiet cfg.idleS then .acquire d how true (some (r, f)) else .waiting (some .abort))
  | .acquire d how waitGap known => (s, .acquire d how waitGap known)
  | .held h => (s, .held h)
  | .stopped => (s, .stopped)

/-! ## The threads -/

/-- What a tokenizing thread does next. -/
inductive Gap where
  /-- not in `gap` -/
  | out
  /-- `gap` reads the due mark -/
  | due
  /-- `acquire(blocking=False)` -/
  | tryLock
  | held (h : Held)

def Gap.isOut : Gap → Bool
  | .out => true
  | _ => false

structure State (ι : Type) where
  shared : Shared ι
  poll : Poll
  gaps : ι → Gap
  /-- the tokenizations that a thread has in flight -/
  depth : ι → ℕ

/-- `Activity()` and `Trimmer(cfg, act)` at time `t`, with the reading `r` of `RssAnon`. -/
def State.init (t : ℚ) (r : ℤ) : State ι where
  shared := {
    clock := t
    hooks := false
    inflight := 0
    last := t
    msPerGib := cfg.msPerGib
    r0 := r
    f0 := 0
    lastTrim := none
    lastInfo := none
    deferredSince := none
    busySince := none
    dueSince := none
    lock := none
    calls := [] }
  poll := .waiting none
  gaps _ := .out
  depth _ := 0

inductive Action (ι : Type) where
  /-- time passes -/
  | tick (dt : ℚ)
  /-- the hooks are installed -/
  | hook
  | enter (i : ι)
  | exit (i : ι)
  /-- the next step of a thread in `gap` -/
  | gap (i : ι) (x : Reading)
  | poll (x : Reading)

namespace State

variable [DecidableEq ι]

def setGap (s : State ι) (shared : Shared ι) (i : ι) (g : Gap) : State ι :=
  { s with shared := shared, gaps := Function.update s.gaps i g }

/-- `Activity.enter` -/
def enter (s : State ι) (i : ι) : State ι :=
  { s with
    shared := { s.shared with inflight := s.shared.inflight + 1, last := s.shared.clock }
    depth := Function.update s.depth i (s.depth i + 1) }

/-- `Activity.exit` -/
def exit (s : State ι) (i : ι) : State ι :=
  { s with
    shared := { s.shared with inflight := s.shared.inflight - 1, last := s.shared.clock }
    gaps := Function.update s.gaps i (if s.shared.inflight - 1 = 0 then .due else .out)
    depth := Function.update s.depth i (s.depth i - 1) }

/-- The next step of a thread in `gap`. -/
def gapStep (s : State ι) (x : Reading) (i : ι) : Gap → Option (State ι)
  | .out => none
  | .due => some (s.setGap s.shared i (if s.shared.dueSince = none then .out else .tryLock))
  | .tryLock =>
    some (if s.shared.lock = none then
      s.setGap { s.shared with lock := some (.gap i) } i (.held .due)
    else s.setGap s.shared i .out)
  | .held (.done _) => some (s.setGap { s.shared with lock := none } i .out)
  | .held h =>
    let (shared, h) := h.step cfg s.shared x
    some (s.setGap shared i (.held h))

/-- The next step of the poll thread. -/
def pollStep (s : State ι) (x : Reading) : Poll → Option (State ι)
  | .stopped => none
  | .acquire _ how waitGap known =>
    if s.shared.lock = none then
      some { s with
        shared := { s.shared with lock := some .poll }
        poll := .held (.enter how waitGap known) }
    else none
  | .held (.done v) => some { s with shared := { s.shared with lock := none }, poll := .waiting v }
  | .held h =>
    let (shared, h) := h.step cfg s.shared x
    some { s with shared := shared, poll := .held h }
  | p =>
    let (shared, p) := p.step cfg s.shared x
    some { s with shared := shared, poll := p }

/-- **One step of the system.** A tokenizing thread enters and leaves while it is not in
`gap`. -/
def step (s : State ι) : Action ι → Option (State ι)
  | .tick dt =>
    if 0 ≤ dt then some { s with shared := { s.shared with clock := s.shared.clock + dt } }
    else none
  | .hook => some { s with shared := { s.shared with hooks := true } }
  | .enter i => if (s.gaps i).isOut then some (s.enter i) else none
  | .exit i => if (s.gaps i).isOut ∧ s.depth i ≠ 0 then some (s.exit i) else none
  | .gap i x => s.gapStep cfg x i (s.gaps i)
  | .poll x => s.pollStep cfg x s.poll

end State

end HeapTrim
