import SparkTP4.Transition
import Mathlib.Logic.Function.Basic
import Mathlib.Order.Basic

/-!
# Collectives on several CUDA streams

The stream work that the RoCE runtime (`roce_oneshot.py`) enqueues for each
collective, and the device that runs it. The host issues the calls one after
the other (`issue`): `_order_stream` makes the current stream wait for the
event of the previous call when that call was on another stream, and
`_mark_stream` records the event on the current stream. Each stream runs its
work in order, and nothing else orders two streams, so a run of the device may
interleave them in any way that keeps the two rules (`step`).

Calls share the two alignment buffers, the staging and the gathered buffer of
the padded all-gather, and the transport itself (the epoch, the slots and what
the peers send). The kernel of a collective is split into the read of its
source with the exchange, and the write of its destination. Calls are issued
outside of graph capture.
-/

namespace CollectiveStreams

/-- The device buffers that all calls share. -/
inductive Buffer where
  /-- alignment scratch of an all-reduce input -/
  | alignIn
  /-- alignment scratch of an all-reduce output -/
  | alignOut
  /-- `staged` of the padded all-gather -/
  | staged
  /-- `gathered` of the padded all-gather -/
  | gathered
  deriving DecidableEq

/-- The path a collective takes. The two all-reduce kernels enqueue the same
stream work. -/
inductive Form where
  | allReduce (twoshot inpAligned outAligned : Bool)
  | gatherDirect
  | gatherPadded
  | gatherColumns
  deriving DecidableEq

/-- One call: its path, and the stream that is current at it. -/
structure Call where
  form : Form
  stream : ℕ
  deriving DecidableEq

/-- One piece of work on a stream. Where a path has no such work the argument
is `none`. -/
inductive Item where
  /-- `scratch.copy_(inp)` -/
  | copyIn (dst : Option Buffer)
  /-- `current.wait_event(...)`, for the event that call recorded -/
  | wait (call : Option ℕ)
  /-- the kernel reads its source and exchanges it with the peers -/
  | load (src : Option Buffer)
  /-- the kernel writes its destination -/
  | store (dst : Option Buffer)
  /-- `out.copy_(scratch)` -/
  | copyOut (src : Option Buffer)
  /-- the event is recorded -/
  | record
  deriving DecidableEq

namespace Form

/-- The scratch the kernel reads, when it does not read the caller's tensor. -/
def source : Form → Option Buffer
  | allReduce _ inpAligned _ => if inpAligned then none else some .alignIn
  | gatherDirect => none
  | gatherPadded => some .staged
  | gatherColumns => none

/-- The scratch copied to the caller's tensor before `_mark_stream`. -/
def outBefore : Form → Option Buffer
  | allReduce _ _ outAligned => if outAligned then none else some .alignOut
  | gatherDirect => none
  | gatherPadded => none
  | gatherColumns => none

/-- The scratch the caller's tensor is made from after `_mark_stream`. -/
def outAfter : Form → Option Buffer
  | allReduce _ _ _ => none
  | gatherDirect => none
  | gatherPadded => some .gathered
  | gatherColumns => none

/-- The scratch the kernel writes, when it does not write the caller's tensor. -/
def dest (f : Form) : Option Buffer := f.outBefore.or f.outAfter

/-- The stream work of one call: the copy into the scratch comes before
`_order_stream`, the kernel after it, and `_mark_stream` before or after the
copy out of the scratch. -/
def items (f : Form) (wait : Option ℕ) : List Item :=
  [.copyIn f.source, .wait wait, .load f.source, .store f.dest, .copyOut f.outBefore, .record,
    .copyOut f.outAfter]

end Form

/-! ## The host -/

/-- What the runtime remembers between calls: the last stream, and the call
that `_stream_event` was last recorded for. -/
structure Host where
  lastStream : Option ℕ
  streamEvent : Option ℕ

def Host.start : Host := ⟨none, none⟩

/-- `_order_stream`: the call to wait for, if any. -/
def Host.orderStream (h : Host) (current : ℕ) : Option ℕ :=
  match h.lastStream with
  | none => none
  | some last => if current ≠ last then h.streamEvent else none

/-- `_mark_stream`, at call number `i`. -/
def Host.markStream (_h : Host) (current i : ℕ) : Host := ⟨some current, some i⟩

/-- The work each call enqueues, in the order the host issues the calls. -/
def issue (h : Host) (i : ℕ) : List Call → List (Call × List Item)
  | [] => []
  | c :: cs => (c, c.form.items (h.orderStream c.stream)) ::
      issue (h.markStream c.stream i) (i + 1) cs

/-! ## The device -/

/-- What the collectives compute: from the state of the transport and the
source they give the next state of the transport and the result. `input i` is
the caller's tensor of call `i`, and `garbage` is what unwritten memory holds. -/
structure Device (V T : Type) where
  collective : T → Form → V → T × V
  transport : T
  garbage : V
  input : ℕ → V

/-- The state of the device: how many items of each call have run, the shared
buffers, the transport, and each call's value inside its kernel and result. -/
structure State (V T : Type) where
  pc : ℕ → ℕ
  mem : Buffer → V
  transport : T
  reg : ℕ → V
  res : ℕ → Option V

variable {V T : Type}

def State.start (dev : Device V T) : State V T where
  pc _ := 0
  mem _ := dev.garbage
  transport := dev.transport
  reg _ := dev.garbage
  res _ := none

/-- What the kernel of call `i` reads: its scratch or the caller's tensor. -/
def State.kernelInput (dev : Device V T) (S : State V T) (i : ℕ) : Option Buffer → V
  | none => dev.input i
  | some b => S.mem b

/-- The effect of one item of call `i`. -/
def exec (dev : Device V T) (f : Form) (i : ℕ) (S : State V T) : Item → State V T
  | .copyIn none => S
  | .copyIn (some b) => { S with mem := Function.update S.mem b (dev.input i) }
  | .wait _ => S
  | .load src =>
    let out := dev.collective S.transport f (S.kernelInput dev i src)
    { S with transport := out.1, reg := Function.update S.reg i out.2 }
  | .store none => { S with res := Function.update S.res i (some (S.reg i)) }
  | .store (some b) => { S with mem := Function.update S.mem b (S.reg i) }
  | .copyOut none => S
  | .copyOut (some b) => { S with res := Function.update S.res i (some (S.mem b)) }
  | .record => S

/-- The number of items of a call that run up to its event. -/
def recordAt : ℕ := 6

/-- An item may run: a wait needs the event of its call. -/
def Ready (S : State V T) : Item → Prop
  | .wait (some k) => recordAt ≤ S.pc k
  | _ => True

instance (S : State V T) (it : Item) : Decidable (Ready S it) := by
  unfold Ready
  split <;> infer_instance

/-- The calls issued before call `i` on its stream have run. -/
def StreamReached (progs : List (Call × List Item)) (S : State V T) (i stream : ℕ) : Prop :=
  ∀ k < i, ∀ q ∈ progs[k]?, q.1.stream = stream → S.pc k = q.2.length

instance (progs : List (Call × List Item)) (S : State V T) (i stream : ℕ) :
    Decidable (StreamReached progs S i stream) := by
  unfold StreamReached
  infer_instance

/-- One step of the device: the next item of call `i` runs, if the stream has
reached the call and the item is ready. -/
def step (dev : Device V T) (ops : List Call) (S : State V T) (i : ℕ) : Option (State V T) :=
  let progs := issue Host.start 0 ops
  match progs[i]? with
  | none => none
  | some (c, items) =>
    match items[S.pc i]? with
    | none => none
    | some it =>
      if StreamReached progs S i c.stream ∧ Ready S it then
        some { exec dev c.form i S it with pc := Function.update S.pc i (S.pc i + 1) }
      else none

/-- The states the device can be in after the host issued `ops`. -/
def Reachable (dev : Device V T) (ops : List Call) : State V T → Prop :=
  Transition.Reachable (step dev ops) (fun _ _ => True) (State.start dev)

/-- Call `i` has run all its work. -/
def Finished (ops : List Call) (S : State V T) (i : ℕ) : Prop :=
  ∀ q ∈ (issue Host.start 0 ops)[i]?, S.pc i = q.2.length

/-- The same calls, all on one stream. -/
def onOneStream (stream : ℕ) (ops : List Call) : List Call :=
  ops.map (fun c => { c with stream := stream })

/-- **The streams do not show.** In every interleaving each call that has run
has the result it has when all calls are issued on one stream. -/
def Transparent (ops : List Call) : Prop :=
  ∀ (V T : Type) (dev : Device V T) (stream : ℕ) (S S' : State V T), Reachable dev ops S →
    Reachable dev (onOneStream stream ops) S' → ∀ i < ops.length,
      Finished ops S i → Finished (onOneStream stream ops) S' i →
      (S.res i).isSome ∧ S.res i = S'.res i

/-! ## The condition -/

/-- The stream of call `i`. -/
def streamOf (ops : List Call) (i : ℕ) : ℕ := (ops[i]?.map Call.stream).getD 0

/-- The path of call `i`. -/
def formOf (ops : List Call) (i : ℕ) : Form := (ops[i]?.map Call.form).getD .gatherDirect

/-- Between two calls that copy into the same scratch, the stream of the later
one is used: by the earlier call itself or by a call between the two. -/
def CopiesOrdered (ops : List Call) : Prop :=
  ∀ j < ops.length, ∀ i < j, ∀ b ∈ (formOf ops i).source, b ∈ (formOf ops j).source →
    ∃ k < j, i ≤ k ∧ streamOf ops k = streamOf ops j

/-- After a padded gather and up to the next one, its stream is used again. -/
def GathersOrdered (ops : List Call) : Prop :=
  ∀ j < ops.length, ∀ i < j, ∀ b ∈ (formOf ops i).outAfter, b ∈ (formOf ops j).outAfter →
    ∃ k < j + 1, i < k ∧ streamOf ops k = streamOf ops i

/-- Every access to a shared scratch is ordered by a stream or an event. -/
def Ordered (ops : List Call) : Prop := CopiesOrdered ops ∧ GathersOrdered ops

end CollectiveStreams
