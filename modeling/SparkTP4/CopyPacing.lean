import SparkTP4.Ledger
import SparkTP4.Transition

/-!
# Pacing the weight copies

`paced_submit` of `adapter/fast_load.py` wraps the engine's submission of a copy with a
budget of bytes in flight. A copy whose source is a view into a slab charges the whole slab,
once for all the queued copies of that slab; any other copy charges its own bytes. A call
waits until its charge fits, submits the copy, and hangs the release of its charge on the
future that is then the last one of the caller's list; a call whose submission raised or ran
the copy itself releases at once.

Any number of threads call it and any number of copies run; every access to a list of
futures, and every critical section, is a step of its own. The engine's submission either
raises before it queues the copy, or runs the copy in the caller, or queues it and appends
its future to the list.
-/

namespace CopyPacing

/-! ## What a copy charges -/

/-- What `_charge` reads of a tensor that is no parameter. -/
structure Tensor where
  /-- `numel() * element_size()`, none where reading it raises -/
  nbytes : Option ℕ
  /-- `_dsv41_resident_nbytes` -/
  resident : Option ℕ
  /-- the base of its storage, or of its part's, none where reading it raises -/
  storage : Option ℕ

/-- An argument of a copy. -/
inductive Arg where
  | tensor (t : Tensor)
  | parameter
  | other

/-- An entry of `_slab_size`. -/
structure Slab where
  nbytes : ℕ
  /-- it has a weak reference, and that has expired -/
  expired : Bool

/-- `_tensor_bytes` -/
def tensorBytes : List Arg → ℕ
  | [] => 0
  | .tensor t :: args =>
    match t.resident, t.nbytes with
    | some kept, _ => kept
    | none, some nbytes => nbytes
    | none, none => tensorBytes args
  | .parameter :: args | .other :: args => tensorBytes args

/-- The base of the storage of the source, where it is found. -/
def sourceStorage : List Arg → Option ℕ
  | [] => none
  | .tensor t :: _ => t.storage
  | .parameter :: args | .other :: args => sourceStorage args

/-- The slab that a storage is, if it is one that is alive. -/
def liveSlab (slabSize : ℕ → Option Slab) (ptr : ℕ) : Option (ℕ × ℕ) :=
  (slabSize ptr).bind fun slab => if slab.expired then none else some (ptr, slab.nbytes)

/-- `_charge`: the key, which is the base of a slab, and the bytes. -/
def charge (slabSize : ℕ → Option Slab) (args : List Arg) : Option ℕ × ℕ :=
  match (sourceStorage args).bind (liveSlab slabSize) with
  | some (ptr, nbytes) => (some ptr, nbytes)
  | none => (none, tensorBytes args)

/-! ## A call -/

/-- Where a call of `paced_submit` is. -/
inductive Phase where
  /-- in the loop, before its charge -/
  | waiting
  | charged
  /-- `before` is read; the engine's submission has not queued the copy -/
  | submitting (before : ℕ)
  /-- the copy is queued, its future not appended -/
  | queued (before : ℕ)
  /-- the engine's submission has returned -/
  | returned (before : ℕ)
  /-- the list was longer than before -/
  | picking
  /-- it has `futures[-1]` -/
  | attaching (f : ℕ)
  /-- its release is a callback of a future that is not done -/
  | armed (f : ℕ)
  /-- its release is about to run -/
  | releasing
  | released
  deriving DecidableEq

/-- A call of `paced_submit`. -/
structure Call where
  key : Option ℕ
  /-- `max(1, nbytes)` -/
  size : ℤ
  /-- the list `futures` that it was given -/
  list : ℕ
  phase : Phase
  /-- record: the future of its copy -/
  own : Option ℕ
  deriving DecidableEq

/-- The wrapper's variables, the lists of futures and the futures. -/
structure State where
  /-- `inflight` and `held` -/
  ledger : Ledger ℕ
  /-- record: a release did not find its slab -/
  keyError : Bool
  lists : ℕ → List ℕ
  /-- for every future, whether it is done -/
  done : List Bool
  calls : List Call

/-- Nothing is charged and no copy is queued. -/
def State.init : State := ⟨Ledger.empty, false, fun _ => [], [], []⟩

/-- A future is done. -/
def State.isDone (s : State) (f : ℕ) : Bool := s.done.getD f false

/-- A call is elsewhere. -/
def State.setPhase (s : State) (i : ℕ) (c : Call) (phase : Phase) : State :=
  { s with calls := s.calls.set i { c with phase } }

/-- The test of the loop: the charge does not fit. -/
def Call.waits (c : Call) (budget : ℤ) (L : Ledger ℕ) : Prop :=
  ¬(∃ k, c.key = some k ∧ L.Has k) ∧ 0 < L.total ∧ budget < L.total + c.size

instance (L : Ledger ℕ) (key : Option ℕ) : Decidable (∃ k, key = some k ∧ L.Has k) :=
  match key with
  | none => isFalse fun ⟨_, h, _⟩ => Option.some_ne_none _ h.symm
  | some k => decidable_of_iff (L.Has k)
    ⟨fun h => ⟨k, rfl, h⟩, fun ⟨_, hk, h⟩ => Option.some.inj hk ▸ h⟩

instance (c : Call) (budget : ℤ) (L : Ledger ℕ) : Decidable (c.waits budget L) :=
  inferInstanceAs (Decidable (_ ∧ _ ∧ _))

/-! ## The steps -/

/-- A step of a call. -/
inductive Act where
  /-- the loop ends and the charge is taken -/
  | enter
  /-- `before = len(futures)` -/
  | measure
  /-- the engine's submission raises -/
  | raise
  /-- the engine's submission runs the copy and returns -/
  | sync
  /-- the engine's submission queues the copy -/
  | queue
  /-- the engine's submission appends the future and returns -/
  | append
  /-- `len(futures) > before` -/
  | check
  /-- `futures[-1]` -/
  | pick
  /-- `add_done_callback(release)` -/
  | attach
  /-- `release` -/
  | release
  deriving DecidableEq

/-- A step of the system. -/
inductive Action where
  /-- a thread calls `paced_submit` -/
  | call (slabSize : ℕ → Option Slab) (args : List Arg) (list : ℕ)
  | act (i : ℕ) (a : Act)
  /-- the copy of a future finishes, and its callbacks start -/
  | finish (f : ℕ)

/-- The call that `paced_submit` starts. -/
def newCall (slabSize : ℕ → Option Slab) (args : List Arg) (list : ℕ) : Call where
  key := (charge slabSize args).1
  size := max 1 ((charge slabSize args).2 : ℤ)
  list := list
  phase := .waiting
  own := none

/-- The release of a call: it subtracts its charge, unless it does not find its slab. -/
def State.release (s : State) (i : ℕ) (c : Call) : State :=
  match s.ledger.release c.key c.size with
  | some L => { s.setPhase i c .released with ledger := L }
  | none => { s.setPhase i c .released with keyError := true }

/-- What a callback does when its future is done already. -/
def State.attach (s : State) (i : ℕ) (c : Call) (f : ℕ) : State :=
  s.setPhase i c (if s.isDone f then .releasing else .armed f)

/-- A step of call `i`. -/
def State.act (budget : ℤ) (s : State) (i : ℕ) (c : Call) : Act → Option State
  | .enter =>
    if c.phase = .waiting ∧ ¬c.waits budget s.ledger then
      some { s.setPhase i c .charged with ledger := s.ledger.acquire c.key c.size }
    else none
  | .measure =>
    if c.phase = .charged then some (s.setPhase i c (.submitting (s.lists c.list).length)) else none
  | .raise =>
    match c.phase with
    | .submitting _ => some (s.setPhase i c .releasing)
    | _ => none
  | .sync =>
    match c.phase with
    | .submitting before => some (s.setPhase i c (.returned before))
    | _ => none
  | .queue =>
    match c.phase with
    | .submitting before =>
      let c := { c with own := some s.done.length }
      some { s.setPhase i c (.queued before) with done := s.done ++ [false] }
    | _ => none
  | .append =>
    match c.phase, c.own with
    | .queued before, some f =>
      let s' := s.setPhase i c (.returned before)
      some { s' with lists := Function.update s.lists c.list (s.lists c.list ++ [f]) }
    | _, _ => none
  | .check =>
    match c.phase with
    | .returned before =>
      some (s.setPhase i c (if before < (s.lists c.list).length then .picking else .releasing))
    | _ => none
  | .pick =>
    if c.phase = .picking then
      (s.lists c.list).getLast?.map fun f => s.setPhase i c (.attaching f)
    else none
  | .attach =>
    match c.phase with
    | .attaching f => some (s.attach i c f)
    | _ => none
  | .release => if c.phase = .releasing then some (s.release i c) else none

/-- What the end of a copy does to a call: its release starts if it was a callback. -/
def Call.finish (f : ℕ) (c : Call) : Call :=
  if c.phase = .armed f then { c with phase := .releasing } else c

/-- A step. -/
def State.step (budget : ℤ) (s : State) : Action → Option State
  | .call slabSize args list => some { s with calls := s.calls ++ [newCall slabSize args list] }
  | .act i a => (s.calls[i]?).bind fun c => s.act budget i c a
  | .finish f =>
    if s.done[f]? = some false then
      some { s with done := s.done.set f true, calls := s.calls.map (Call.finish f) }
    else none

/-! ## What is in flight -/

/-- A call has taken its charge. -/
def Call.hasCharged (c : Call) : Prop := c.phase ≠ .waiting

/-- A call has taken its charge and not released it. -/
def Call.live (c : Call) : Bool := c.phase != .waiting && c.phase != .released

/-- **A copy is in flight**: its call is under way, or it is queued or running, or what its end
starts is under way. -/
def State.inFlight (s : State) (c : Call) : Bool :=
  match c.phase with
  | .waiting => false
  | .armed _ | .released => c.own.any fun f => !s.isDone f
  | _ => true

/-- The keys and sizes of these calls. -/
def charges (p : Call → Bool) (calls : List Call) : Multiset (Option ℕ × ℤ) :=
  ((calls.filter p).map fun c => (c.key, c.size) : List (Option ℕ × ℤ))

/-- The charges of the copies in flight. -/
def State.copies (s : State) : Multiset (Option ℕ × ℤ) := charges s.inFlight s.calls

/-- The largest charge so far. -/
def State.largest (s : State) : ℤ :=
  ((s.calls.filter fun c => c.phase != .waiting).map Call.size).foldr max 0

/-- Every copy is finished, and no call and no callback is under way. -/
def State.Settled (s : State) : Prop :=
  (∀ done ∈ s.done, done = true) ∧
    ∀ c ∈ s.calls, c.phase = .waiting ∨ c.phase = .released ∨ ∃ f, c.phase = .armed f

/-- The call that reads `futures[-1]` in a step. -/
def Action.picks : Action → Option ℕ
  | .act i .pick => some i
  | _ => none

/-- **Each call finds its own future**: the last future of its list, when it reads
`futures[-1]`, is the one that its own submission appended. -/
def OwnFuture (s : State) (a : Action) : Prop :=
  ∀ c ∈ a.picks.bind fun i => s.calls[i]?, (s.lists c.list).getLast? = c.own

/-- A call reads its list: between `before = len(futures)` and `futures[-1]`. -/
def Call.reads (c : Call) : Bool :=
  match c.phase with
  | .submitting _ | .queued _ | .returned _ | .picking => true
  | _ => false

/-- **A list is used by one call at a time**: a call reads the length of its list while no
other call is between that and `futures[-1]`. -/
def OneAtATime (s : State) : Action → Prop
  | .act i .measure => ∀ c, s.calls[i]? = some c → ∀ (j : ℕ) (d : Call), j ≠ i →
      s.calls[j]? = some d → d.list = c.list → d.reads = false
  | _ => True

instance (s : State) (a : Action) : Decidable (OwnFuture s a) :=
  inferInstanceAs (Decidable (∀ c ∈ a.picks.bind fun i => s.calls[i]?, _))

end CopyPacing
