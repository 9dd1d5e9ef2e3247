import Mathlib.Logic.Function.Basic
import Mathlib.Data.Nat.Notation
import SparkTP4.Memo
import SparkTP4.Transition

/-!
# Staging the sampling parameters only when they change

The draft sampler keeps the temperature and the greedy flag of each request in
two buffers that the draft graph reads. `stage_sampling_params` fills their
first `bs` rows from `sampling_info`, and `draft_tau` multiplies the
temperatures it left there by a constant. The part `stage` of `eager_glue` wraps
this chain and skips it while a key is unchanged: the batch size, the identity,
version, address and shape of the two tensors of `sampling_info`, and the
versions of the two buffers.

Tensors are modelled as Python sees them. A storage has an address, a version
that every write bumps, and cells; a tensor object has an id and is a view of a
storage, possibly of one of the two buffers. An object that nothing holds may be
freed, and its id, like the address of a storage no object views, may be used
again by something else, with any version. The key holds its two objects.

The engine's own body is a parameter: which values it writes into which buffer,
computed from the tensors as they are when it writes. What is relied on is that
it fills both buffers.
-/

namespace StageSkip

/-! ## Tensors -/

/-- The address of a storage. The buffers of the sampler are storages of their own. -/
inductive Address where
  | temperatures
  | greedyMask
  | other (a : ℕ)
  deriving DecidableEq

/-- A storage: its version counter, and its cells. -/
structure Storage (V : Type) where
  version : ℕ
  data : ℕ → V

/-- A tensor object: the storage it views, and how. -/
structure Tensor where
  storage : Address
  offset : ℕ
  shape : List ℕ
  strides : List ℕ
  deriving DecidableEq

variable {V : Type}

/-- The storages. -/
abbrev Heap (V : Type) := Address → Storage V

/-- What can be read through a tensor. -/
structure Contents (V : Type) where
  shape : List ℕ
  strides : List ℕ
  cells : ℕ → V

/-- What a tensor holds. -/
def Tensor.read (t : Tensor) (h : Heap V) : Contents V :=
  ⟨t.shape, t.strides, fun i => (h t.storage).data (t.offset + i)⟩

/-- A write bumps the version. -/
def Heap.write (h : Heap V) (a : Address) (data : ℕ → V) : Heap V :=
  Function.update h a ⟨(h a).version + 1, data⟩

/-! ## The chain -/

/-- What the tensors of `sampling_info` hold, if there is one. -/
abbrev Inputs (V : Type) := Option (Contents V × Contents V)

/-- One write of the chain: values for the first rows of a buffer, computed from the inputs,
or the multiply in place. -/
inductive Write (V : Type) where
  /-- `self.temperatures[:bs] = …` -/
  | temperatures (value : Inputs V → ℕ → V)
  /-- `self.greedy_mask[:bs] = …` -/
  | greedyMask (value : Inputs V → ℕ → V)
  /-- `self.temperatures[:bs].mul_(TAU)` -/
  | scale (mul : V → V)

/-- The buffer a write fills. -/
def Write.target : Write V → Address
  | .temperatures _ => .temperatures
  | .greedyMask _ => .greedyMask
  | .scale _ => .temperatures

/-- The value a write puts into a row, given the row's value before. -/
def Write.value (w : Write V) (inputs : Inputs V) (before : V) (r : ℕ) : V :=
  match w with
  | .temperatures f => f inputs r
  | .greedyMask f => f inputs r
  | .scale mul => mul before

/-- The engine's `stage_sampling_params`: its writes for a batch size, with or without
`sampling_info`, among them one into each buffer. -/
structure Engine (V : Type) where
  body : ℕ → Bool → List (Write V)
  fillsTemperatures : ∀ bs given, ∃ f, Write.temperatures f ∈ body bs given
  fillsMask : ∀ bs given, ∃ f, Write.greedyMask f ∈ body bs given

/-- What is fixed for a boot: the engine, `draft_tau`'s multiply if it is installed, and
`folded_sampling and temperatures is not None`. -/
structure Config (V : Type) where
  engine : Engine V
  tau : Option (V → V)
  folded : Bool

/-- The wrapped chain: the engine's writes, then `draft_tau`'s multiply. -/
def Config.chain (cfg : Config V) (bs : ℕ) (given : Bool) : List (Write V) :=
  cfg.engine.body bs given ++
    if cfg.folded && given then (cfg.tau.map Write.scale).toList else []

/-- The tensors of a call: none, or the temperatures and the `top_ks`. -/
abbrev Info := Option (Tensor × Tensor)

/-- What they hold. -/
def inputs (h : Heap V) (info : Info) : Inputs V :=
  info.map fun tk => (tk.1.read h, tk.2.read h)

/-- A write runs. -/
def Write.run (w : Write V) (bs : ℕ) (info : Info) (h : Heap V) : Heap V :=
  h.write w.target fun r =>
    if r < bs then w.value (inputs h info) ((h w.target).data r) r else (h w.target).data r

/-- Writes run, one after the other. -/
def runWrites (bs : ℕ) (info : Info) (ws : List (Write V)) (h : Heap V) : Heap V :=
  ws.foldl (fun h w => w.run bs info h) h

/-! ## The key -/

/-- `id(t), t._version, t.data_ptr(), tuple(t.shape)` -/
structure TensorKey where
  id : ℕ
  version : ℕ
  dataPtr : Address × ℕ
  shape : List ℕ
  deriving DecidableEq

/-- `_dsv41_stage_key`: what was staged, the versions of the buffers after it, and the tensors
held. -/
structure StageKey where
  bs : ℕ
  tensors : Option (TensorKey × TensorKey)
  mine : ℕ × ℕ
  refs : List ℕ
  deriving DecidableEq

/-! ## States -/

/-- The state of a process. -/
structure State (V : Type) where
  heap : Heap V
  /-- The live tensor objects, by id. -/
  objects : List (ℕ × Tensor)
  /-- `on("stage")` in the current variant -/
  on : Bool
  key : Option StageKey

/-- The key of a tensor object. -/
def tensorKey (h : Heap V) (id : ℕ) (t : Tensor) : TensorKey :=
  ⟨id, (h t.storage).version, (t.storage, t.offset), t.shape⟩

/-- `(self.temperatures._version, self.greedy_mask._version)` -/
def mine (h : Heap V) : ℕ × ℕ :=
  ((h .temperatures).version, (h .greedyMask).version)

/-- What a call stages: the ids of the tensors of `sampling_info`. -/
structure Call where
  bs : ℕ
  info : Option (ℕ × ℕ)

/-- The tensors of a call, if its objects are live. -/
def State.resolve (s : State V) (c : Call) : Option Info :=
  match c.info with
  | none => some none
  | some (t, k) => (Memo.get s.objects t).bind fun temperatures =>
      (Memo.get s.objects k).map fun topKs => some (temperatures, topKs)

/-- The first part of the key. -/
def Call.tensors (c : Call) (h : Heap V) (info : Info) : Option (TensorKey × TensorKey) :=
  c.info.bind fun ids => info.map fun tk => (tensorKey h ids.1 tk.1, tensorKey h ids.2 tk.2)

/-- `refs` -/
def Call.refs (c : Call) : List ℕ :=
  match c.info with
  | none => []
  | some (t, k) => [t, k]

/-- The test for a hit. -/
def State.hits (s : State V) (c : Call) (info : Info) : Bool :=
  s.key.any fun last =>
    decide (last.bs = c.bs) && decide (last.tensors = c.tensors s.heap info) &&
      decide (last.mine = mine s.heap)

/-- The wrapped chain is called. Where it raises, only some of its writes have run. -/
def State.origStage (cfg : Config V) (s : State V) (c : Call) (info : Info)
    (raises : Option ℕ) : State V :=
  let writes := cfg.chain c.bs info.isSome
  { s with heap := runWrites c.bs info (writes.take (raises.getD writes.length)) s.heap }

/-- `stage_sampling_params` of `eager_glue`. A skipped call does not raise. -/
def State.stage (cfg : Config V) (s : State V) (c : Call) (info : Info) (raises : Option ℕ) :
    Option (State V) :=
  if s.on && cfg.folded then
    if s.hits c info then
      if raises.isNone then some s else none
    else
      let t := s.origStage cfg c info raises
      if raises.isNone then
        some { t with key := some ⟨c.bs, c.tensors s.heap info, mine t.heap, c.refs⟩ }
      else some t
  else some ({ s with key := none }.origStage cfg c info raises)

/-- What happens to a process. -/
inductive Event (V : Type) where
  /-- The part is switched with the in-boot variant. -/
  | switch (on : Bool)
  /-- A storage is written, through any view. -/
  | write (a : Address) (data : ℕ → V)
  /-- A tensor object is made under a free id. -/
  | new (id : ℕ) (t : Tensor)
  /-- An object that nothing holds is freed. -/
  | free (id : ℕ)
  /-- Memory that no object views is given out again. -/
  | alloc (a : ℕ) (storage : Storage V)
  /-- A call, and after how many writes its chain raises. -/
  | stage (c : Call) (raises : Option ℕ)

/-- One event, for a way to serve a call. -/
def State.nextBy
    (serve : State V → Call → Info → Option ℕ → Option (State V)) (s : State V) :
    Event V → Option (State V)
  | .switch on => some { s with on := on }
  | .write a data => some { s with heap := s.heap.write a data }
  | .new id t =>
    if Memo.get s.objects id = none then some { s with objects := Memo.set s.objects id t }
    else none
  | .free id =>
    if s.key.all fun k => decide (id ∉ k.refs) then
      some { s with objects := Memo.drop s.objects id }
    else none
  | .alloc a storage =>
    if ∀ e ∈ s.objects, e.2.storage ≠ .other a then
      some { s with heap := Function.update s.heap (.other a) storage }
    else none
  | .stage c raises => (s.resolve c).bind fun info => serve s c info raises

/-- One event, with calls that are skipped. -/
def State.next (cfg : Config V) : State V → Event V → Option (State V) :=
  State.nextBy fun s c info raises => s.stage cfg c info raises

/-- One event, with a chain that always runs. -/
def State.nextAlways (cfg : Config V) : State V → Event V → Option (State V) :=
  State.nextBy fun s c info raises => some (s.origStage cfg c info raises)

/-- A process that has not staged anything. -/
def State.init (h : Heap V) : State V := ⟨h, [], true, none⟩

end StageSkip
