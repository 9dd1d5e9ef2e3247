import SparkTP4.Transition
import Mathlib.Data.Int.Notation
import Mathlib.Data.Nat.Size
import Mathlib.Logic.Function.Basic

/-!
# The prefetch of the Engram rows

`engram_prefetch.py` over `engram_backend.py`: after the hasher, each Engram layer
gets its rows on a side stream of its own; its gather on the main stream takes
them when it finds the record of the prefetch, and otherwise runs the synchronous
path over the same staging buffers. The host enqueues the work of a call at once
(`State.forward`, `State.gather`), and the streams run it one operation after the
other, in any interleaving that keeps `wait_stream`.

An operation carries the ids of the call it belongs to; after the copy of the ids
it uses only how many there are. A lookup of an id outside of the table ends the
process and is left out; so are the creation of the buffers and streams, and the
check mode, which compares after the gather.
-/

namespace EngramPrefetch

/-- A tensor of ids. -/
structure Tensor where
  ptr : ℕ
  shape : List ℕ
  ids : List ℤ
  deriving DecidableEq

/-- `1 << (count - 1).bit_length()`, which with the layer is the key of the staging
buffers. -/
def capacity (count : ℕ) : ℕ := 1 <<< Nat.size (count - 1)

/-- The staging buffers of a layer and a capacity: the pinned ids, weights and
scales, and the weights and scales on the device. -/
structure Buffers (A B : Type) where
  ids : ℕ → ℤ
  w : ℕ → A
  s : ℕ → B
  dw : ℕ → A
  ds : ℕ → B

/-- The operations of a lookup. -/
inductive Phase where
  /-- `ids[:count].copy_(indices)` -/
  | ids
  /-- the host callback `row_store_lookup` -/
  | lookup
  /-- `dw[:count].copy_(w[:count])` -/
  | weights
  /-- `ds[:count].copy_(s[:count])` -/
  | scales
  /-- `engram_gather` -/
  | gather
  deriving DecidableEq

/-- An operation on the side stream of a layer; `fork` is how much of the main stream
its prefetch waits for. -/
inductive SideOp where
  /-- `_side.wait_stream(main)` -/
  | wait (fork : ℕ)
  | run (phase : Phase) (ids : List ℤ) (fork : ℕ)
  deriving DecidableEq

/-- An operation on the main stream. -/
inductive MainOp (layers : ℕ) where
  /-- the hasher -/
  | hash
  /-- the synchronous path -/
  | run (layer : Fin layers) (phase : Phase) (ids : List ℤ)
  /-- `main.wait_stream(_side)` with `count` operations on the side stream -/
  | join (layer : Fin layers) (count : ℕ)
  /-- `engram_gather` of the staged rows -/
  | read (layer : Fin layers) (ids : List ℤ)
  deriving DecidableEq

/-- What a gather has returned for its ids. -/
structure Out (layers : ℕ) (A B : Type) where
  layer : Fin layers
  ids : List ℤ
  rows : List (A × B)
  deriving DecidableEq

variable {layers : ℕ} {A B : Type}

/-- The streams are the lists of all that was enqueued, with how much of it has run.
The record of a prefetch is the pointer, the shape and the count of its tensor. -/
structure State (layers : ℕ) (A B : Type) where
  staging : Fin layers → ℕ → Buffers A B
  disabled : Bool
  pending : Fin layers → Option Tensor
  /-- the gather of the layer in this forward has been issued -/
  gathered : Fin layers → Bool
  main : List (MainOp layers)
  mainDone : ℕ
  side : Fin layers → List SideOp
  sideDone : Fin layers → ℕ
  /-- record of the run: what the gathers have returned -/
  outs : List (Out layers A B)

def State.start (staging : Fin layers → ℕ → Buffers A B) : State layers A B where
  staging := staging
  disabled := false
  pending _ := none
  gathered _ := true
  main := []
  mainDone := 0
  side _ := []
  sideDone _ := 0
  outs := []

/-! ## The host -/

section Host

variable (owns : Fin layers → Bool)

/-- What `_prefetch` enqueues on the side stream of a layer; a layer without rows here
gets nothing. -/
def prefetchOps (l : Fin layers) (ids : List ℤ) (fork : ℕ) : List SideOp :=
  if owns l = false ∨ ids = [] then []
  else [.wait fork, .run .ids ids fork, .run .lookup ids fork, .run .weights ids fork,
    .run .scales ids fork]

/-- What of it is enqueued when the prefetch of layer `fail.1` raises after `fail.2`
operations. -/
def enqueued (l : Fin layers) (ops : List SideOp) : Option (Fin layers × ℕ) → List SideOp
  | none => ops
  | some (e, c) => if l < e then ops else if l = e then ops.take c else []

/-- `Hasher.forward` with its prefetch. -/
def State.forward (S : State layers A B) (hash : Fin layers → Tensor)
    (fail : Option (Fin layers × ℕ)) : State layers A B :=
  let S := { S with main := S.main ++ [.hash], gathered := fun _ => false }
  if S.disabled then S
  else
    { S with
      disabled := fail.isSome
      side := fun l => S.side l ++ enqueued l (prefetchOps owns l (hash l).ids S.main.length) fail
      pending := fun l =>
        if fail.isSome ∨ owns l = false ∨ (hash l).ids = [] then none else some (hash l) }

/-- `p[0] == indices.data_ptr() and p[1] == tuple(indices.shape) and p[2] == indices.numel()` -/
def Tensor.Matches (p x : Tensor) : Prop :=
  p.ptr = x.ptr ∧ p.shape = x.shape ∧ p.ids.length = x.ids.length

instance (p x : Tensor) : Decidable (p.Matches x) := by
  unfold Tensor.Matches
  infer_instance

/-- `_owned_rows` of `engram_backend.py`. -/
def State.synchronous (S : State layers A B) (l : Fin layers) (x : Tensor) : State layers A B :=
  if x.ids = [] then { S with outs := ⟨l, [], []⟩ :: S.outs }
  else
    { S with main := S.main ++ [.run l .ids x.ids, .run l .lookup x.ids, .run l .weights x.ids,
        .run l .scales x.ids, .run l .gather x.ids] }

/-- The record that the gather of `x` finds. -/
def State.found (S : State layers A B) (l : Fin layers) (x : Tensor) : Option Tensor :=
  (S.pending l).filter fun p => p.Matches x

/-- `_owned_rows` of `engram_prefetch.py`. -/
def State.gather (S : State layers A B) (l : Fin layers) (x : Tensor) : State layers A B :=
  match S.found l x with
  | none => S.synchronous l x
  | some _ =>
    { S with
      pending := Function.update S.pending l none
      main := S.main ++ [.join l (S.side l).length, .read l x.ids] }

end Host

/-! ## The device -/

section Device

variable (weight : Fin layers → ℤ → A) (scale : Fin layers → ℤ → B)

/-- An operation on the staging buffers of a layer with the rows `weight` and `scale`. -/
def Phase.run (weight : ℤ → A) (scale : ℤ → B) (x : List ℤ) (b : Buffers A B) :
    Phase → Buffers A B
  | ids => { b with ids := fun i => x[i]?.getD (b.ids i) }
  | lookup =>
    { b with
      w := fun i => if i < x.length then weight (b.ids i) else b.w i
      s := fun i => if i < x.length then scale (b.ids i) else b.s i }
  | weights => { b with dw := fun i => if i < x.length then b.w i else b.dw i }
  | scales => { b with ds := fun i => if i < x.length then b.s i else b.ds i }
  | gather => b

/-- The rows that `engram_gather` reads. -/
def Buffers.rows (b : Buffers A B) (count : ℕ) : List (A × B) :=
  (List.range count).map fun i => (b.dw i, b.ds i)

/-- An operation of a lookup of `x` by layer `l`. -/
def State.run (S : State layers A B) (l : Fin layers) (phase : Phase) (x : List ℤ) :
    State layers A B :=
  { S with staging := Function.update S.staging l (Function.update (S.staging l)
      (capacity x.length) (phase.run (weight l) (scale l) x (S.staging l (capacity x.length)))) }

/-- A gather returns. -/
def State.out (S : State layers A B) (l : Fin layers) (x : List ℤ) : State layers A B :=
  { S with outs := ⟨l, x, (S.staging l (capacity x.length)).rows x.length⟩ :: S.outs }

/-- The next operation of the main stream. -/
def State.mainStep (S : State layers A B) : Option (State layers A B) :=
  let S' := { S with mainDone := S.mainDone + 1 }
  match S.main[S.mainDone]? with
  | none => none
  | some .hash => some S'
  | some (.run l .gather x) => some (S'.out l x)
  | some (.run l phase x) => some (S'.run weight scale l phase x)
  | some (.join l count) => if count ≤ S.sideDone l then some S' else none
  | some (.read l x) => some (S'.out l x)

/-- The next operation of the side stream of layer `l`. -/
def State.sideStep (S : State layers A B) (l : Fin layers) : Option (State layers A B) :=
  let S' := { S with sideDone := Function.update S.sideDone l (S.sideDone l + 1) }
  match (S.side l)[S.sideDone l]? with
  | none => none
  | some (.wait fork) => if fork ≤ S.mainDone then some S' else none
  | some (.run phase x _) => some (S'.run weight scale l phase x)

/-! ## The steps -/

inductive Action (layers : ℕ) where
  | forward (hash : Fin layers → Tensor) (fail : Option (Fin layers × ℕ))
  /-- a forward without tokens: nothing is prefetched or gathered -/
  | empty
  | gather (l : Fin layers) (x : Tensor)
  | main
  | side (l : Fin layers)

/-- The hash ids stay in their memory during the forward, so a gather that matches the
record has the ids of its tensor. -/
def step (owns : Fin layers → Bool) (S : State layers A B) :
    Action layers → Option (State layers A B)
  | .forward hash fail => some (S.forward owns hash fail)
  | .empty => some { S with main := S.main ++ [.hash], gathered := fun _ => true }
  | .gather l x =>
    if S.gathered l = false ∧ ∀ p ∈ S.found l x, p.ids = x.ids then
      some { S.gather l x with gathered := Function.update S.gathered l true }
    else none
  | .main => S.mainStep weight scale
  | .side l => S.sideStep weight scale l

/-- The lists have the same ids where both have one. -/
def Agree (x y : List ℤ) : Prop := ∀ p ∈ x.zip y, p.1 = p.2

/-- The operation does not use the staging buffers of a lookup of `x`, or has its ids. -/
def SideOp.Clear (x : List ℤ) : SideOp → Prop
  | wait _ => True
  | run _ y _ => capacity y.length = capacity x.length → Agree y x

/-- A gather takes the synchronous path only when what is outstanding on the side stream
is clear of it. -/
def Clear (S : State layers A B) : Action layers → Prop
  | .gather l x =>
    S.found l x = none → ∀ op ∈ (S.side l).drop (S.sideDone l), op.Clear x.ids
  | _ => True

instance (x : List ℤ) (op : SideOp) : Decidable (op.Clear x) := by
  unfold SideOp.Clear Agree
  split <;> infer_instance

instance (S : State layers A B) (a : Action layers) : Decidable (Clear S a) := by
  unfold Clear
  split <;> infer_instance

end Device

end EngramPrefetch
