import Mathlib.Data.List.Sort
import Mathlib.Order.Bounds.Basic
import SparkTP4.Region

/-!
# The capacities and the chunks of a geometry

A geometry prepares one plan for each capacity. A plan has a limit on the tokens of one launch,
and a capacity past its plan's limit is dropped (`select_chunk`); the largest one kept is the
*chunk*. `forward` cuts a batch into chunks, and runs each on the plan of the smallest capacity
that holds it – read in a table up to `EXACT_MAX` rows, found by bisection past it. All plans
share one arena, in which each plan's scratch views are carved from the start. For
pre-quantized input, `prequant_views` gives the rows of a plan's input storage, which is bound
once for each capacity.

The set of plans, their limits and scratch sizes, and what a binding answers are arbitrary.
-/

namespace MoeCapacities

/-- `_PlanEntry`, with the sizes of its scratch specs. -/
structure PlanEntry where
  cap : ℕ
  specs : List ℕ
  maxPerLaunch : ℕ

/-- `_align` -/
def align (n : ℕ) : ℕ := (n + 256 - 1) / 256 * 256

/-- The views of a plan: specs carved one after the other. -/
def carve : ℕ → List ℕ → List Region
  | _, [] => []
  | off, nb :: specs => ⟨off, nb⟩ :: carve (off + align nb) specs

/-- `select_chunk`: the chunk, the capacities kept and those dropped; `none` where it dies. -/
def selectChunk (limits : List (ℕ × ℕ)) : Option (ℕ × List ℕ × List ℕ) :=
  let kept := ((limits.filter fun p => p.1 ≤ p.2).map Prod.fst).mergeSort
  let dropped := ((limits.map Prod.fst).filter fun c => c ∉ kept).mergeSort
  kept.getLast?.map fun chunk => (chunk, kept, dropped)

/-- `bisect.bisect_left` of a sorted list. -/
def bisectLeft (caps : List ℕ) (m : ℕ) : ℕ := (caps.takeWhile (· < m)).length

/-- `_lookup` -/
def lookup (caps : List ℕ) (m : ℕ) : Option ℕ :=
  if bisectLeft caps m < caps.length then caps[bisectLeft caps m]? else caps.getLast?

/-- `self.plans[c]` -/
def planOf (plans : List PlanEntry) (c : ℕ) : Option PlanEntry := plans.find? fun e => e.cap = c

/-- A geometry that has been built. -/
structure Geometry where
  /-- `EXACT_MAX` -/
  exactMax : ℕ
  chunk : ℕ
  caps : List ℕ
  plans : List PlanEntry
  table : List (Option ℕ)
  /-- `self.arena.numel()` -/
  arena : ℕ

/-- The bytes a plan needs. -/
def PlanEntry.need (e : PlanEntry) : ℕ := (e.specs.map align).sum

/-- `self.plans[c].views` -/
def PlanEntry.views (e : PlanEntry) : List Region := carve 0 e.specs

/-- The fields of a geometry, from what `select_chunk` returned, the plans that are left and
those of the capacities. -/
def geometryOf (exactMax : ℕ) (sel : ℕ × List ℕ × List ℕ) (plans kept : List PlanEntry) :
    Geometry where
  exactMax := exactMax
  chunk := sel.1
  caps := sel.2.1
  plans := plans
  table := none :: (List.range exactMax).map fun i => lookup sel.2.1 (i + 1)
  arena := max ((kept.map PlanEntry.need).foldl max 0) 256

/-- The plans that are left when those of the dropped capacities have been deleted. -/
def plansLeft (prepared : List PlanEntry) (dropped : List ℕ) : List PlanEntry :=
  prepared.filter fun e => e.cap ∉ dropped

/-- The end of `build`, after the plans have been prepared. -/
def build (exactMax : ℕ) (prepared : List PlanEntry) : Option Geometry :=
  (selectChunk (prepared.map fun e => (e.cap, e.maxPerLaunch))).bind fun sel =>
    (sel.2.1.mapM (planOf (plansLeft prepared sel.2.2))).map
      (geometryOf exactMax sel (plansLeft prepared sel.2.2))

namespace Geometry

variable (g : Geometry)

/-- `cap_for` -/
def capFor (m : ℕ) : Option ℕ :=
  if m ≤ g.exactMax then g.table[m]?.join else lookup g.caps m

/-- `_run` of `m` rows: the plan that runs them, or an error. -/
def run (cap m : ℕ) : Option PlanEntry := if cap < m then none else planOf g.plans cap

/-- The loop of `forward` from row `s` on: the bounds of the chunks. It ends for a chunk that
is not empty. -/
def chunksFrom (mAll s : ℕ) : List (ℕ × ℕ) :=
  if s < mAll ∧ 0 < g.chunk then
    (s, min mAll (s + g.chunk)) :: chunksFrom mAll (min mAll (s + g.chunk))
  else []
  termination_by mAll - s
  decreasing_by omega

/-- One launch of `forward`. -/
structure Launch where
  s : ℕ
  e : ℕ
  cap : ℕ
  plan : PlanEntry

/-- The body of the loop of `forward`. -/
def launch (se : ℕ × ℕ) : Option Launch :=
  (g.capFor (se.2 - se.1)).bind fun cap =>
    (g.run cap (se.2 - se.1)).map fun plan => ⟨se.1, se.2, cap, plan⟩

/-- `forward` -/
def forward (mAll : ℕ) : Option (List Launch) := (g.chunksFrom mAll 0).mapM g.launch

end Geometry

/-! ## Pre-quantized input -/

/-- What a binding of a plan shows: the rows of `packed_input`, the size of
`packed_input_scale`, and whether they are of the right type and layout. -/
structure Bound where
  inputRows : ℕ
  scaleNumel : ℕ
  tokenMajor : Bool

/-- Views of the input storage of the plan of a capacity. -/
structure InputViews where
  cap : ℕ
  rows : ℕ
  scaleNumel : ℕ

/-- `_bind_views`; `bound` is `none` where the binding raises, and the result where the storage
cannot be used. -/
def bindViews (kb cap : ℕ) (bound : Option Bound) : Option InputViews :=
  bound.bind fun b =>
    if b.tokenMajor = true ∧ cap ≤ b.inputRows ∧ cap * kb ≤ b.scaleNumel then
      some ⟨cap, b.inputRows, b.scaleNumel⟩
    else none

/-- `self.pq_views`; `some none` is `False`. -/
abbrev PqViews := ℕ → Option (Option InputViews)

/-- A result of `prequant_views`: the capacity of the plan, and the shapes of the two views. -/
structure Prequant where
  cap : ℕ
  rows : ℕ
  scaleRows : ℕ
  deriving DecidableEq

/-- `pin[:m], psc[: m * kb].view(m, kb)`, where the last one raises unless the sizes agree. -/
def firstRows (kb m : ℕ) (v : InputViews) : Option Prequant :=
  if min (m * kb) v.scaleNumel = m * kb then some ⟨v.cap, min m v.rows, m⟩ else none

/-- `prequant_views(m)`; `impl` tells whether the runtime is patched, and `bound` is what a
binding would show now. The result and the cache after it. -/
def Geometry.prequantViews (g : Geometry) (kb : ℕ) (impl : Bool) (pq : PqViews) (m : ℕ)
    (bound : Option Bound) : Option Prequant × PqViews :=
  if impl = false ∨ ¬ (1 ≤ m ∧ m ≤ g.chunk) then (none, pq)
  else match g.capFor m with
    | none => (none, pq)
    | some cap =>
      let v := (pq cap).getD (bindViews kb cap bound)
      (v.bind (firstRows kb m), Function.update pq cap (some v))

/-- The cache after a run of calls. -/
def Geometry.prequantRun (g : Geometry) (kb : ℕ) (calls : List (Bool × ℕ × Option Bound)) : PqViews :=
  calls.foldl (fun pq c => (g.prequantViews kb c.1 pq c.2.1 c.2.2).2) fun _ => none

end MoeCapacities
