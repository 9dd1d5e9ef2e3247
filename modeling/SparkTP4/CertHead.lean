import Mathlib.Data.Finset.Lattice.Fold
import Mathlib.Order.Fin.Basic
import SparkTP4.ArgmaxLow

/-!
# The certified head

`adapter/cert_head.py` replaces the target head's matmul by a screen and a
refinement. The screen gives every vocabulary row `v` and every decode row an
interval `lo ≤ l ≤ hi` around the stock logit; the refinement computes the
exact logits of the tiles that may hold the maximum and writes `-inf`
elsewhere. The greedy accept only reads the argmax of the gathered logits,
and the point of this module is that it reads the same one.

The vocabulary is split over the ranks in contiguous shards and gathered in
rank order. Scores are elements of any linear order with a least and a
greatest element, which stand for `-inf` and `+inf`: nothing here adds or
rounds, so nothing else of the bf16 numbers is used.

The kernels compare each rank's `hi` with that rank's own threshold, the
largest `lo` of its shard. The largest `lo` of all shards would do as well,
and skips more; `Scope` selects between the two, and the main theorem holds
for both.
-/

variable {α : Type} [LinearOrder α] [BoundedOrder α]

namespace CertHead

/-- **The screened head of one step**: the shards, the stock logits and the
bounds of the screen, by rank, decode row and column of the rank's shard. -/
structure Head (α : Type) where
  /-- Number of tensor-parallel ranks. -/
  world : ℕ
  /-- Number of decode rows. -/
  rows : ℕ
  /-- Columns of each rank's shard. -/
  cols : ℕ → ℕ
  /-- Columns of a refinement tile. -/
  tile : ℕ
  /-- The stock logits. -/
  logit : ℕ → ℕ → ℕ → α
  /-- The screen's lower bounds, before the stop-id rule. -/
  lo : ℕ → ℕ → ℕ → α
  /-- The screen's upper bounds, before the stop-id rule. -/
  hi : ℕ → ℕ → ℕ → α

namespace Head

variable (h : Head α)

/-- The first vocabulary id of a rank's shard. -/
def vstart : ℕ → ℕ
  | 0 => 0
  | r + 1 => vstart r + h.cols r

/-- The lower bound the screen stores: a stop id never raises the
threshold. -/
def screenLo (stop : Finset ℕ) (r m j : ℕ) : α :=
  if h.vstart r + j ∈ stop then ⊥ else h.lo r m j

/-- The upper bound the screen stores: the tile of a stop id is always
computed. -/
def screenHi (stop : Finset ℕ) (r m j : ℕ) : α :=
  if h.vstart r + j ∈ stop then ⊤ else h.hi r m j

/-- The threshold of a rank: the atomic maximum of its shard's lower bounds,
starting from `-inf`. -/
def threshold (stop : Finset ℕ) (r m : ℕ) : α :=
  (Finset.range (h.cols r)).sup (h.screenLo stop r m)

/-- The maximum of the ranks' thresholds. -/
def worldThreshold (stop : Finset ℕ) (m : ℕ) : α :=
  (Finset.range h.world).sup (fun r => h.threshold stop r m)

end Head

/-- Which threshold a rank compares with. -/
inductive Scope where
  /-- Its own, as the kernels do. -/
  | rank
  /-- The maximum over the ranks. -/
  | world
  deriving DecidableEq

namespace Head

variable (h : Head α)

/-- The threshold of a decode row on a rank. -/
def thresholdIn (scope : Scope) (stop : Finset ℕ) (r m : ℕ) : α :=
  match scope with
  | .rank => h.threshold stop r m
  | .world => h.worldThreshold stop m

/-- **Whether tile `t` of rank `r` is computed**: in full mode, on a flagged
row, or when a column of the tile reaches the threshold in some row. -/
def needed (scope : Scope) (stop : Finset ℕ) (full : Bool) (bad : ℕ → Bool) (r t : ℕ) : Bool :=
  full || decide (∃ m < h.rows, bad m = true)
    || decide (∃ m < h.rows, ∃ j < h.cols r,
        j / h.tile = t ∧ h.thresholdIn scope stop r m ≤ h.screenHi stop r m j)

/-- **The refinement's output**: exact logits on the needed tiles, `-inf`
elsewhere. -/
def refine (scope : Scope) (stop : Finset ℕ) (full : Bool) (bad : ℕ → Bool)
    (r m j : ℕ) : α :=
  if h.needed scope stop full bad r (j / h.tile) then h.logit r m j else ⊥

/-- The vocabulary in gathered order, as pairs of a rank and a column. -/
def cells : List (ℕ × ℕ) :=
  (List.range h.world).flatMap (fun r => (List.range (h.cols r)).map (fun j => (r, j)))

/-- The vocabulary all-gather of one decode row. -/
def gather (f : ℕ → ℕ → α) : List α := h.cells.map (fun c => f c.1 c.2)

end Head

/-- The sampler's mask on a gathered row: `-inf` at the masked ids. -/
def maskRow (mask : Finset ℕ) (row : List α) : List α :=
  row.mapIdx (fun v x => if v ∈ mask then ⊥ else x)

theorem length_maskRow (mask : Finset ℕ) (row : List α) :
    (maskRow mask row).length = row.length := List.length_mapIdx

/-- The greedy choice over a gathered row. -/
def rowArgmax (row : List α) : ℕ := argmaxLow (fun v => row.getD v ⊥) row.length

/-- The score at the greedy choice. -/
def rowMax (row : List α) : α := row.getD (rowArgmax row) ⊥

namespace Head

variable (h : Head α)

/-! ## The gathered order

A column `j` of rank `r` is gathered at position `vstart r + j`, and every
position is of this form. -/

omit [LinearOrder α] [BoundedOrder α] in
theorem vstart_mono {r s : ℕ} (hrs : r ≤ s) : h.vstart r ≤ h.vstart s := by
  induction s, hrs using Nat.le_induction with
  | base => exact le_rfl
  | succ s _ ih => exact le_trans ih (Nat.le_add_right _ _)

omit [LinearOrder α] [BoundedOrder α] in
theorem vstart_add_lt {r j : ℕ} (hr : r < h.world) (hj : j < h.cols r) :
    h.vstart r + j < h.vstart h.world :=
  lt_of_lt_of_le (Nat.add_lt_add_left hj _) (h.vstart_mono (Nat.succ_le_of_lt hr))

omit [LinearOrder α] [BoundedOrder α] in
theorem exists_cell {v : ℕ} (w : ℕ) (hv : v < h.vstart w) :
    ∃ r < w, ∃ j < h.cols r, v = h.vstart r + j := by
  induction w with
  | zero => exact absurd hv (Nat.not_lt_zero v)
  | succ w ih =>
    by_cases hlt : v < h.vstart w
    · obtain ⟨r, hr, hcell⟩ := ih hlt
      exact ⟨r, Nat.lt_succ_of_lt hr, hcell⟩
    · refine ⟨w, Nat.lt_succ_self w, v - h.vstart w, ?_, by omega⟩
      have : v < h.vstart w + h.cols w := hv
      omega

/-- The gathered order over the first `w` ranks. -/
private def cellsBelow (w : ℕ) : List (ℕ × ℕ) :=
  (List.range w).flatMap (fun r => (List.range (h.cols r)).map (fun j => (r, j)))

omit [LinearOrder α] [BoundedOrder α] in
private theorem cellsBelow_succ (w : ℕ) :
    h.cellsBelow (w + 1) = h.cellsBelow w ++ (List.range (h.cols w)).map (fun j => (w, j)) := by
  simp only [cellsBelow, List.range_succ, List.flatMap_append, List.flatMap_singleton]

omit [LinearOrder α] [BoundedOrder α] in
private theorem length_cellsBelow (w : ℕ) : (h.cellsBelow w).length = h.vstart w := by
  induction w with
  | zero => rfl
  | succ w ih =>
    rw [cellsBelow_succ, List.length_append, ih, List.length_map, List.length_range]
    rfl

omit [LinearOrder α] [BoundedOrder α] in
private theorem getElem?_cellsBelow {w r j : ℕ} (hr : r < w) (hj : j < h.cols r) :
    (h.cellsBelow w)[h.vstart r + j]? = some (r, j) := by
  induction w with
  | zero => exact absurd hr (Nat.not_lt_zero r)
  | succ w ih =>
    rw [cellsBelow_succ]
    rcases Nat.lt_succ_iff_lt_or_eq.mp hr with hlt | rfl
    · have hlen : h.vstart r + j < (h.cellsBelow w).length := by
        rw [length_cellsBelow]
        exact lt_of_lt_of_le (Nat.add_lt_add_left hj _) (h.vstart_mono (Nat.succ_le_of_lt hlt))
      rw [List.getElem?_append_left hlen]
      exact ih hlt
    · rw [List.getElem?_append_right (by rw [length_cellsBelow]; omega), length_cellsBelow,
        Nat.add_sub_cancel_left, List.getElem?_map, List.getElem?_range hj]
      rfl

omit [LinearOrder α] [BoundedOrder α] in
theorem length_gather (f : ℕ → ℕ → α) : (h.gather f).length = h.vstart h.world := by
  rw [gather, List.length_map]
  exact h.length_cellsBelow h.world

/-- The masked row at the position of a column. -/
theorem maskRow_gather_getD (mask : Finset ℕ) (f : ℕ → ℕ → α) {r j : ℕ}
    (hr : r < h.world) (hj : j < h.cols r) :
    (maskRow mask (h.gather f)).getD (h.vstart r + j) ⊥
      = if h.vstart r + j ∈ mask then ⊥ else f r j := by
  have hcell : h.cells[h.vstart r + j]? = some (r, j) := h.getElem?_cellsBelow hr hj
  rw [List.getD_eq_getElem?_getD, maskRow, List.getElem?_mapIdx, gather, List.getElem?_map, hcell]
  rfl

/-! ## Exactness of the argmax -/

/-- **The screen's bounds are sound** where they are used: outside full mode,
and on a step none of whose rows is flagged. -/
def BoundsSound (full : Bool) (bad : ℕ → Bool) : Prop :=
  full = false → (∀ m < h.rows, bad m = false) →
    ∀ r < h.world, ∀ m < h.rows, ∀ j < h.cols r,
      h.lo r m j ≤ h.logit r m j ∧ h.logit r m j ≤ h.hi r m j

/-- A step in full mode or with a flagged row computes every tile. -/
theorem needed_of_full_or_bad (scope : Scope) (stop : Finset ℕ) {full : Bool} {bad : ℕ → Bool}
    (hfb : full = true ∨ ∃ m < h.rows, bad m = true) (r t : ℕ) :
    h.needed scope stop full bad r t = true := by
  rcases hfb with hf | hb
  · simp [needed, hf]
  · simp [needed, decide_eq_true hb]

/-- **A score strictly below the threshold is dominated**: some column that
is no stop id has a larger lower bound. Under either scope the column is one
of the gathered vocabulary. -/
theorem exists_lo_gt_of_lt_threshold (scope : Scope) (stop : Finset ℕ) {r m : ℕ}
    (hr : r < h.world) {x : α} (hx : x < h.thresholdIn scope stop r m) :
    ∃ r' < h.world, ∃ j' < h.cols r',
      h.vstart r' + j' ∉ stop ∧ x < h.lo r' m j' := by
  have hrank : ∀ r' < h.world, x < h.threshold stop r' m →
      ∃ r' < h.world, ∃ j' < h.cols r', h.vstart r' + j' ∉ stop ∧ x < h.lo r' m j' := by
    intro r' hr' hlt
    obtain ⟨j', hj', hlo⟩ := Finset.lt_sup_iff.mp hlt
    refine ⟨r', hr', j', Finset.mem_range.mp hj', ?_⟩
    unfold screenLo at hlo
    split_ifs at hlo with hstop
    · exact absurd hlo not_lt_bot
    · exact ⟨hstop, hlo⟩
  cases scope with
  | rank => exact hrank r hr hx
  | world =>
    change x < h.worldThreshold stop m at hx
    obtain ⟨r', hr', hlt⟩ := Finset.lt_sup_iff.mp hx
    exact hrank r' (Finset.mem_range.mp hr') hlt

/-- A column of a tile that is not computed is no stop id, and its upper
bound is below the threshold. -/
theorem lt_threshold_of_not_needed {scope : Scope} {stop : Finset ℕ} {full : Bool}
    {bad : ℕ → Bool} {r m j : ℕ} (hm : m < h.rows) (hj : j < h.cols r)
    (hn : h.needed scope stop full bad r (j / h.tile) = false) :
    h.vstart r + j ∉ stop ∧ h.hi r m j < h.thresholdIn scope stop r m := by
  have hhit : h.screenHi stop r m j < h.thresholdIn scope stop r m := by
    refine not_le.mp (fun hle => ?_)
    have : decide (∃ m < h.rows, ∃ j' < h.cols r, j' / h.tile = j / h.tile ∧
        h.thresholdIn scope stop r m ≤ h.screenHi stop r m j') = true :=
      decide_eq_true ⟨m, hm, j, hj, rfl, hle⟩
    rw [needed, this, Bool.or_true] at hn
    exact Bool.false_ne_true hn.symm
  unfold screenHi at hhit
  split_ifs at hhit with hstop
  · exact absurd hhit not_top_lt
  · exact ⟨hstop, hhit⟩

/-- The refinement keeps a logit, or drops one that another column that is
no stop id exceeds. -/
theorem refine_eq_or_dominated (scope : Scope) (stop : Finset ℕ) {full : Bool} {bad : ℕ → Bool}
    (hsound : h.BoundsSound full bad) {r m j : ℕ} (hr : r < h.world) (hm : m < h.rows)
    (hj : j < h.cols r) :
    h.refine scope stop full bad r m j = h.logit r m j ∨
      ∃ r' < h.world, ∃ j' < h.cols r', h.vstart r' + j' ∉ stop ∧
        h.logit r m j < h.logit r' m j' := by
  by_cases hn : h.needed scope stop full bad r (j / h.tile) = true
  · exact Or.inl (if_pos hn)
  · have hn' : h.needed scope stop full bad r (j / h.tile) = false := by simpa using hn
    have hfull : full = false := by
      refine Bool.eq_false_iff.mpr (fun hf => hn ?_)
      exact h.needed_of_full_or_bad scope stop (Or.inl hf) r _
    have hbad : ∀ m < h.rows, bad m = false := fun m hm => by
      refine Bool.eq_false_iff.mpr (fun hb => hn ?_)
      exact h.needed_of_full_or_bad scope stop (Or.inr ⟨m, hm, hb⟩) r _
    have hb := hsound hfull hbad
    obtain ⟨-, hhi⟩ := h.lt_threshold_of_not_needed hm hj hn'
    obtain ⟨r', hr', j', hj', hstop, hlo⟩ := h.exists_lo_gt_of_lt_threshold scope stop hr hhi
    refine Or.inr ⟨r', hr', j', hj', hstop, ?_⟩
    calc h.logit r m j ≤ h.hi r m j := (hb r hr m hm j hj).2
      _ < h.lo r' m j' := hlo
      _ ≤ h.logit r' m j' := (hb r' hr' m hm j' hj').1

/-- **The certified head is exact.** For every split of the vocabulary, every
number of decode rows, every tile size, every set of stop ids and every
subset of them that the sampler masks afterwards, the argmax of the masked
gathered output – ties to the lowest id – is that of the stock logits masked
the same way, and so is its value; and a step in full mode or with a flagged
row computes every tile. -/
theorem certified_argmax_exact (h : Head α) (scope : Scope) (stop mask : Finset ℕ)
    (hmask : mask ⊆ stop) (full : Bool) (bad : ℕ → Bool) (hsound : h.BoundsSound full bad) :
    (∀ m < h.rows,
      rowArgmax (maskRow mask (h.gather (fun r j => h.refine scope stop full bad r m j)))
          = rowArgmax (maskRow mask (h.gather (fun r j => h.logit r m j))) ∧
      rowMax (maskRow mask (h.gather (fun r j => h.refine scope stop full bad r m j)))
          = rowMax (maskRow mask (h.gather (fun r j => h.logit r m j)))) ∧
    ((full = true ∨ ∃ m < h.rows, bad m = true) →
      ∀ r t, h.needed scope stop full bad r t = true) := by
  refine ⟨fun m hm => ?_, fun hfb r t => h.needed_of_full_or_bad scope stop hfb r t⟩
  unfold rowArgmax rowMax rowArgmax
  simp only [length_maskRow, h.length_gather]
  rcases Nat.eq_zero_or_pos (h.vstart h.world) with hzero | hpos
  · have hempty : ∀ f : ℕ → ℕ → α, maskRow mask (h.gather f) = [] := fun f =>
      List.eq_nil_of_length_eq_zero (by rw [length_maskRow, h.length_gather, hzero])
    simp only [hempty, hzero, and_self]
  · refine argmaxLow_eq_of_dominated hpos (fun v hv => ?_)
    obtain ⟨r, hr, j, hj, rfl⟩ := h.exists_cell h.world hv
    rw [h.maskRow_gather_getD mask _ hr hj, h.maskRow_gather_getD mask _ hr hj]
    by_cases hv : h.vstart r + j ∈ mask
    · exact Or.inl (by rw [if_pos hv, if_pos hv])
    · rw [if_neg hv, if_neg hv]
      rcases h.refine_eq_or_dominated scope stop hsound hr hm hj with he | ⟨r', hr', j', hj', hs, hlt⟩
      · exact Or.inl he
      · refine Or.inr ⟨?_, h.vstart r' + j', h.vstart_add_lt hr' hj', ?_⟩
        · unfold refine
          split_ifs
          · exact le_rfl
          · exact bot_le
        · rw [h.maskRow_gather_getD mask _ hr' hj', if_neg (fun hin => hs (hmask hin))]
          exact hlt

end Head

/-- Two ranks of two columns each. The best lower bound of the first rank is
below the second's, the two ranks tie at the maximum, and the last id is a
stop id. -/
def twoRanks : Head (Fin 8) where
  world := 2
  rows := 1
  cols _ := 2
  tile := 1
  logit r _ j := if r = 0 then (if j = 0 then 5 else 2) else (if j = 0 then 5 else 6)
  lo r _ j := if r = 0 then (if j = 0 then 4 else 1) else (if j = 0 then 5 else 6)
  hi r _ j := if r = 0 then (if j = 0 then 5 else 3) else (if j = 0 then 5 else 6)

/-- With the stop id masked, both scopes choose id `0`, where the two ranks
tie. -/
theorem certified_argmax_exact_twoRanks :
    rowArgmax (maskRow {3} (twoRanks.gather
        (fun r j => twoRanks.refine .world {3} false (fun _ => false) r 0 j)))
      = rowArgmax (maskRow {3} (twoRanks.gather (fun r j => twoRanks.logit r 0 j))) :=
  ((twoRanks.certified_argmax_exact .world {3} {3} (Finset.Subset.refl _) false
    (fun _ => false) (by unfold Head.BoundsSound; decide)).1 0 (by decide)).1

end CertHead
