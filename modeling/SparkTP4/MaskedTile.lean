import Mathlib.Data.Nat.Log
import Mathlib.Order.MinMax
import SparkTP4.GridLoop
import SparkTP4.StridedMatrix

/-!
# Blocks of rows in masked tiles

A kernel goes over the rows of a matrix in blocks, and reads a block as a tile whose numbers of
rows and of columns are powers of two. A mask leaves out the rows and the columns past the
matrix; a lane that is masked off holds a constant. Every row is in exactly one block, and the
minimum over all tiles, with the greatest value where the mask is off, is the minimum over the
matrix.
-/

namespace MaskedTile

open GridLoop StridedMatrix

/-- `triton.next_power_of_2` -/
def nextPowerOf2 (n : ℕ) : ℕ := 2 ^ Nat.clog 2 n

theorem le_nextPowerOf2 (n : ℕ) : n ≤ nextPowerOf2 n := Nat.le_pow_clog Nat.one_lt_two n

/-! ## Minima -/

section Min

variable {α : Type} [LinearOrder α] (top : α)

/-- The minimum of a list, `top` being the greatest value there is. -/
def minOf (l : List α) : α := l.foldl min top

variable {top}

theorem le_foldl_min {l : List α} {a x : α} : x ≤ l.foldl min a ↔ x ≤ a ∧ ∀ y ∈ l, x ≤ y := by
  induction l generalizing a with
  | nil => simp
  | cons y l ih =>
    rw [List.foldl_cons, ih, le_min_iff, List.forall_mem_cons, and_assoc]

theorem le_minOf {l : List α} {x : α} : x ≤ minOf top l ↔ x ≤ top ∧ ∀ y ∈ l, x ≤ y :=
  le_foldl_min

theorem minOf_le {l : List α} {y : α} (hy : y ∈ l) : minOf top l ≤ y := (le_minOf.mp le_rfl).2 y hy

theorem minOf_le_top (l : List α) : minOf top l ≤ top := (le_minOf.mp le_rfl).1

theorem minOf_mem (l : List α) : minOf top l = top ∨ minOf top l ∈ l := by
  suffices h : ∀ a, l.foldl min a = a ∨ l.foldl min a ∈ l from h top
  induction l with
  | nil => exact fun _ => Or.inl rfl
  | cons y l ih =>
    intro a
    rw [List.foldl_cons]
    refine (ih (min a y)).elim (fun h => ?_) fun h => Or.inr (List.mem_cons_of_mem y h)
    rw [h]
    refine (min_choice a y).imp id fun hy => ?_
    rw [hy]
    exact List.mem_cons_self

end Min

/-! ## Blocks -/

section Block

variable {step n : ℕ}

/-- Every row is in a block. -/
theorem exists_block (hstep : 0 < step) {r : ℕ} (hr : r < n) :
    ∃ r0 ∈ strided step n 0, ∃ i < step, r = r0 + i := by
  obtain ⟨c, hc, hle, hlt⟩ := exists_chunk hstep (Nat.zero_le r) hr
  have hlt := hlt.trans_le (min_le_left _ _)
  exact ⟨c, hc, r - c, Nat.sub_lt_left_of_lt_add hle hlt, (Nat.add_sub_cancel' hle).symm⟩

variable {α : Type} [LinearOrder α] {top : α}

/-- The minimum of a tile, rows first. -/
def tileMin (top : α) (rows cols : ℕ) (v : ℕ → ℕ → α) : α :=
  minOf top ((List.range rows).map fun i => minOf top ((List.range cols).map (v i)))

/-- The minimum over all blocks, kept in a register. -/
def blocksMin (top : α) (step n cols : ℕ) (v : ℕ → ℕ → α) : α :=
  (strided step n 0).foldl (fun best r0 => min best (tileMin top step cols fun i => v (r0 + i))) top

theorem le_tileMin {rows cols : ℕ} {v : ℕ → ℕ → α} {x : α} :
    x ≤ tileMin top rows cols v ↔ x ≤ top ∧ ∀ i < rows, ∀ c < cols, x ≤ v i c := by
  simp only [tileMin, le_minOf, List.forall_mem_map, List.mem_range]
  exact ⟨fun h => ⟨h.1, fun i hi => (h.2 i hi).2⟩, fun h => ⟨h.1, fun i hi => ⟨h.1, h.2 i hi⟩⟩⟩

theorem le_blocksMin {cols : ℕ} {v : ℕ → ℕ → α} {x : α} : x ≤ blocksMin top step n cols v ↔
    x ≤ top ∧ ∀ r0 ∈ strided step n 0, ∀ i < step, ∀ c < cols, x ≤ v (r0 + i) c := by
  have heq : blocksMin top step n cols v =
      minOf top ((strided step n 0).map fun r0 => tileMin top step cols fun i => v (r0 + i)) :=
    List.foldl_map.symm
  simp only [heq, le_minOf, List.forall_mem_map, le_tileMin]
  exact ⟨fun h => ⟨h.1, fun r0 h0 => (h.2 r0 h0).2⟩, fun h => ⟨h.1, fun r0 h0 => ⟨h.1, h.2 r0 h0⟩⟩⟩

/-- **The minimum over the tiles is the minimum over the matrix**, where a lane that is masked
off holds the greatest value. -/
theorem blocksMin_eq {m k cols : ℕ} {v w : ℕ → ℕ → α} (hstep : 0 < step) (hk : k ≤ cols)
    (hin : ∀ r < m, ∀ c < k, v r c = w r c) (hout : ∀ r c, ¬ (r < m ∧ c < k) → v r c = top) :
    blocksMin top step m cols v = tileMin top m k w := by
  refine eq_of_forall_le_iff fun x => ?_
  rw [le_blocksMin, le_tileMin]
  refine and_congr_right fun htop => ⟨fun h r hr c hc => ?_, fun h r0 _ i _ c _ => ?_⟩
  · obtain ⟨r0, hr0, i, hi, rfl⟩ := exists_block hstep hr
    rw [← hin _ hr c hc]
    exact h r0 hr0 i hi c (hc.trans_le hk)
  · by_cases hmask : r0 + i < m ∧ c < k
    · rw [hin _ hmask.1 c hmask.2]
      exact h _ hmask.1 c hmask.2
    · rw [hout _ _ hmask]
      exact htop

end Block

/-! ## Stores -/

section Store

variable {P : Type}

/-- The masked store of a tile at row `r0`, to a contiguous matrix of `k` columns. -/
def tileStore (step cols m k : ℕ) (v : ℕ → ℕ → P) (r0 : ℕ) : List (ℕ × P) :=
  (List.range step).flatMap fun i => ((List.range cols).filter fun c => r0 + i < m ∧ c < k).map
    fun c => ((r0 + i) * k + c, v (r0 + i) c)

theorem mem_tileStore {step cols m k r0 : ℕ} {v : ℕ → ℕ → P} {w : ℕ × P} :
    w ∈ tileStore step cols m k v r0 ↔ ∃ i < step, ∃ c < cols, (r0 + i < m ∧ c < k) ∧
      w = ((r0 + i) * k + c, v (r0 + i) c) := by
  simp only [tileStore, List.mem_flatMap, List.mem_range, List.mem_map, List.mem_filter,
    decide_eq_true_iff]
  constructor
  · rintro ⟨i, hi, c, ⟨hc, hmask⟩, rfl⟩
    exact ⟨i, hi, c, hc, hmask, rfl⟩
  · rintro ⟨i, hi, c, hc, hmask, rfl⟩
    exact ⟨i, hi, c, ⟨hc, hmask⟩, rfl⟩

/-- The stores of all blocks. -/
def blocksStore (step cols m k : ℕ) (v : ℕ → ℕ → P) (mem : ℕ → P) : ℕ → P :=
  writeAll mem ((strided step m 0).flatMap (tileStore step cols m k v))

/-- **An element of the matrix** after the stores of all blocks. -/
theorem blocksStore_apply {step cols m k : ℕ} {v : ℕ → ℕ → P} (hstep : 0 < step) (hk : k ≤ cols)
    (mem : ℕ → P) {r c : ℕ} (hr : r < m) (hc : c < k) :
    blocksStore step cols m k v mem (r * k + c) = v r c := by
  refine writeAll_of_forall mem (fun w hw heq => ?_) ?_
  · obtain ⟨r0, -, hw⟩ := List.mem_flatMap.mp hw
    obtain ⟨i, -, c', -, hmask, rfl⟩ := mem_tileStore.mp hw
    obtain ⟨hrow, hcol⟩ := addr_inj hmask.2 hc heq
    show v (r0 + i) c' = v r c
    rw [hrow, hcol]
  · obtain ⟨r0, hr0, i, hi, rfl⟩ := exists_block hstep hr
    refine List.mem_map.mpr ⟨((r0 + i) * k + c, v (r0 + i) c), ?_, rfl⟩
    exact List.mem_flatMap.mpr ⟨r0, hr0, mem_tileStore.mpr
      ⟨i, hi, c, hc.trans_le hk, ⟨hr, hc⟩, rfl⟩⟩

/-- Nothing past the matrix is written. -/
theorem blocksStore_of_le {step cols m k : ℕ} {v : ℕ → ℕ → P} (mem : ℕ → P) {a : ℕ}
    (ha : m * k ≤ a) : blocksStore step cols m k v mem a = mem a := by
  refine writeAll_of_not_mem mem fun hmem => ?_
  obtain ⟨w, hw, rfl⟩ := List.mem_map.mp hmem
  obtain ⟨r0, -, hw⟩ := List.mem_flatMap.mp hw
  obtain ⟨i, -, c, -, hmask, rfl⟩ := mem_tileStore.mp hw
  have hlt : (r0 + i) * k + c < m * k := by
    calc (r0 + i) * k + c < (r0 + i) * k + k := Nat.add_lt_add_left hmask.2 _
      _ = (r0 + i + 1) * k := (Nat.succ_mul _ k).symm
      _ ≤ m * k := Nat.mul_le_mul_right k hmask.1
  exact absurd ha (Nat.not_le.mpr hlt)

end Store

end MaskedTile
