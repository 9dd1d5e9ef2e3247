import Mathlib.Data.List.Basic
import Mathlib.Data.List.GetD
import Mathlib.Data.List.Range
import Mathlib.Order.Monotone.Basic
import Mathlib.Data.Nat.Find
import Mathlib.Algebra.GroupWithZero.Nat

/-!
# Matrices by rows

A matrix as the list of its rows, with its number of columns. Columns are sliced with the
clamping of array slices, and matrices are concatenated along either dimension where their
other dimension agrees.

A family of matrices *shards* a matrix when each of them holds, from an offset of its own
on, the columns between two consecutive cuts (`Shards`). Whatever else the parts hold, the
cut columns concatenated are the whole matrix – from the parts side by side
(`Shards.catCols_wide`) as well as one by one (`Shards.catCols_parts`).
-/

/-- A matrix of `cols` columns, row by row. -/
@[ext] structure RowMatrix (α : Type) where
  cols : ℕ
  rows : List (List α)
  length_row : ∀ row ∈ rows, row.length = cols

namespace RowMatrix

variable {α : Type}

/-- The number of rows. -/
def height (m : RowMatrix α) : ℕ := m.rows.length

/-- Row `i`. -/
def row (m : RowMatrix α) (i : ℕ) : List α := m.rows.getD i []

theorem row_mem {m : RowMatrix α} {i : ℕ} (hi : i < m.height) : m.row i ∈ m.rows := by
  unfold row
  rw [List.getD_eq_getElem _ _ hi]
  exact List.getElem_mem hi

theorem length_row_of_lt {m : RowMatrix α} {i : ℕ} (hi : i < m.height) :
    (m.row i).length = m.cols :=
  m.length_row _ (row_mem hi)

/-- **Matrices are equal when they have the same shape and the same rows.** -/
theorem ext_row {a b : RowMatrix α} (hcols : a.cols = b.cols) (hheight : a.height = b.height)
    (hrow : ∀ i < a.height, a.row i = b.row i) : a = b := by
  refine RowMatrix.ext hcols (List.ext_getElem hheight fun i hi hi' => ?_)
  have h := hrow i hi
  unfold row at h
  rwa [List.getD_eq_getElem _ _ hi, List.getD_eq_getElem _ _ hi'] at h

/-- The matrix of these rows. -/
def ofFn (height cols : ℕ) (f : ℕ → List α) (h : ∀ i, (f i).length = cols) : RowMatrix α where
  cols := cols
  rows := (List.range height).map f
  length_row row hrow := by
    obtain ⟨i, -, rfl⟩ := List.mem_map.mp hrow
    exact h i

section ofFn

variable {n k : ℕ} {f : ℕ → List α} {h : ∀ i, (f i).length = k}

@[simp] theorem cols_ofFn : (ofFn n k f h).cols = k := rfl

@[simp] theorem height_ofFn : (ofFn n k f h).height = n := by
  unfold height ofFn
  rw [List.length_map, List.length_range]

theorem row_ofFn {i : ℕ} (hi : i < n) : (ofFn n k f h).row i = f i := by
  unfold row ofFn
  rw [List.getD_eq_getElem _ _ (by rwa [List.length_map, List.length_range]), List.getElem_map,
    List.getElem_range]

end ofFn

/-! ## Slices of columns -/

/-- `m[:, lo:hi]` -/
def slice (m : RowMatrix α) (lo hi : ℕ) : RowMatrix α where
  cols := min hi m.cols - lo
  rows := m.rows.map fun row => (row.drop lo).take (hi - lo)
  length_row row hrow := by
    obtain ⟨row, hmem, rfl⟩ := List.mem_map.mp hrow
    rw [List.length_take, List.length_drop, m.length_row row hmem]
    omega

@[simp] theorem height_slice (m : RowMatrix α) (lo hi : ℕ) : (m.slice lo hi).height = m.height :=
  List.length_map _

theorem cols_slice {m : RowMatrix α} {lo hi : ℕ} (hhi : hi ≤ m.cols) :
    (m.slice lo hi).cols = hi - lo :=
  congrArg (· - lo) (Nat.min_eq_left hhi)

@[simp] theorem row_slice (m : RowMatrix α) (lo hi i : ℕ) :
    (m.slice lo hi).row i = ((m.row i).drop lo).take (hi - lo) := by
  unfold row slice
  have hnil : ([] : List α) = (([] : List α).drop lo).take (hi - lo) := by simp
  rw [hnil, List.getD_map]
  simp

theorem slice_full (m : RowMatrix α) : m.slice 0 m.cols = m := by
  refine ext_row (cols_slice le_rfl) (height_slice m 0 m.cols) fun i hi => ?_
  rw [height_slice] at hi
  rw [row_slice, List.drop_zero, Nat.sub_zero, List.take_of_length_le (length_row_of_lt hi).le]

/-- A slice of a slice is a slice. -/
theorem slice_slice {m : RowMatrix α} {lo hi a b : ℕ} (hhi : hi ≤ m.cols) (hb : b ≤ hi - lo) :
    (m.slice lo hi).slice a b = m.slice (lo + a) (lo + b) := by
  refine ext_row ?_ (by simp) fun i _ => ?_
  · show min b (min hi m.cols - lo) - a = min (lo + b) m.cols - (lo + a)
    omega
  · simp only [row_slice]
    rw [List.drop_take, List.drop_drop, List.take_take, show lo + b - (lo + a) = b - a by omega]
    exact congrArg (List.take · _) (by omega)

/-- `pad(m, (0, k))`: `k` columns of zeros on the right. -/
def padCols [Zero α] (m : RowMatrix α) (k : ℕ) : RowMatrix α where
  cols := m.cols + k
  rows := m.rows.map fun row => row ++ List.replicate k 0
  length_row row hrow := by
    obtain ⟨row, hmem, rfl⟩ := List.mem_map.mp hrow
    rw [List.length_append, List.length_replicate, m.length_row row hmem]

theorem height_padCols [Zero α] (m : RowMatrix α) (k : ℕ) : (m.padCols k).height = m.height :=
  List.length_map _

theorem slice_padCols [Zero α] (m : RowMatrix α) (k : ℕ) {lo hi : ℕ} (hhi : hi ≤ m.cols) :
    (m.padCols k).slice lo hi = m.slice lo hi := by
  refine RowMatrix.ext ?_ ?_
  · rw [cols_slice hhi]
    exact cols_slice (hhi.trans (Nat.le_add_right m.cols k))
  · show (m.rows.map _).map _ = m.rows.map _
    rw [List.map_map]
    refine List.map_congr_left fun row hrow => ?_
    have hlen := m.length_row row hrow
    show ((row ++ List.replicate k 0).drop lo).take (hi - lo) = (row.drop lo).take (hi - lo)
    rcases Nat.le_total hi lo with hle | hle
    · rw [Nat.sub_eq_zero_of_le hle, List.take_zero, List.take_zero]
    · rw [List.drop_append_of_le_length (by omega), List.take_append_of_le_length (by
        rw [List.length_drop]
        omega)]

/-! ## Concatenation -/

/-- The rows of the parts, joined one by one. -/
def joined (n : ℕ) (parts : List (RowMatrix α)) (h : ∀ p ∈ parts, p.height = n) : RowMatrix α where
  cols := (parts.map cols).sum
  rows := (List.range n).map fun i => parts.flatMap fun p => p.row i
  length_row row hrow := by
    obtain ⟨i, hi, rfl⟩ := List.mem_map.mp hrow
    rw [List.length_flatMap]
    refine congrArg List.sum (List.map_congr_left fun p hp => length_row_of_lt ?_)
    rw [h p hp]
    exact List.mem_range.mp hi

theorem height_joined {n : ℕ} {parts : List (RowMatrix α)} (h : ∀ p ∈ parts, p.height = n) :
    (joined n parts h).height = n := by
  show ((List.range n).map _).length = n
  rw [List.length_map, List.length_range]

theorem row_joined {n i : ℕ} {parts : List (RowMatrix α)} (h : ∀ p ∈ parts, p.height = n)
    (hi : i < n) : (joined n parts h).row i = parts.flatMap fun p => p.row i := by
  show ((List.range n).map _).getD i [] = _
  rw [List.getD_eq_getElem _ _ (by rwa [List.length_map, List.length_range]), List.getElem_map,
    List.getElem_range]

/-- `torch.cat(parts, dim=-1)` -/
def catCols : List (RowMatrix α) → Option (RowMatrix α)
  | [] => none
  | p :: parts =>
    if h : ∀ q ∈ p :: parts, q.height = p.height then some (joined p.height (p :: parts) h)
    else none

theorem catCols_of_height {n : ℕ} {parts : List (RowMatrix α)} (hne : parts ≠ [])
    (h : ∀ p ∈ parts, p.height = n) : catCols parts = some (joined n parts h) := by
  cases parts with
  | nil => exact absurd rfl hne
  | cons p parts =>
    obtain rfl := h p List.mem_cons_self
    exact dif_pos h

/-- The matrix that the parts make side by side. -/
theorem catCols_eq_some {parts : ℕ → RowMatrix α} {world : ℕ} {m : RowMatrix α}
    (hworld : 0 < world) (hheight : ∀ r < world, (parts r).height = m.height)
    (hcols : ((List.range world).map fun r => (parts r).cols).sum = m.cols)
    (hrow : ∀ i < m.height, ((List.range world).flatMap fun r => (parts r).row i) = m.row i) :
    catCols ((List.range world).map parts) = some m := by
  have hne : (List.range world).map parts ≠ [] := by
    rw [Ne, List.map_eq_nil_iff, List.range_eq_nil]
    exact hworld.ne'
  have hmem : ∀ p ∈ (List.range world).map parts, p.height = m.height := by
    intro p hp
    obtain ⟨r, hr, rfl⟩ := List.mem_map.mp hp
    exact hheight r (List.mem_range.mp hr)
  rw [catCols_of_height hne hmem]
  refine congrArg some (ext_row ?_ (height_joined hmem) fun i hi => ?_)
  · show (((List.range world).map parts).map cols).sum = m.cols
    rw [List.map_map]
    exact hcols
  · rw [height_joined] at hi
    rw [row_joined hmem hi, List.flatMap_map]
    exact hrow i hi

/-- `torch.cat(parts, dim=0)` -/
def catRows (parts : List (RowMatrix α)) : Option (RowMatrix α) :=
  if h : parts ≠ [] ∧ ∀ p ∈ parts, ∀ q ∈ parts, p.cols = q.cols then
    some {
      cols := (parts.head h.1).cols
      rows := parts.flatMap rows
      length_row := fun row hrow => by
        obtain ⟨p, hp, hrow⟩ := List.mem_flatMap.mp hrow
        rw [p.length_row row hrow, h.2 p hp _ (List.head_mem h.1)] }
  else none

/-- `m.view(count, height, width)`, for a matrix of `count * height` rows of `width`. -/
def stacked (m : RowMatrix α) (count height width : ℕ) : Option (List (RowMatrix α)) :=
  if m.rows.length = count * height ∧ m.cols = width then
    some ((List.range count).map fun r => {
      cols := m.cols
      rows := (m.rows.drop (r * height)).take height
      length_row := fun row hrow =>
        m.length_row row (List.mem_of_mem_drop (List.mem_of_mem_take hrow)) })
  else none

theorem sum_range_const {f : ℕ → ℕ} {n c : ℕ} (hf : ∀ r < n, f r = c) :
    ((List.range n).map f).sum = n * c := by
  rw [List.map_congr_left (g := fun _ => c) fun r hr => hf r (List.mem_range.mp hr)]
  simp

/-- Of equally long pieces joined, one is found at its multiple of the length. -/
theorem take_drop_flatMap {f : ℕ → List α} {w n r : ℕ} (hlen : ∀ k < n, (f k).length = w)
    (hr : r < n) : (((List.range n).flatMap f).drop (r * w)).take w = f r := by
  have hbefore : ((List.range r).flatMap f).length = r * w := by
    rw [List.length_flatMap]
    exact sum_range_const fun k hk => hlen k (lt_trans hk hr)
  obtain ⟨k, rfl⟩ := Nat.exists_eq_add_of_lt hr
  rw [Nat.add_assoc, List.range_add, List.flatMap_append, ← hbefore, List.drop_left,
    Nat.add_comm k 1, List.range_add, List.map_append, List.flatMap_append]
  have hhead : (((List.range 1).map (r + ·)).flatMap f) = f r := by simp
  rw [hhead]
  exact List.take_left' (hlen r hr)

/-- **Matrices of one shape stacked**: the blocks of rows are the matrices again. -/
theorem stacked_catRows {parts : ℕ → RowMatrix α} {world height width : ℕ} (hworld : 0 < world)
    (hheight : ∀ r < world, (parts r).height = height)
    (hcols : ∀ r < world, (parts r).cols = width) :
    ((catRows ((List.range world).map parts)).bind fun m => m.stacked world height width) =
      some ((List.range world).map parts) := by
  have hne : (List.range world).map parts ≠ [] := by
    rw [Ne, List.map_eq_nil_iff, List.range_eq_nil]
    exact hworld.ne'
  have hmem : ∀ p ∈ (List.range world).map parts, p.cols = width := by
    intro p hp
    obtain ⟨r, hr, rfl⟩ := List.mem_map.mp hp
    exact hcols r (List.mem_range.mp hr)
  unfold catRows
  rw [dif_pos ⟨hne, fun p hp q hq => (hmem p hp).trans (hmem q hq).symm⟩]
  show stacked _ _ _ _ = _
  unfold stacked
  rw [if_pos]
  · refine congrArg some (List.map_congr_left fun r hr => RowMatrix.ext ?_ ?_)
    · exact (hmem _ (List.head_mem hne)).trans (hcols r (List.mem_range.mp hr)).symm
    · show ((((List.range world).map parts).flatMap rows).drop (r * height)).take height = _
      rw [List.flatMap_map]
      exact take_drop_flatMap hheight (List.mem_range.mp hr)
  · refine ⟨?_, hmem ((List.range world).map parts |>.head hne) (List.head_mem hne)⟩
    show (((List.range world).map parts).flatMap rows).length = _
    rw [List.flatMap_map, List.length_flatMap]
    exact sum_range_const hheight

/-- **Matrices of one shape, one below the other**: row `i` of part `r` is row
`r * height + i`. -/
theorem catRows_eq_some {parts : ℕ → RowMatrix α} {world height width : ℕ} (hworld : 0 < world)
    (hheight : ∀ r < world, (parts r).height = height)
    (hcols : ∀ r < world, (parts r).cols = width) :
    ∃ m, catRows ((List.range world).map parts) = some m ∧ m.cols = width ∧
      m.height = world * height ∧
      ∀ r < world, ∀ i < height, m.row (r * height + i) = (parts r).row i := by
  have hne : (List.range world).map parts ≠ [] := by
    rw [Ne, List.map_eq_nil_iff, List.range_eq_nil]
    exact hworld.ne'
  have hmem : ∀ p ∈ (List.range world).map parts, p.cols = width := by
    intro p hp
    obtain ⟨r, hr, rfl⟩ := List.mem_map.mp hp
    exact hcols r (List.mem_range.mp hr)
  unfold catRows
  rw [dif_pos ⟨hne, fun p hp q hq => (hmem p hp).trans (hmem q hq).symm⟩]
  refine ⟨_, rfl, hmem (List.head _ hne) (List.head_mem hne), ?_, fun r hr i hi => ?_⟩
  · show (((List.range world).map parts).flatMap rows).length = _
    rw [List.flatMap_map, List.length_flatMap]
    exact sum_range_const hheight
  · show (((List.range world).map parts).flatMap rows).getD (r * height + i) [] = _
    have hblock := take_drop_flatMap (f := fun r => (parts r).rows) hheight hr
    unfold row
    rw [List.flatMap_map, ← hblock, List.getD_eq_getElem?_getD, List.getD_eq_getElem?_getD,
      List.getElem?_take_of_lt hi, List.getElem?_drop]

/-! ## Entries and blocks of columns -/

section entry

variable [Zero α]

/-- The entry at a row and a column. -/
def entry (m : RowMatrix α) (i c : ℕ) : α := (m.row i).getD c 0

theorem row_eq_map {m : RowMatrix α} {i : ℕ} (hi : i < m.height) :
    m.row i = (List.range m.cols).map (m.entry i) := by
  have hlen := length_row_of_lt hi
  refine List.ext_getElem (by rw [List.length_map, List.length_range, hlen]) fun c hc _ => ?_
  rw [List.getElem_map, List.getElem_range]
  exact (List.getD_eq_getElem _ _ hc).symm

theorem entry_slice (m : RowMatrix α) {lo hi i c : ℕ} (hc : c < hi - lo) :
    (m.slice lo hi).entry i c = m.entry i (lo + c) := by
  unfold entry
  rw [row_slice]
  simp [hc]

end entry

/-- **Every position before the last cut is between exactly one pair of consecutive cuts.** -/
theorem existsUnique_cut {cut : ℕ → ℕ} (hmono : Monotone cut) (hzero : cut 0 = 0) {n p : ℕ}
    (hp : p < cut n) : ∃! r, r < n ∧ cut r ≤ p ∧ p < cut (r + 1) := by
  have hex : ∃ k, p < cut k := ⟨n, hp⟩
  obtain ⟨r, hr⟩ : ∃ r, Nat.find hex = r + 1 := by
    refine Nat.exists_eq_succ_of_ne_zero fun h0 => ?_
    have hspec := Nat.find_spec hex
    rw [h0, hzero] at hspec
    exact Nat.not_lt_zero p hspec
  have hle : cut r ≤ p := Nat.not_lt.mp (Nat.find_min hex (hr ▸ Nat.lt_succ_self r))
  have hlt : p < cut (r + 1) := hr ▸ Nat.find_spec hex
  refine ⟨r, ⟨?_, hle, hlt⟩, fun r' ⟨_, hle', hlt'⟩ => ?_⟩
  · exact Nat.lt_of_not_le fun hge => absurd (hp.trans_le (hmono hge)) (Nat.not_lt.mpr hle)
  · rcases Nat.lt_trichotomy r' r with h | h | h
    · exact absurd (hlt'.trans_le (hmono h)) (Nat.not_lt.mpr hle)
    · exact h
    · exact absurd (hlt.trans_le (hmono h)) (Nat.not_lt.mpr hle')

/-- The lengths between consecutive cuts. -/
theorem sum_cuts {cut : ℕ → ℕ} (hmono : Monotone cut) (hzero : cut 0 = 0) (n : ℕ) :
    ((List.range n).map fun r => cut (r + 1) - cut r).sum = cut n := by
  induction n with
  | zero => exact hzero.symm
  | succ n ih =>
    rw [List.range_succ, List.map_append, List.sum_append, ih, List.map_singleton,
      List.sum_singleton, Nat.add_sub_cancel' (hmono (Nat.le_succ n))]

/-- Of pieces that end at consecutive cuts, one is found between its cuts. -/
theorem take_drop_flatMap_cuts {f : ℕ → List α} {cut : ℕ → ℕ} (hmono : Monotone cut)
    (hzero : cut 0 = 0) {n r : ℕ} (hlen : ∀ k < n, (f k).length = cut (k + 1) - cut k) (hr : r < n) :
    (((List.range n).flatMap f).drop (cut r)).take (cut (r + 1) - cut r) = f r := by
  have hbefore : ((List.range r).flatMap f).length = cut r := by
    rw [List.length_flatMap, ← sum_cuts hmono hzero r]
    refine congrArg List.sum (List.map_congr_left fun k hk => ?_)
    exact hlen k (lt_trans (List.mem_range.mp hk) hr)
  obtain ⟨k, rfl⟩ := Nat.exists_eq_add_of_lt hr
  rw [Nat.add_assoc, List.range_add, List.flatMap_append, ← hbefore, List.drop_left, hbefore,
    Nat.add_comm k 1, List.range_add, List.map_append, List.flatMap_append]
  have hhead : (((List.range 1).map (r + ·)).flatMap f) = f r := by simp
  rw [hhead]
  exact List.take_left' (hlen r hr)

/-- The columns between consecutive cuts, joined, are the columns before the last cut. -/
theorem flatMap_cuts (l : List α) {cut : ℕ → ℕ} (hmono : Monotone cut) (hzero : cut 0 = 0) : ∀ n,
    ((List.range n).flatMap fun r => (l.drop (cut r)).take (cut (r + 1) - cut r)) =
      l.take (cut n)
  | 0 => by
    rw [hzero]
    rfl
  | n + 1 => by
    rw [List.range_succ, List.flatMap_append, flatMap_cuts l hmono hzero n, List.flatMap_singleton,
      ← List.take_add, Nat.add_sub_cancel' (hmono (Nat.le_succ n))]

/-- **Matrices with the same blocks of columns are equal.** -/
theorem ext_blocks {a b : RowMatrix α} {n w : ℕ} (ha : a.cols = n * w) (hb : b.cols = n * w)
    (hheight : a.height = b.height)
    (hblock : ∀ t < n, a.slice (t * w) ((t + 1) * w) = b.slice (t * w) ((t + 1) * w)) : a = b := by
  have hmono : Monotone fun t => t * w := fun _ _ hle => Nat.mul_le_mul_right w hle
  refine ext_row (ha.trans hb.symm) hheight fun i hi => ?_
  have ha' := flatMap_cuts (a.row i) hmono (Nat.zero_mul w) n
  have hb' := flatMap_cuts (b.row i) hmono (Nat.zero_mul w) n
  rw [List.take_of_length_le (by rw [length_row_of_lt hi, ha])] at ha'
  rw [List.take_of_length_le (by rw [length_row_of_lt (hheight ▸ hi), hb])] at hb'
  rw [← ha', ← hb']
  refine List.flatMap_congr fun t ht => ?_
  have h := congrArg (fun m => m.row i) (hblock t (List.mem_range.mp ht))
  rwa [row_slice, row_slice] at h

/-! ## Shards -/

/-- **Parts that shard a matrix.** Part `r` has the columns of `m` from `cut r` to
`cut (r + 1)` at `off r`. -/
structure Shards (m : RowMatrix α) (world : ℕ) (cut off : ℕ → ℕ) (parts : ℕ → RowMatrix α) :
    Prop where
  mono : Monotone cut
  cut_zero : cut 0 = 0
  cut_world : cut world = m.cols
  height : ∀ r < world, (parts r).height = m.height
  fits : ∀ r < world, off r + (cut (r + 1) - cut r) ≤ (parts r).cols
  holds : ∀ r < world, (parts r).slice (off r) (off r + (cut (r + 1) - cut r)) =
    m.slice (cut r) (cut (r + 1))

namespace Shards

variable {m : RowMatrix α} {world : ℕ} {cut off : ℕ → ℕ} {parts : ℕ → RowMatrix α}

theorem cut_le (h : Shards m world cut off parts) {r : ℕ} (hr : r < world) :
    cut (r + 1) ≤ m.cols :=
  (h.mono hr).trans_eq h.cut_world

theorem sum_cols (h : Shards m world cut off parts) :
    ((List.range world).map fun r => cut (r + 1) - cut r).sum = m.cols :=
  (sum_cuts h.mono h.cut_zero world).trans h.cut_world

/-- The shards of the matrix itself, side by side. -/
theorem catCols_slices (h : Shards m world cut off parts) (hworld : 0 < world) :
    catCols ((List.range world).map fun r => m.slice (cut r) (cut (r + 1))) = some m := by
  refine catCols_eq_some hworld (fun r _ => height_slice m _ _) ?_ fun i hi => ?_
  · rw [List.map_congr_left fun r hr => cols_slice (h.cut_le (List.mem_range.mp hr))]
    exact h.sum_cols
  · simp only [row_slice]
    rw [flatMap_cuts _ h.mono h.cut_zero, h.cut_world,
      List.take_of_length_le (length_row_of_lt hi).le]

/-- **Each part cut, then concatenated.** -/
theorem catCols_parts (h : Shards m world cut off parts) (hworld : 0 < world) :
    catCols ((List.range world).map fun r =>
      (parts r).slice (off r) (off r + (cut (r + 1) - cut r))) = some m := by
  rw [List.map_congr_left fun r hr => h.holds r (List.mem_range.mp hr)]
  exact h.catCols_slices hworld

/-- The part that is found in the concatenation. -/
theorem slice_joined {width : ℕ} (h : Shards m world cut off parts)
    (hwidth : ∀ r < world, (parts r).cols = width)
    (hmem : ∀ p ∈ (List.range world).map parts, p.height = m.height) {r : ℕ} (hr : r < world) :
    (joined m.height ((List.range world).map parts) hmem).slice (r * width + off r)
        (r * width + off r + (cut (r + 1) - cut r)) =
      (parts r).slice (off r) (off r + (cut (r + 1) - cut r)) := by
  have hfits := h.fits r hr
  have hw := hwidth r hr
  have hcols : (joined m.height ((List.range world).map parts) hmem).cols = world * width := by
    show (((List.range world).map parts).map cols).sum = _
    rw [List.map_map]
    exact sum_range_const hwidth
  have hle : (r + 1) * width ≤ world * width := Nat.mul_le_mul_right width hr
  rw [Nat.succ_mul] at hle
  refine ext_row ?_ ?_ fun i hi => ?_
  · rw [cols_slice (by omega), cols_slice hfits]
    omega
  · rw [height_slice, height_slice, height_joined, h.height r hr]
  · rw [height_slice, height_joined] at hi
    have hpart : ((((List.range world).flatMap fun k => (parts k).row i).drop (r * width)).take
        width) = (parts r).row i := by
      refine take_drop_flatMap (fun k hk => ?_) hr
      rw [length_row_of_lt (by rwa [h.height k hk]), hwidth k hk]
    rw [row_slice, row_slice, row_joined hmem hi, List.flatMap_map, ← hpart, List.drop_take,
      List.drop_drop, List.take_take]
    exact congrArg (List.take · _) (by omega)

/-- **The parts concatenated, then cut.** -/
theorem catCols_wide {width : ℕ} (h : Shards m world cut off parts) (hworld : 0 < world)
    (hwidth : ∀ r < world, (parts r).cols = width) :
    ((catCols ((List.range world).map parts)).bind fun g =>
      catCols ((List.range world).map fun r => g.slice (r * width + off r)
        (r * width + off r + (cut (r + 1) - cut r)))) = some m := by
  have hne : (List.range world).map parts ≠ [] := by
    rw [Ne, List.map_eq_nil_iff, List.range_eq_nil]
    exact hworld.ne'
  have hmem : ∀ p ∈ (List.range world).map parts, p.height = m.height := by
    intro p hp
    obtain ⟨r, hr, rfl⟩ := List.mem_map.mp hp
    exact h.height r (List.mem_range.mp hr)
  rw [catCols_of_height hne hmem, Option.bind_some, List.map_congr_left fun r hr =>
    h.slice_joined hwidth hmem (List.mem_range.mp hr)]
  exact h.catCols_parts hworld

/-- **Pieces of one height shard their concatenation**, each at the columns it was cut from. -/
theorem exists_joined {n : ℕ} (hmono : Monotone cut) (hzero : cut 0 = 0)
    (hheight : ∀ r < world, (parts r).height = n)
    (hfits : ∀ r < world, off r + (cut (r + 1) - cut r) ≤ (parts r).cols) (hworld : 0 < world) :
    ∃ m, catCols ((List.range world).map fun r =>
        (parts r).slice (off r) (off r + (cut (r + 1) - cut r))) = some m ∧
      m.height = n ∧ Shards m world cut off parts := by
  set pieces := fun r => (parts r).slice (off r) (off r + (cut (r + 1) - cut r)) with hpieces
  have hcols : ∀ r < world, (pieces r).cols = cut (r + 1) - cut r := fun r hr =>
    (cols_slice (hfits r hr)).trans (Nat.add_sub_cancel_left _ _)
  have hrows : ∀ r < world, (pieces r).height = n := fun r hr =>
    (height_slice _ _ _).trans (hheight r hr)
  have hmem : ∀ p ∈ (List.range world).map pieces, p.height = n := by
    intro p hp
    obtain ⟨r, hr, rfl⟩ := List.mem_map.mp hp
    exact hrows r (List.mem_range.mp hr)
  have hne : (List.range world).map pieces ≠ [] := by
    rw [Ne, List.map_eq_nil_iff, List.range_eq_nil]
    exact hworld.ne'
  have hwidth : (joined n ((List.range world).map pieces) hmem).cols = cut world := by
    show (((List.range world).map pieces).map cols).sum = _
    rw [List.map_map, ← sum_cuts hmono hzero world]
    exact congrArg List.sum (List.map_congr_left fun r hr => hcols r (List.mem_range.mp hr))
  have hjoined := height_joined hmem
  refine ⟨_, catCols_of_height hne hmem, hjoined, hmono, hzero, hwidth.symm,
    fun r hr => (hheight r hr).trans hjoined.symm, hfits, fun r hr => ?_⟩
  refine ext_row ?_ ?_ fun i hi => ?_
  · rw [cols_slice ((hmono hr).trans_eq hwidth.symm)]
    exact hcols r hr
  · rw [height_slice, height_slice, hjoined, hheight r hr]
  · have hi' : i < n := hrows r hr ▸ hi
    rw [row_slice _ (cut r), row_joined hmem hi', List.flatMap_map]
    refine (take_drop_flatMap_cuts (f := fun k => (pieces k).row i) hmono hzero (fun k hk => ?_)
      hr).symm
    rw [length_row_of_lt (by rwa [hrows k hk]), hcols k hk]

/-- Parts that are no wider than their shards are the shards. -/
theorem catCols_exact (h : Shards m world cut off parts) (hworld : 0 < world)
    (hexact : ∀ r < world, (parts r).cols = cut (r + 1) - cut r) :
    catCols ((List.range world).map parts) = some m := by
  have hpart : ∀ r ∈ List.range world,
      parts r = (parts r).slice (off r) (off r + (cut (r + 1) - cut r)) := by
    intro r hr
    have hr' := List.mem_range.mp hr
    have hfits := h.fits r hr'
    have hcols := hexact r hr'
    rw [show off r = 0 by omega, Nat.zero_add, ← hcols, slice_full]
  rw [List.map_congr_left hpart]
  exact h.catCols_parts hworld

end Shards

end RowMatrix
