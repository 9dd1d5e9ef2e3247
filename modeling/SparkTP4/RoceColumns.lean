import Mathlib.Algebra.Order.BigOperators.Group.List
import SparkTP4.GridLoop
import SparkTP4.RowMatrix
import Mathlib.Tactic.Ring

/-!
# The last-dim gather of unequal shards

Rank `s` contributes `columns[s]` columns of each of its rows, and the gathered matrix has
them at column `sum(columns[:s])`. A kernel moves packs of 16 bytes: each rank stages its
own shard compactly, `my_packs` to a row, the transport copies the staged packs to every
peer, and each rank then scatters the packs of every source into its rows of the output.

The input of a rank is a strided view, possibly wider than the shard, which starts at
`column_offset`. Whatever order the threads of the grid write in, the output is the matrix
that the inputs shard (`gathered_eq`).
-/

namespace RoceColumns

open GridLoop RowMatrix

/-- The bytes of a pack. -/
def PACK_BYTES : ℕ := 16

/-- The size in bytes of an element: it divides a pack. -/
structure ElementSize where
  bytes : ℕ
  dvd_pack : bytes ∣ PACK_BYTES

namespace ElementSize

/-- The elements of a pack. -/
def perPack (es : ElementSize) : ℕ := PACK_BYTES / es.bytes

theorem perPack_mul (es : ElementSize) : es.perPack * es.bytes = PACK_BYTES :=
  Nat.div_mul_cancel es.dvd_pack

theorem bytes_pos (es : ElementSize) : 0 < es.bytes :=
  Nat.pos_of_dvd_of_pos es.dvd_pack (by decide)

theorem perPack_pos (es : ElementSize) : 0 < es.perPack :=
  Nat.div_pos (Nat.le_of_dvd (by decide) es.dvd_pack) es.bytes_pos

/-- A number of elements that is a whole number of packs. -/
theorem packs_mul (es : ElementSize) {c : ℕ} (h : c * es.bytes % PACK_BYTES = 0) :
    c * es.bytes / PACK_BYTES * es.perPack = c := by
  refine Nat.eq_of_mul_eq_mul_right es.bytes_pos ?_
  rw [Nat.mul_assoc, es.perPack_mul, Nat.div_mul_cancel (Nat.dvd_of_mod_eq_zero h)]

end ElementSize

/-! ## Strided views -/

variable {β : Type}

/-- A two-dimensional view: `mem i` is the element `i` places after `data_ptr`. -/
structure Strided (β : Type) where
  rows : ℕ
  cols : ℕ
  stride0 : ℕ
  stride1 : ℕ
  /-- `data_ptr % 16 == 0` -/
  aligned : Bool
  mem : ℕ → β

namespace Strided

/-- The element at a row and a column. -/
def elem (t : Strided β) (i c : ℕ) : β := t.mem (i * t.stride0 + c * t.stride1)

/-- The matrix that a view shows. -/
def toMatrix (t : Strided β) : RowMatrix β :=
  ofFn t.rows t.cols (fun i => (List.range t.cols).map (t.elem i)) fun i => by
    rw [List.length_map, List.length_range]

/-- `t.contiguous().clone()`: a fresh block, which is aligned. -/
def cloned (t : Strided β) : Strided β where
  rows := t.rows
  cols := t.cols
  stride0 := t.cols
  stride1 := 1
  aligned := true
  mem j := t.elem (j / t.cols) (j % t.cols)

@[simp] theorem height_toMatrix (t : Strided β) : t.toMatrix.height = t.rows := height_ofFn

@[simp] theorem cols_toMatrix (t : Strided β) : t.toMatrix.cols = t.cols := rfl

theorem elem_cloned (t : Strided β) {i c : ℕ} (hc : c < t.cols) : t.cloned.elem i c = t.elem i c := by
  have hpos : 0 < t.cols := Nat.lt_of_le_of_lt (Nat.zero_le c) hc
  show t.elem ((i * t.cols + c * 1) / t.cols) ((i * t.cols + c * 1) % t.cols) = _
  rw [Nat.mul_one, Nat.add_comm, Nat.add_mul_div_right _ _ hpos, Nat.div_eq_of_lt hc, Nat.zero_add,
    Nat.add_mul_mod_self_right, Nat.mod_eq_of_lt hc]

theorem row_toMatrix (t : Strided β) {i : ℕ} (hi : i < t.rows) :
    t.toMatrix.row i = (List.range t.cols).map (t.elem i) :=
  row_ofFn hi

/-- **A clone shows the same matrix.** -/
theorem toMatrix_cloned (t : Strided β) : t.cloned.toMatrix = t.toMatrix := by
  refine ext_row rfl ?_ fun i hi => ?_
  · rw [height_toMatrix, height_toMatrix]
    rfl
  · rw [height_toMatrix] at hi
    rw [row_toMatrix _ hi, row_toMatrix t hi]
    exact List.map_congr_left fun c hc => elem_cloned t (List.mem_range.mp hc)

theorem entry_toMatrix [Zero β] (t : Strided β) {i c : ℕ} (hi : i < t.rows) (hc : c < t.cols) :
    t.toMatrix.entry i c = t.elem i c := by
  unfold entry
  rw [row_toMatrix t hi, List.getD_eq_getElem _ _ (by rwa [List.length_map, List.length_range]),
    List.getElem_map, List.getElem_range]

end Strided

/-! ## The host's checks -/

/-- `_column_packs`: the packs of each rank's columns, none for a `ValueError`. -/
def columnPacks (world : ℕ) (columns : List ℕ) (es : ElementSize) : Option (List ℕ) :=
  if columns.length ≠ world ∨ columns.any (· < 1) then none
  else if columns.any fun c => c * es.bytes % PACK_BYTES ≠ 0 then none
  else some (columns.map fun c => c * es.bytes / PACK_BYTES)

/-- `should_all_gather_columns`, of a tensor on the device with `rows` rows. -/
def shouldAllGatherColumns (world maxGatherBytes : ℕ) (es : ElementSize) (rows : ℕ)
    (columns : List ℕ) : Bool :=
  match columnPacks world columns es with
  | none => false
  | some packs =>
    let nbytes := rows * packs.foldr max 0 * PACK_BYTES
    0 < nbytes && nbytes ≤ maxGatherBytes

/-- The arguments of a rank's launch. -/
structure Launch (β : Type) where
  mem : ℕ → β
  rows : ℕ
  inRowPacks : ℕ
  inColOff : ℕ

/-- `_all_gather_columns` of a rank, up to the launch of its kernel: none for a
`ValueError`. -/
def launchColumns (world maxGatherBytes : ℕ) (es : ElementSize) (rank : ℕ) (inp : Strided β)
    (columns : List ℕ) (columnOffset : ℕ) : Option (Launch β) :=
  if shouldAllGatherColumns world maxGatherBytes es inp.rows columns = false then none
  else if inp.stride1 ≠ 1 ∨ inp.stride0 * es.bytes % PACK_BYTES ≠ 0 then none
  else if columnOffset * es.bytes % PACK_BYTES ≠ 0 ∨ inp.aligned = false then none
  else if inp.cols < columnOffset + columns.getD rank 0 then none
  else some {
    mem := inp.mem
    rows := inp.rows
    inRowPacks := inp.stride0 * es.bytes / PACK_BYTES
    inColOff := columnOffset * es.bytes / PACK_BYTES }

/-! ## The kernel -/

/-- A pack as its elements. -/
abbrev Pack (es : ElementSize) (β : Type) : Type := Fin es.perPack → β

variable (es : ElementSize)

/-- The pack `p` packs after the start of a memory. -/
def readPack (mem : ℕ → β) (p : ℕ) : Pack es β := fun e => mem (p * es.perPack + e)

/-- The pack `index` of the shard of a rank, in its strided input. -/
def shardPack (launch : Launch β) (myPacks index : ℕ) : Pack es β :=
  let row := index / myPacks
  let col := index - row * myPacks
  readPack es launch.mem (row * launch.inRowPacks + launch.inColOff + col)

/-- The writes of the threads of a rank to its send slot. -/
def stage (grid threads : ℕ) (launch : Launch β) (myPacks : ℕ) : List (ℕ × Pack es β) :=
  (gridLoop grid threads 0 (launch.rows * myPacks)).map fun index =>
    (index, shardPack es launch myPacks index)

/-- The first pack of source `s` in a row of the output. -/
def colOff (colPacks : List ℕ) (s : ℕ) : ℕ := (colPacks.take s).sum

/-- Where pack `index` of source `s` is in the output. -/
def dest (colPacks : List ℕ) (s index : ℕ) : ℕ :=
  let row := index / colPacks.getD s 0
  let col := index - row * colPacks.getD s 0
  row * colPacks.sum + colOff colPacks s + col

/-- The writes of the threads of rank `rank` to the output; `recv s` is what arrived from
source `s`. -/
def scatter (grid threads : ℕ) (rank : ℕ) (launch : Launch β) (colPacks : List ℕ)
    (recv : ℕ → ℕ → Pack es β) : List (ℕ × Pack es β) :=
  (List.range colPacks.length).flatMap fun s =>
    (gridLoop grid threads 0 (launch.rows * colPacks.getD s 0)).map fun index =>
      (dest colPacks s index,
        if s = rank then shardPack es launch (colPacks.getD s 0) index else recv s index)

/-- The output of `rows` rows of `rowPacks` packs as a matrix. -/
def outMatrix (rows rowPacks : ℕ) (out : ℕ → Pack es β) : RowMatrix β :=
  ofFn rows (rowPacks * es.perPack)
    (fun i => (List.range rowPacks).flatMap fun p => List.ofFn (out (i * rowPacks + p))) fun i => by
      rw [List.length_flatMap]
      exact sum_range_const fun p _ => List.length_ofFn

variable {es}

theorem height_outMatrix (rows rowPacks : ℕ) (out : ℕ → Pack es β) :
    (outMatrix es rows rowPacks out).height = rows :=
  height_ofFn

theorem row_outMatrix (rows rowPacks : ℕ) (out : ℕ → Pack es β) {i : ℕ} (hi : i < rows) :
    (outMatrix es rows rowPacks out).row i =
      (List.range rowPacks).flatMap fun p => List.ofFn (out (i * rowPacks + p)) :=
  row_ofFn hi

variable (es)

/-- **A gather, as rank `rank` sees it.** Every rank has staged its shard and the transport
has copied the slots; the threads of a phase write in any order. -/
structure Run (launches : ℕ → Launch β) (colPacks : List ℕ) (rank : ℕ) where
  grid : ℕ
  threads : ℕ
  grid_pos : 0 < grid
  threads_pos : 0 < threads
  /-- what the send slot of each rank held -/
  slot : ℕ → ℕ → Pack es β
  staged : ℕ → List (ℕ × Pack es β)
  staged_perm : ∀ s, (staged s).Perm (stage es grid threads (launches s) (colPacks.getD s 0))
  /-- what the output held -/
  out : ℕ → Pack es β
  scattered : List (ℕ × Pack es β)
  scattered_perm : scattered.Perm (scatter es grid threads rank (launches rank) colPacks
    fun s => writeAll (slot s) (staged s))

/-- The output of rank `rank`. -/
def Run.gathered {es : ElementSize} {launches : ℕ → Launch β} {colPacks : List ℕ} {rank : ℕ}
    (run : Run es launches colPacks rank) : RowMatrix β :=
  outMatrix es (launches rank).rows colPacks.sum (writeAll run.out run.scattered)

/-! ## What a launch is given -/

section launch

variable {es} {world maxGatherBytes : ℕ} {rank columnOffset : ℕ} {inp : Strided β} {columns : List ℕ}
  {launch : Launch β}

theorem columnPacks_eq_some {packs : List ℕ} (h : columnPacks world columns es = some packs) :
    columns.length = world ∧ (∀ c ∈ columns, 1 ≤ c ∧ c * es.bytes % PACK_BYTES = 0) ∧
      packs = columns.map fun c => c * es.bytes / PACK_BYTES := by
  unfold columnPacks at h
  obtain ⟨hlen, h⟩ := Option.ite_none_left_eq_some.mp h
  obtain ⟨hpacks, h⟩ := Option.ite_none_left_eq_some.mp h
  rw [not_or, not_not] at hlen
  refine ⟨hlen.1, fun c hc => ⟨?_, ?_⟩, (Option.some.inj h).symm⟩
  · by_contra hlt
    exact hlen.2 (List.any_eq_true.mpr ⟨c, hc, decide_eq_true (Nat.not_le.mp hlt)⟩)
  · by_contra hne
    exact hpacks (List.any_eq_true.mpr ⟨c, hc, decide_eq_true hne⟩)

/-- **What the checks of `_all_gather_columns` guarantee.** -/
structure Launch.Reads (launch : Launch β) (es : ElementSize) (inp : Strided β) (off own : ℕ) :
    Prop where
  mem : launch.mem = inp.mem
  rows : launch.rows = inp.rows
  unit : inp.stride1 = 1
  row : launch.inRowPacks * es.perPack = inp.stride0
  col : launch.inColOff * es.perPack = off
  fits : off + own ≤ inp.cols

theorem launchColumns_eq_some
    (h : launchColumns world maxGatherBytes es rank inp columns columnOffset = some launch) :
    launch.Reads es inp columnOffset (columns.getD rank 0) := by
  unfold launchColumns at h
  obtain ⟨-, h⟩ := Option.ite_none_left_eq_some.mp h
  obtain ⟨hstride, h⟩ := Option.ite_none_left_eq_some.mp h
  obtain ⟨hoff, h⟩ := Option.ite_none_left_eq_some.mp h
  obtain ⟨hfits, h⟩ := Option.ite_none_left_eq_some.mp h
  rw [not_or, not_not, not_not] at hstride
  rw [not_or, not_not] at hoff
  obtain rfl := Option.some.inj h
  exact ⟨rfl, rfl, hstride.1, es.packs_mul hstride.2, es.packs_mul hoff.1, Nat.not_lt.mp hfits⟩

end launch

/-! ## The output is the sharded matrix -/

section gathered

variable {es} [Zero β] {stock : RowMatrix β} {world rank : ℕ} {cut off : ℕ → ℕ}
  {inputs : ℕ → Strided β} {launches : ℕ → Launch β} {colPacks : List ℕ}

/-- The pack of the matrix that belongs at an address of the output. -/
def stockPack (es : ElementSize) (stock : RowMatrix β) (rowPacks a : ℕ) : Pack es β := fun e =>
  stock.entry (a / rowPacks) (a % rowPacks * es.perPack + e)

theorem stockPack_eq {rowPacks p : ℕ} (hp : p < rowPacks) (i : ℕ) :
    stockPack es stock rowPacks (i * rowPacks + p) =
      fun e : Fin es.perPack => stock.entry i (p * es.perPack + e) := by
  unfold stockPack
  rw [Nat.add_comm, Nat.add_mul_div_right _ _ (Nat.zero_lt_of_lt hp), Nat.div_eq_of_lt hp,
    Nat.zero_add, Nat.add_mul_mod_self_right, Nat.mod_eq_of_lt hp]

theorem colOff_succ {s : ℕ} (hs : s < colPacks.length) :
    colOff colPacks (s + 1) = colOff colPacks s + colPacks.getD s 0 := by
  unfold colOff
  rw [List.take_add_one, List.sum_append, List.getElem?_eq_getElem hs,
    List.getD_eq_getElem _ _ hs]
  simp

theorem colOff_length : colOff colPacks colPacks.length = colPacks.sum := by
  unfold colOff
  rw [List.take_length]

theorem colOff_le_sum {s : ℕ} (hs : s < colPacks.length) :
    colOff colPacks s + colPacks.getD s 0 ≤ colPacks.sum := by
  rw [← colOff_succ hs]
  exact (List.take_sublist _ _).sum_le_sum fun _ _ => Nat.zero_le _

theorem colOff_mono : Monotone (colOff colPacks) := by
  refine monotone_nat_of_le_succ fun s => ?_
  unfold colOff
  rw [List.take_add_one, List.sum_append]
  exact Nat.le_add_right _ _

/-- The source that fills a pack of a row. -/
theorem exists_source {p : ℕ} (hp : p < colPacks.sum) :
    ∃ s < colPacks.length, colOff colPacks s ≤ p ∧ p < colOff colPacks s + colPacks.getD s 0 := by
  rw [← colOff_length] at hp
  obtain ⟨s, ⟨hs, hle, hlt⟩, -⟩ := existsUnique_cut colOff_mono rfl hp
  exact ⟨s, hs, hle, colOff_succ hs ▸ hlt⟩

omit [Zero β] in
/-- What is staged arrives. -/
theorem recv_eq (run : Run es launches colPacks rank) {s index : ℕ}
    (hindex : index < (launches s).rows * colPacks.getD s 0) :
    writeAll (run.slot s) (run.staged s) index =
      shardPack es (launches s) (colPacks.getD s 0) index := by
  refine writeAll_of_mem _ (shardPack es (launches s) (colPacks.getD s 0)) (fun w hw => ?_) ?_
  · obtain ⟨i, -, rfl⟩ := List.mem_map.mp ((run.staged_perm s).mem_iff.mp hw)
    rfl
  · refine List.mem_map.mpr ⟨(index, _), (run.staged_perm s).mem_iff.mpr (List.mem_map_of_mem ?_),
      rfl⟩
    exact (mem_gridLoop run.grid_pos run.threads_pos).mpr ⟨Nat.zero_le index, hindex⟩

/-- **The inputs shard the matrix in whole packs**, and the launches read them. -/
structure Sharded (es : ElementSize) (stock : RowMatrix β) (cut off : ℕ → ℕ)
    (inputs : ℕ → Strided β) (launches : ℕ → Launch β) (colPacks : List ℕ) : Prop where
  shards : Shards stock colPacks.length cut off fun s => (inputs s).toMatrix
  packs : ∀ s < colPacks.length, colPacks.getD s 0 * es.perPack = cut (s + 1) - cut s
  reads : ∀ s < colPacks.length, (launches s).Reads es (inputs s) (off s) (cut (s + 1) - cut s)

namespace Sharded

variable (h : Sharded es stock cut off inputs launches colPacks)

include h

omit [Zero β] in
theorem rows {s : ℕ} (hs : s < colPacks.length) : (launches s).rows = stock.height := by
  rw [(h.reads s hs).rows, ← h.shards.height s hs, Strided.height_toMatrix]

omit [Zero β] in
theorem colOff_mul {s : ℕ} (hs : s ≤ colPacks.length) : colOff colPacks s * es.perPack = cut s := by
  induction s with
  | zero =>
    rw [h.shards.cut_zero]
    exact Nat.zero_mul _
  | succ s ih =>
    rw [colOff_succ hs, Nat.add_mul, ih (Nat.le_of_succ_le hs), h.packs s hs,
      Nat.add_sub_cancel' (h.shards.mono (Nat.le_succ s))]

omit [Zero β] in
theorem sum_mul : colPacks.sum * es.perPack = stock.cols := by
  rw [← colOff_length, h.colOff_mul le_rfl, h.shards.cut_world]

/-- **A pack of a shard is the pack of the matrix at its destination.** -/
theorem shardPack_eq {s index : ℕ} (hs : s < colPacks.length)
    (hindex : index < (launches s).rows * colPacks.getD s 0) :
    shardPack es (launches s) (colPacks.getD s 0) index =
      stockPack es stock colPacks.sum (dest colPacks s index) := by
  have hreads := h.reads s hs
  have hpacks := h.packs s hs
  have hpos : 0 < colPacks.getD s 0 := Nat.pos_of_mul_pos_left (Nat.zero_lt_of_lt hindex)
  have hrow : index / colPacks.getD s 0 < (launches s).rows := Nat.div_lt_of_lt_mul (by
    rwa [Nat.mul_comm])
  have hcol : index - index / colPacks.getD s 0 * colPacks.getD s 0 < colPacks.getD s 0 := by
    rw [Nat.mul_comm, ← Nat.mod_eq_sub_mul_div]
    exact Nat.mod_lt index hpos
  set row := index / colPacks.getD s 0 with hrowdef
  set col := index - row * colPacks.getD s 0 with hcoldef
  have hsum := colOff_le_sum hs
  have hdest : dest colPacks s index = colOff colPacks s + col + row * colPacks.sum := by
    show row * colPacks.sum + colOff colPacks s + col = _
    omega
  funext e
  have hinside : col * es.perPack + e < cut (s + 1) - cut s := by
    have hle : (col + 1) * es.perPack ≤ colPacks.getD s 0 * es.perPack :=
      Nat.mul_le_mul_right _ hcol
    have he := e.isLt
    rw [Nat.succ_mul] at hle
    omega
  have hentry : (inputs s).toMatrix.entry row (off s + (col * es.perPack + e)) =
      (inputs s).mem (row * (inputs s).stride0 + (off s + (col * es.perPack + e)) * 1) := by
    rw [← hreads.unit]
    exact Strided.entry_toMatrix _ (hreads.rows ▸ hrow) (by have := hreads.fits; omega)
  unfold stockPack
  rw [hdest, Nat.add_mul_div_right _ _ (by omega), Nat.div_eq_of_lt (by omega), Nat.zero_add,
    Nat.add_mul_mod_self_right, Nat.mod_eq_of_lt (by omega), Nat.add_mul (colOff colPacks s),
    h.colOff_mul hs.le, Nat.add_assoc, ← entry_slice stock hinside, ← h.shards.holds s hs,
    entry_slice _ (by omega), hentry, ← hreads.mem, ← hreads.row, ← hreads.col]
  show (launches s).mem ((row * (launches s).inRowPacks + (launches s).inColOff + col) *
    es.perPack + e) = _
  congr 1
  ring

/-- **Every write is the pack of the matrix at its address.** -/
theorem scattered_eq (run : Run es launches colPacks rank) (hrank : rank < colPacks.length)
    {w : ℕ × Pack es β} (hw : w ∈ run.scattered) : w.2 = stockPack es stock colPacks.sum w.1 := by
  obtain ⟨s, hs, hw⟩ := List.mem_flatMap.mp (run.scattered_perm.mem_iff.mp hw)
  obtain ⟨index, hindex, rfl⟩ := List.mem_map.mp hw
  have hs' := List.mem_range.mp hs
  have hlt := ((mem_gridLoop run.grid_pos run.threads_pos).mp hindex).2
  rw [h.rows hrank, ← h.rows hs'] at hlt
  show (if s = rank then _ else _) = _
  split_ifs with heq
  · rw [← heq]
    exact h.shardPack_eq hs' hlt
  · rw [recv_eq run hlt]
    exact h.shardPack_eq hs' hlt

omit [Zero β] in
/-- **Every pack of the output is written.** -/
theorem mem_scattered (run : Run es launches colPacks rank) (hrank : rank < colPacks.length)
    {i p : ℕ} (hi : i < stock.height) (hp : p < colPacks.sum) :
    i * colPacks.sum + p ∈ run.scattered.map Prod.fst := by
  obtain ⟨s, hs, hle, hlt⟩ := exists_source hp
  have hpos : 0 < colPacks.getD s 0 := by omega
  have hcol : p - colOff colPacks s < colPacks.getD s 0 := by omega
  set index := i * colPacks.getD s 0 + (p - colOff colPacks s) with hindex
  have hrow : index / colPacks.getD s 0 = i := by
    rw [hindex, Nat.add_comm, Nat.add_mul_div_right _ _ hpos, Nat.div_eq_of_lt hcol, Nat.zero_add]
  have hdest : dest colPacks s index = i * colPacks.sum + p := by
    show index / colPacks.getD s 0 * colPacks.sum + colOff colPacks s +
      (index - index / colPacks.getD s 0 * colPacks.getD s 0) = _
    rw [hrow]
    omega
  have hbound : index < (launches rank).rows * colPacks.getD s 0 := by
    rw [h.rows hrank]
    have := Nat.mul_le_mul_right (colPacks.getD s 0) (show i + 1 ≤ stock.height from hi)
    rw [Nat.succ_mul] at this
    omega
  rw [(run.scattered_perm.map Prod.fst).mem_iff, ← hdest]
  unfold scatter
  rw [List.map_flatMap]
  refine List.mem_flatMap.mpr ⟨s, List.mem_range.mpr hs, ?_⟩
  rw [List.map_map]
  exact List.mem_map.mpr ⟨index, (mem_gridLoop run.grid_pos run.threads_pos).mpr
    ⟨Nat.zero_le index, hbound⟩, rfl⟩

/-- **The output of every rank is the matrix.** -/
theorem gathered_eq (run : Run es launches colPacks rank) (hrank : rank < colPacks.length) :
    run.gathered = stock := by
  refine ext_row h.sum_mul ?_ fun i hi => ?_
  · exact (height_outMatrix _ _ _).trans (h.rows hrank)
  · have hi' : i < (launches rank).rows := by
      unfold Run.gathered at hi
      rwa [height_outMatrix] at hi
    have hi'' : i < stock.height := h.rows hrank ▸ hi'
    unfold Run.gathered
    rw [row_outMatrix _ _ _ hi']
    have hmono : Monotone fun p => p * es.perPack := fun _ _ hle => Nat.mul_le_mul_right _ hle
    have hcuts := flatMap_cuts (stock.row i) hmono (Nat.zero_mul _) colPacks.sum
    rw [List.take_of_length_le (by rw [length_row_of_lt hi'', h.sum_mul])] at hcuts
    refine Eq.trans (List.flatMap_congr fun p hp => ?_) hcuts
    have hp' := List.mem_range.mp hp
    have hfit : (p + 1) * es.perPack ≤ (stock.row i).length := by
      rw [length_row_of_lt hi'', ← h.sum_mul]
      exact Nat.mul_le_mul_right _ hp'
    rw [writeAll_of_mem _ (stockPack es stock colPacks.sum) (fun w hw => h.scattered_eq run hrank hw)
      (h.mem_scattered run hrank hi'' hp'), stockPack_eq hp']
    refine List.ext_getElem ?_ fun e he he' => ?_
    · rw [List.length_ofFn, List.length_take, List.length_drop]
      rw [Nat.succ_mul] at hfit ⊢
      omega
    · rw [List.getElem_ofFn, List.getElem_take, List.getElem_drop]
      exact List.getD_eq_getElem _ _ _

end Sharded

end gathered

end RoceColumns
