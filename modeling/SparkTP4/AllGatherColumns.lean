import SparkTP4.AllGatherExact

/-!
# The gather of unequal columns is the concatenation

Rank `r` contributes `columns[r]` columns of its input, from an offset of its own on. The
pieces shard their concatenation, so the output of every rank is the concatenation
(`gathered_eq_cat`); the packs of the sources tile every row of the output, so each of them
is written once (`scattered_perm_range`).
-/

namespace RoceColumns

open GridLoop RowMatrix

variable {β : Type} {es : ElementSize}

/-- `_all_gather_columns` of a rank with any `column_offset`, up to the launch of its kernel. -/
def allGatherColumns (world maxGatherBytes : ℕ) (es : ElementSize) (rank : ℕ) (inp : Strided β)
    (columns : List ℕ) (columnOffset : ℤ) : Option (Launch β) :=
  if columnOffset < 0 then none
  else launchColumns world maxGatherBytes es rank inp columns columnOffset.toNat

/-- The columns of the ranks before `r`. -/
def columnCut (columns : List ℕ) (r : ℕ) : ℕ := (columns.take r).sum

theorem columnCut_succ {columns : List ℕ} {r : ℕ} (hr : r < columns.length) :
    columnCut columns (r + 1) - columnCut columns r = columns.getD r 0 := by
  show colOff columns (r + 1) - colOff columns r = _
  rw [colOff_succ hr, Nat.add_sub_cancel_left]

/-- **A gather of columns**: the launches of the ranks, on inputs of the same number of
rows. -/
structure ColumnGather (β : Type) (world maxGatherBytes : ℕ) (es : ElementSize) where
  columns : List ℕ
  colPacks : List ℕ
  rows : ℕ
  inputs : ℕ → Strided β
  offsets : ℕ → ℤ
  launches : ℕ → Launch β
  packs_eq : columnPacks world columns es = some colPacks
  rows_eq : ∀ r < world, (inputs r).rows = rows
  accepted : ∀ r < world,
    allGatherColumns world maxGatherBytes es r (inputs r) columns (offsets r) = some (launches r)

namespace ColumnGather

variable {world maxGatherBytes rank : ℕ} (g : ColumnGather β world maxGatherBytes es)

/-- `inp[:, column_offset:column_offset + columns[r]]` -/
def piece (r : ℕ) : RowMatrix β :=
  (g.inputs r).toMatrix.slice (g.offsets r).toNat ((g.offsets r).toNat + g.columns.getD r 0)

theorem length_columns : g.columns.length = world := (columnPacks_eq_some g.packs_eq).1

theorem length_colPacks : g.colPacks.length = world := by
  rw [(columnPacks_eq_some g.packs_eq).2.2, List.length_map, g.length_columns]

theorem width {r : ℕ} (hr : r < world) :
    columnCut g.columns (r + 1) - columnCut g.columns r = g.columns.getD r 0 :=
  columnCut_succ (g.length_columns.symm ▸ hr)

theorem reads {r : ℕ} (hr : r < world) :
    (g.launches r).Reads es (g.inputs r) (g.offsets r).toNat (g.columns.getD r 0) := by
  have h := g.accepted r hr
  unfold allGatherColumns at h
  exact launchColumns_eq_some (Option.ite_none_left_eq_some.mp h).2

/-- The packs of a rank are its columns. -/
theorem packs_mul {r : ℕ} (hr : r < world) :
    g.colPacks.getD r 0 * es.perPack = g.columns.getD r 0 := by
  obtain ⟨hlen, hpacks, heq⟩ := columnPacks_eq_some g.packs_eq
  have hr' : r < g.columns.length := hlen.symm ▸ hr
  have hget : g.colPacks.getD r 0 = g.columns.getD r 0 * es.bytes / PACK_BYTES := by
    rw [heq, List.getD_eq_getElem _ _ (by rwa [List.length_map]), List.getElem_map,
      List.getD_eq_getElem _ _ hr']
  rw [hget, List.getD_eq_getElem _ _ hr']
  exact es.packs_mul (hpacks _ (List.getElem_mem hr')).2

/-- **The inputs shard the concatenation of their pieces.** -/
theorem exists_sharded (hworld : 0 < world) :
    ∃ m, catCols ((List.range world).map g.piece) = some m ∧
      Sharded es m (columnCut g.columns) (fun r => (g.offsets r).toNat) g.inputs g.launches
        g.colPacks := by
  obtain ⟨m, hm, -, hshards⟩ := @Shards.exists_joined β world (columnCut g.columns)
    (fun r => (g.offsets r).toNat) (fun r => (g.inputs r).toMatrix) g.rows
    (@colOff_mono g.columns) rfl
    (fun r hr => (Strided.height_toMatrix _).trans (g.rows_eq r hr))
    (fun r hr => by
      rw [g.width hr]
      exact (g.reads hr).fits) hworld
  refine ⟨m, ?_, g.length_colPacks.symm ▸ hshards, fun r hr => ?_, fun r hr => ?_⟩
  · rw [← hm]
    refine congrArg catCols (List.map_congr_left fun r hr => ?_)
    rw [g.width (List.mem_range.mp hr)]
    rfl
  · rw [g.length_colPacks] at hr
    rw [g.width hr, g.packs_mul hr]
  · rw [g.length_colPacks] at hr
    rw [g.width hr]
    exact g.reads hr

/-- **Every rank's output is the concatenation.** -/
theorem gathered_eq_cat [Zero β] (hrank : rank < world)
    (run : RoceColumns.Run es g.launches g.colPacks rank) :
    catCols ((List.range world).map g.piece) = some run.gathered := by
  obtain ⟨m, hm, hsharded⟩ := g.exists_sharded (Nat.zero_lt_of_lt hrank)
  rw [hm, hsharded.gathered_eq run (g.length_colPacks.symm ▸ hrank)]

end ColumnGather

/-! ## Every pack is written once -/

section once

variable {colPacks : List ℕ} {launches : ℕ → Launch β} {rank : ℕ}

theorem dest_eq {s row col : ℕ} (hcol : col < colPacks.getD s 0) :
    dest colPacks s (row * colPacks.getD s 0 + col) =
      row * colPacks.sum + (colOff colPacks s + col) := by
  have hrow : (row * colPacks.getD s 0 + col) / colPacks.getD s 0 = row := by
    rw [Nat.add_comm, Nat.add_mul_div_right _ _ (Nat.zero_lt_of_lt hcol), Nat.div_eq_of_lt hcol,
      Nat.zero_add]
  show (row * colPacks.getD s 0 + col) / colPacks.getD s 0 * colPacks.sum + colOff colPacks s +
    (row * colPacks.getD s 0 + col - (row * colPacks.getD s 0 + col) / colPacks.getD s 0 *
      colPacks.getD s 0) = _
  rw [hrow, Nat.add_sub_cancel_left, Nat.add_assoc]

/-- The packs of the sources tile a row of the output. -/
theorem flatMap_row (row : ℕ) :
    ((List.range colPacks.length).flatMap fun s => (List.range (colPacks.getD s 0)).map fun col =>
      row * colPacks.sum + (colOff colPacks s + col)) =
        (List.range colPacks.sum).map fun p => row * colPacks.sum + p := by
  have htile := flatMap_range'_eq (colOff colPacks) (fun s => colOff_mono (Nat.le_succ s))
    colPacks.length
  rw [colOff_length, show colOff colPacks 0 = 0 from rfl, Nat.sub_zero,
    ← List.range_eq_range'] at htile
  rw [← htile, List.map_flatMap]
  refine List.flatMap_congr fun s hs => ?_
  rw [colOff_succ (List.mem_range.mp hs), Nat.add_sub_cancel_left, List.range'_eq_map_range,
    List.map_map]
  rfl

/-- **Every pack of the output is written once.** -/
theorem scattered_perm_range (run : Run es launches colPacks rank) :
    (run.scattered.map Prod.fst).Perm (List.range ((launches rank).rows * colPacks.sum)) := by
  refine (run.scattered_perm.map Prod.fst).trans ?_
  unfold scatter
  rw [List.map_flatMap]
  refine (List.Perm.flatMap_left _ fun s _ => ?_).trans ((flatMap_comm_perm
    (fun s row => (List.range (colPacks.getD s 0)).map fun col =>
      row * colPacks.sum + (colOff colPacks s + col)) (List.range colPacks.length)
    (List.range (launches rank).rows)).trans (List.Perm.of_eq ?_))
  · -- the packs of a source row by row
    rw [List.map_map]
    refine ((gridLoop_perm run.grid_pos run.threads_pos 0 _).map _).trans ?_
    rw [Nat.sub_zero, ← List.range_eq_range', RowMajor.map_range_mul]
    refine List.Perm.of_eq (List.flatMap_congr fun row _ => List.map_congr_left fun col hcol => ?_)
    exact dest_eq (List.mem_range.mp hcol)
  · have hrange := RowMajor.map_range_mul id (launches rank).rows colPacks.sum
    rw [List.map_id] at hrange
    rw [hrange]
    exact List.flatMap_congr fun row _ => flatMap_row row

end once

end RoceColumns

namespace AllGather

open GridLoop RowMajor RowMatrix

/-- A real dense tensor on the device, contiguous. -/
def Input.Usable (inp : Input) : Prop :=
  inp.isCuda = true ∧ inp.onDevice = true ∧ inp.isContiguous = true ∧ inp.isComplex = false ∧
    inp.isSparse = false ∧ inp.isBool = false

section accepts

variable {world maxGatherBytes : ℕ} {inp : Input} {dim : ℤ}

theorem shouldAllGather_iff : shouldAllGather maxGatherBytes inp dim = true ↔
    inp.Usable ∧ 0 < inp.shape.length ∧
      (normalizeDim inp dim = 0 ∨ normalizeDim inp dim = (inp.shape.length : ℤ) - 1) ∧
      0 < inp.nbytes ∧ inp.nbytes ≤ maxGatherBytes := by
  constructor
  · intro h
    obtain ⟨hpos, hlen, hdim⟩ := shouldAllGather_eq_true h
    unfold shouldAllGather at h
    split_ifs at h with hcuda hdevice htype
    simp only [Bool.or_eq_true, Bool.not_eq_true', not_or, Bool.not_eq_false, Bool.not_eq_true]
      at hcuda hdevice htype
    rw [Bool.and_eq_true, decide_eq_true_eq, decide_eq_true_eq] at h
    exact ⟨⟨hcuda.1, hdevice.1, hdevice.2, htype.1.1, htype.1.2, htype.2⟩, hlen, hdim, h⟩
  · rintro ⟨⟨hcuda, hdevice, hcontiguous, hcomplex, hsparse, hbool⟩, hlen, hdim, hpos, hle⟩
    unfold shouldAllGather
    rw [hcuda, hdevice, hcontiguous, hcomplex, hsparse, hbool, if_neg (by simpa using hlen.ne'),
      if_neg (by decide), if_neg (by decide), if_neg (by omega)]
    exact Bool.and_eq_true_iff.mpr ⟨decide_eq_true hpos, decide_eq_true hle⟩

/-- **What `all_gather` accepts**: what `should_all_gather` does, with an output that matches. -/
theorem isSome_allGather_iff {out : Option Out} {staged : ℕ → UInt8} :
    (allGather world maxGatherBytes inp dim out staged).isSome = true ↔
      shouldAllGather maxGatherBytes inp dim = true ∧
        ∀ o ∈ out, o.matching (gatheredShape world inp (normalizeDim inp dim)) = true := by
  have hany : (out.any fun o => !o.matching (gatheredShape world inp (normalizeDim inp dim))) = true ↔
      ¬ ∀ o ∈ out, o.matching (gatheredShape world inp (normalizeDim inp dim)) = true := by
    cases out <;> simp
  unfold allGather
  by_cases heligible : shouldAllGather maxGatherBytes inp dim = false
  · rw [if_pos heligible, heligible]
    exact ⟨nofun, fun h => nomatch h.1⟩
  · rw [if_neg heligible]
    by_cases hout : ∀ o ∈ out, o.matching (gatheredShape world inp (normalizeDim inp dim)) = true
    · rw [if_neg (fun h => hany.mp h hout)]
      refine ⟨fun _ => ⟨Bool.of_not_eq_false heligible, hout⟩, fun _ => ?_⟩
      split <;> rfl
    · rw [if_pos (hany.mpr hout)]
      exact ⟨nofun, fun h => absurd h.2 hout⟩

end accepts

/-- A run in which the threads write in order. -/
def Run.inOrder (world : ℕ) (launches : ℕ → Launch) (rank : ℕ) : Run world launches rank where
  grid _ := 2
  threads _ := 3
  grid_pos _ := by decide
  threads_pos _ := by decide
  slot _ _ _ := 0
  staged s := stage 2 3 (launches s)
  staged_perm _ _ := List.Perm.refl _
  recv s := writeAll (fun _ _ => 0) (stage 2 3 (launches s))
  arrived _ _ _ _ _ := rfl
  out _ _ := 0
  copied := _
  copied_perm := List.Perm.refl _

/-- Two rows of 16 bytes, at an aligned address on rank 0 only. -/
def input (r : ℕ) : Input where
  shape := [2, 16]
  elementSize := 1
  dataPtr := r
  isCuda := true
  onDevice := true
  isContiguous := true
  isComplex := false
  isSparse := false
  isBool := false
  mem i := UInt8.ofNat (32 * r + i)

/-- Rank 0 gathers directly and rank 1 through the scratch buffer. -/
def mixed : Gather 2 64 where
  shape := [2, 16]
  elementSize := 1
  dim := 1
  inputs := input
  dims _ := -1
  outs _ := none
  staged _ _ := 255
  calls r := ((allGather 2 64 (input r) (-1) none fun _ => 255).getD
    ⟨false, 0, [], launchGather (fun _ => 0) 0 0⟩)
  shape_eq _ _ := rfl
  elementSize_eq _ _ := rfl
  dim_eq _ _ := rfl
  accepted r hr := by
    match r, hr with
    | 0, _ => rfl
    | 1, _ => rfl

/-- Two rows of 24 columns of 8 bytes, of which rank 0 has 2 and rank 1 has 4, from column 2 on. -/
def view (r : ℕ) : RoceColumns.Strided ℕ where
  rows := 2
  cols := 24
  stride0 := 32
  stride1 := 1
  aligned := true
  mem i := 100 * r + i

def unequal : RoceColumns.ColumnGather ℕ 2 64 ⟨8, by decide⟩ where
  columns := [2, 4]
  colPacks := [1, 2]
  rows := 2
  inputs := view
  offsets _ := 2
  launches r := ⟨(view r).mem, 2, 16, 1⟩
  packs_eq := rfl
  rows_eq _ _ := rfl
  accepted r hr := by
    match r, hr with
    | 0, _ => rfl
    | 1, _ => rfl

/-- The threads of the run below. -/
theorem fourThreads_pos : 0 < 4 := by decide

/-- A run of the gather of columns in which the threads write in order. -/
def columnsInOrder (rank : ℕ) : RoceColumns.Run ⟨8, by decide⟩ unequal.launches [1, 2] rank where
  grid := 1
  threads := 4
  grid_pos := Nat.one_pos
  threads_pos := fourThreads_pos
  slot _ _ _ := 0
  staged s := RoceColumns.stage _ 1 4 (unequal.launches s) ([1, 2].getD s 0)
  staged_perm _ := List.Perm.refl _
  out _ _ := 0
  scattered := _
  scattered_perm := List.Perm.refl _

end AllGather
