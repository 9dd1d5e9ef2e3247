import SparkTP4.AllGather
import SparkTP4.Region

/-!
# The gathered tensor is the concatenation

Reader by reader: the kernel interleaves the shards row by row, whatever the order of its
threads (`read_gathered`), and writes every pack of its output once (`copied_perm_range`).
The direct reader has the rows of the tensor and is done; the padded one has a single row
per source, and the views of the host interleave what the kernel has joined (`unpad_eq`).
-/

namespace AllGather

open GridLoop RowMajor
open RoceColumns (PACK_BYTES)

/-- A pack of the output as the bytes that it was read from. -/
theorem read_pack {p q : ℕ} {mem : ℕ → UInt8} {out : ℕ → Pack} (hpack : out p = readPack mem q) :
    read (packMem out) (p * PACK_BYTES) PACK_BYTES = read mem (q * PACK_BYTES) PACK_BYTES := by
  refine read_congr fun i hi => ?_
  have hdiv : (p * PACK_BYTES + i) / PACK_BYTES = p := by
    rw [Nat.add_comm, Nat.add_mul_div_right _ _ (Nat.zero_lt_of_lt hi), Nat.div_eq_of_lt hi,
      Nat.zero_add]
  have hmod : (p * PACK_BYTES + i) % PACK_BYTES = i := by
    rw [Nat.add_comm, Nat.add_mul_mod_self_right, Nat.mod_eq_of_lt hi]
  unfold packMem
  rw [hdiv, hpack]
  exact congrArg (fun e => mem (q * PACK_BYTES + e)) hmod

/-! ## The kernel -/

section kernel

variable {world rank rows rowPacks : ℕ} {launches : ℕ → Launch}

theorem dest_eq {source row col : ℕ} (hcol : col < rowPacks) :
    dest world rowPacks source (row * rowPacks + col) =
      row * (world * rowPacks) + (source * rowPacks + col) := by
  have hrow : (row * rowPacks + col) / rowPacks = row := by
    rw [Nat.add_comm, Nat.add_mul_div_right _ _ (Nat.zero_lt_of_lt hcol), Nat.div_eq_of_lt hcol,
      Nat.zero_add]
  show (row * rowPacks + col) / rowPacks * (world * rowPacks) + source * rowPacks +
    (row * rowPacks + col - (row * rowPacks + col) / rowPacks * rowPacks) = _
  rw [hrow, Nat.add_sub_cancel_left, Nat.add_assoc]

/-- **Every pack of the output is written once.** -/
theorem copied_perm_range (run : Run world launches rank)
    (hrow : (launches rank).rowPacks = rowPacks)
    (hshard : (launches rank).shardPacks = rows * rowPacks) :
    (run.copied.map Prod.fst).Perm (List.range (world * (launches rank).shardPacks)) := by
  refine (run.copied_perm.map Prod.fst).trans ?_
  unfold copy
  rw [List.map_flatMap, hrow, hshard]
  -- the addresses source by source, in the order of the packs
  have hloop (source : ℕ) : (((gridLoop (run.grid rank) (run.threads rank) 0 (rows * rowPacks)).map
      fun index => (dest world rowPacks source index, if source = rank then
        readPack (launches rank).mem index else run.recv source index)).map Prod.fst).Perm
      ((List.range rows).flatMap fun row => (List.range rowPacks).map fun col =>
        row * (world * rowPacks) + (source * rowPacks + col)) := by
    rw [List.map_map]
    refine ((gridLoop_perm (run.grid_pos rank) (run.threads_pos rank) 0 _).map _).trans ?_
    rw [Nat.sub_zero, ← List.range_eq_range', map_range_mul]
    refine List.Perm.of_eq (List.flatMap_congr fun row _ => List.map_congr_left fun col hcol => ?_)
    exact dest_eq (List.mem_range.mp hcol)
  refine (List.Perm.flatMap_left _ fun source _ => hloop source).trans ?_
  refine (flatMap_comm_perm _ _ _).trans (List.Perm.of_eq ?_)
  have hrange := map_range_mul id rows (world * rowPacks)
  rw [List.map_id] at hrange
  rw [Nat.mul_left_comm, hrange]
  exact List.flatMap_congr fun row _ => (map_range_mul _ world rowPacks).symm

/-- The transport delivers the packs of a shard. -/
theorem recv_eq (run : Run world launches rank) {source index : ℕ} (hsource : source < world)
    (hne : source ≠ rank) (hindex : index < (launches source).shardPacks)
    (hbytes : (index + 1) * PACK_BYTES ≤ (launches source).nbytes) :
    run.recv source index = readPack (launches source).mem index := by
  rw [run.arrived source hsource hne index hbytes]
  have hperm := run.staged_perm source hsource
  refine writeAll_of_mem _ (readPack (launches source).mem) (fun w hw => ?_) ?_
  · obtain ⟨i, -, rfl⟩ := List.mem_map.mp (hperm.mem_iff.mp hw)
    rfl
  · refine List.mem_map.mpr ⟨(index, _), hperm.mem_iff.mpr (List.mem_map_of_mem ?_), rfl⟩
    exact (mem_gridLoop (run.grid_pos source) (run.threads_pos source)).mpr
      ⟨Nat.zero_le index, hindex⟩

/-- **The shards of one gather** are equally many packs, and the reader of `rank` has
`rowPacks` of them in a row. -/
structure Shares (world rank rows rowPacks : ℕ) (launches : ℕ → Launch) : Prop where
  rank_lt : rank < world
  rowPacks_eq : (launches rank).rowPacks = rowPacks
  shardPacks_eq : ∀ s < world, (launches s).shardPacks = rows * rowPacks
  nbytes_eq : ∀ s < world, (launches s).nbytes = rows * rowPacks * PACK_BYTES

namespace Shares

variable (h : Shares world rank rows rowPacks launches) (run : Run world launches rank)

include h

/-- What is written is a pack of a source, at its place in the output. -/
theorem exists_of_mem {w : ℕ × Pack} (hw : w ∈ run.copied) :
    ∃ source < world, ∃ row < rows, ∃ col < rowPacks,
      w = (row * (world * rowPacks) + (source * rowPacks + col),
        readPack (launches source).mem (row * rowPacks + col)) := by
  obtain ⟨source, hsource, hw⟩ := List.mem_flatMap.mp (run.copied_perm.mem_iff.mp hw)
  obtain ⟨index, hindex, rfl⟩ := List.mem_map.mp hw
  have hsource := List.mem_range.mp hsource
  have hlt := ((mem_gridLoop (run.grid_pos rank) (run.threads_pos rank)).mp hindex).2
  rw [h.shardPacks_eq rank h.rank_lt] at hlt
  have hpos : 0 < rowPacks := Nat.pos_of_mul_pos_left (Nat.zero_lt_of_lt hlt)
  have hsplit : index = index / rowPacks * rowPacks + index % rowPacks :=
    (Nat.div_add_mod' index rowPacks).symm
  have hcol := Nat.mod_lt index hpos
  have hvalue : (if source = rank then readPack (launches rank).mem index
      else run.recv source index) = readPack (launches source).mem index := by
    split_ifs with heq
    · rw [heq]
    · refine recv_eq run hsource heq ?_ ?_
      · rwa [h.shardPacks_eq source hsource]
      · rw [h.nbytes_eq source hsource]
        exact Nat.mul_le_mul_right _ hlt
  refine ⟨source, hsource, index / rowPacks, Nat.div_lt_of_lt_mul (by rwa [Nat.mul_comm]),
    index % rowPacks, hcol, ?_⟩
  rw [hvalue, h.rowPacks_eq, ← hsplit, ← dest_eq hcol, ← hsplit]

/-- **What is at a place of the output.** -/
theorem gathered_at {source row col : ℕ} (hsource : source < world) (hrow : row < rows)
    (hcol : col < rowPacks) :
    run.gathered (row * (world * rowPacks) + (source * rowPacks + col)) =
      readPack (launches source).mem (row * rowPacks + col) := by
  refine writeAll_of_forall _ (fun w hw haddr => ?_) ?_
  · obtain ⟨source', hsource', row', -, col', hcol', rfl⟩ := h.exists_of_mem run hw
    obtain ⟨rfl, hinner⟩ := Region.radix_inj (Region.radix_lt hsource' hcol')
      (Region.radix_lt hsource hcol) haddr
    obtain ⟨rfl, rfl⟩ := Region.radix_inj hcol' hcol hinner
    rfl
  · rw [(copied_perm_range run h.rowPacks_eq (h.shardPacks_eq rank h.rank_lt)).mem_iff,
      h.shardPacks_eq rank h.rank_lt, Nat.mul_left_comm]
    exact List.mem_range.mpr (Region.radix_lt hrow (Region.radix_lt hsource hcol))

/-- **The kernel interleaves the shards**, a row of every source at a time. -/
theorem read_gathered :
    read (packMem run.gathered) 0 (rows * (world * rowPacks) * PACK_BYTES) =
      interleave world rows (rowPacks * PACK_BYTES) fun s => (launches s).mem := by
  rw [← flatMap_read, flatMap_range_mul]
  refine List.flatMap_congr fun row hrow => ?_
  have hrow := List.mem_range.mp hrow
  rw [flatMap_range_mul]
  refine List.flatMap_congr fun source hsource => ?_
  have hsource := List.mem_range.mp hsource
  rw [← flatMap_read]
  refine List.flatMap_congr fun col hcol => ?_
  have hcol := List.mem_range.mp hcol
  rw [Nat.zero_add, read_pack (h.gathered_at run hsource hrow hcol), Nat.add_mul, Nat.mul_assoc]

end Shares

end kernel

/-! ## The host -/

section host

variable {world maxGatherBytes d : ℕ} {inp : Input} {dim : ℤ} {out : Option Out}
  {staged : ℕ → UInt8} {call : Call}

theorem le_alignUp (n : ℕ) : n ≤ alignUp n PACK_BYTES := by
  unfold alignUp PACK_BYTES
  omega

theorem alignUp_mod (n : ℕ) : alignUp n PACK_BYTES % PACK_BYTES = 0 := by
  unfold alignUp
  exact Nat.mul_mod_left _ _

theorem alignUp_of_mod {n : ℕ} (h : n % PACK_BYTES = 0) : alignUp n PACK_BYTES = n := by
  unfold alignUp
  unfold PACK_BYTES at h ⊢
  omega

/-- **What a call sends**: the shard, as whole packs. -/
structure Call.Sends (call : Call) (inp : Input) : Prop where
  nbytes : call.launch.nbytes = alignUp inp.nbytes PACK_BYTES
  shardPacks : call.launch.shardPacks = alignUp inp.nbytes PACK_BYTES / PACK_BYTES
  mem : ∀ p < inp.nbytes, call.launch.mem p = inp.mem p

/-- **How a call reads.** The dimension has the size `n`, after the dimensions `outer` and
before the dimensions `inner`. A direct reader has a row for every index of `outer`; a
padded one has one row. -/
structure Call.Reads (call : Call) (world : ℕ) (inp : Input) (outer : List ℕ) (n : ℕ)
    (inner : List ℕ) : Prop where
  pos : 0 < inp.nbytes
  inp_shape : inp.shape = outer ++ n :: inner
  dim_eq : call.dim = outer.length
  shape_eq : call.shape = outer ++ (n * world) :: inner
  direct : call.direct = true → inp.nbytes % PACK_BYTES = 0 ∧
    call.launch.rowPacks * PACK_BYTES = (n :: inner).prod * inp.elementSize
  padded : call.direct = false →
    call.launch.rowPacks = alignUp inp.nbytes PACK_BYTES / PACK_BYTES

theorem shouldAllGather_eq_true (h : shouldAllGather maxGatherBytes inp dim = true) :
    0 < inp.nbytes ∧ 0 < inp.shape.length ∧
      (normalizeDim inp dim = 0 ∨ normalizeDim inp dim = (inp.shape.length : ℤ) - 1) := by
  unfold shouldAllGather at h
  split_ifs at h with hcuda hdevice htype hdim
  rw [Bool.and_eq_true, decide_eq_true_eq, decide_eq_true_eq] at h
  rw [Bool.or_eq_true, not_or, decide_eq_true_eq] at hcuda
  exact ⟨h.1, Nat.pos_of_ne_zero hcuda.2, by omega⟩

theorem directGatherLayout_eq_true (h : directGatherLayout inp dim = true) :
    inp.nbytes % PACK_BYTES = 0 ∧ (dim = 0 ∨ inp.lastBytes % PACK_BYTES = 0) := by
  unfold directGatherLayout at h
  split_ifs at h with hpacks
  rw [not_or, not_not] at hpacks
  rw [Bool.or_eq_true, decide_eq_true_eq, decide_eq_true_eq] at h
  exact ⟨hpacks.1, h⟩

/-- The dimensions before and after the first or the last one. -/
theorem exists_split {shape : List ℕ} (hlen : 0 < shape.length)
    (hdim : dim = 0 ∨ dim = (shape.length : ℤ) - 1) :
    ∃ outer n inner, shape = outer ++ n :: inner ∧ dim.toNat = outer.length ∧
      (dim = 0 → outer = []) ∧ (dim ≠ 0 → inner = [] ∧ shape.getLastD 0 = n) := by
  by_cases hzero : dim = 0
  · subst hzero
    cases shape with
    | nil => exact absurd hlen (Nat.lt_irrefl 0)
    | cons n inner => exact ⟨[], n, inner, rfl, rfl, fun _ => rfl, fun h => absurd rfl h⟩
  · have hlast := hdim.resolve_left hzero
    have hne : shape ≠ [] := List.ne_nil_of_length_pos hlen
    refine ⟨shape.dropLast, shape.getLast hne, [], (List.dropLast_append_getLast hne).symm, ?_,
      fun h => absurd h hzero, fun _ => ⟨rfl, ?_⟩⟩
    · rw [List.length_dropLast]
      omega
    · rw [List.getLastD_eq_getLast?, List.getLast?_eq_some_getLast hne, Option.getD_some]

/-- **What the checks of `all_gather` guarantee.** -/
theorem allGather_eq_some (h : allGather world maxGatherBytes inp dim out staged = some call) :
    call.dim = (normalizeDim inp dim).toNat ∧ call.Sends inp ∧
      ∃ outer n inner, call.Reads world inp outer n inner := by
  unfold allGather at h
  obtain ⟨heligible, h⟩ := Option.ite_none_left_eq_some.mp h
  obtain ⟨-, h⟩ := Option.ite_none_left_eq_some.mp h
  obtain ⟨hpos, hlen, hdim⟩ := shouldAllGather_eq_true (Bool.of_not_eq_false heligible)
  obtain ⟨outer, n, inner, hshape, hd, hfirst, hlast⟩ := exists_split hlen hdim
  have hgathered : gatheredShape world inp (normalizeDim inp dim) =
      outer ++ (n * world) :: inner := by
    unfold gatheredShape
    rw [hd, hshape, modify_append]
  by_cases hdirect : (directGatherLayout inp (normalizeDim inp dim) &&
      out.all (fun out => out.dataPtr % PACK_BYTES = 0)) = true
  · rw [if_pos hdirect] at h
    obtain rfl := Option.some.inj h
    obtain ⟨hpacks, hrows⟩ := directGatherLayout_eq_true (Bool.and_eq_true_iff.mp hdirect).1
    have halign := alignUp_of_mod hpacks
    refine ⟨rfl, ⟨halign.symm, congrArg (· / PACK_BYTES) halign.symm, fun _ _ => rfl⟩, outer, n, inner,
      hpos, hshape, hd, hgathered, fun _ => ⟨hpacks, ?_⟩, nofun⟩
    show (if normalizeDim inp dim = 0 then inp.nbytes / PACK_BYTES
      else inp.lastBytes / PACK_BYTES) * PACK_BYTES = _
    split_ifs with hzero
    · rw [Nat.div_mul_cancel (Nat.dvd_of_mod_eq_zero hpacks)]
      unfold Input.nbytes
      rw [hshape, hfirst hzero, List.nil_append]
    · obtain ⟨rfl, hn⟩ := hlast hzero
      rw [Nat.div_mul_cancel (Nat.dvd_of_mod_eq_zero (hrows.resolve_left hzero)),
        List.prod_singleton, ← hn]
      rfl
  · rw [if_neg hdirect] at h
    obtain rfl := Option.some.inj h
    exact ⟨rfl, ⟨rfl, rfl, fun p hp => if_pos hp⟩, outer, n, inner, hpos, hshape, hd, hgathered, nofun,
      fun _ => rfl⟩

end host

/-! ## The views after a padded gather -/

theorem reshape_eq {t : Tensor} {shape : List ℕ} (h : shape.prod = t.shape.prod) :
    ∃ v, t.reshape shape = some v ∧ v.shape = shape ∧ v.item = t.item ∧ v.data = t.data :=
  ⟨_, dif_pos h, rfl, rfl, rfl⟩

theorem viewDtype_eq {t : Tensor} {n item : ℕ} (hshape : t.shape = [n])
    (hdvd : item ∣ n * t.item) :
    ∃ v, t.viewDtype item = some v ∧ v.shape = [n * t.item / item] ∧ v.item = item ∧
      v.data = t.data := by
  have hprod : t.shape.prod = n := by rw [hshape, List.prod_singleton]
  exact ⟨_, dif_pos ⟨congrArg List.length hshape, by rwa [hprod]⟩,
    congrArg (fun k => [k * t.item / item]) hprod, rfl, rfl⟩

/-- One row for every rank, cut to the bytes of its shard. -/
theorem cut_eq {world padded n : ℕ} {gathered : Tensor} {mem : ℕ → ℕ → UInt8} (hle : n ≤ padded)
    (hshape : gathered.shape = [world * padded]) (hitem : gathered.item = 1)
    (hdata : gathered.data = (List.range world).flatMap fun s => read (mem s) 0 padded) :
    ∃ rows kept, gathered.reshape [world, padded] = some rows ∧
      rows.narrowNat 1 0 n = some kept ∧ kept.shape.prod = world * n ∧ kept.item = 1 ∧
      kept.data = (List.range world).flatMap fun s => read (mem s) 0 n := by
  obtain ⟨rows, hrows, hrowsShape, hrowsItem, hrowsData⟩ := @reshape_eq gathered [world, padded]
    (by rw [hshape, List.prod_cons, List.prod_singleton, List.prod_singleton])
  obtain ⟨kept, hkept, hkeptShape, hkeptItem, hkeptData⟩ :=
    @Tensor.narrowNat_eq rows 1 padded 0 n (by rw [hrowsShape]; rfl) (by omega)
  rw [hrowsShape, hrowsItem, hitem] at hkeptData
  refine ⟨rows, kept, hrows, hkept, ?_, hkeptItem.trans (hrowsItem.trans hitem), ?_⟩
  · rw [hkeptShape, hrowsShape]
    show world * (n * 1) = _
    rw [Nat.mul_one]
  · have hturns : ([world, padded].take 1).prod = world := Nat.mul_one world
    rw [hkeptData, hrowsData, hdata, hturns]
    refine List.flatMap_congr fun s hs => ?_
    show Bytes.slice _ (s * (padded * (1 * 1)) + 0 * (1 * 1)) (n * (1 * 1)) = _
    simp only [Nat.mul_one, Nat.add_zero]
    exact slice_joined (List.mem_range.mp hs) hle

/-- **The views drop the padding and interleave the shards.** -/
theorem unpad_eq {world n : ℕ} {inp : Input} {outer inner : List ℕ} {gathered : Tensor}
    {mem : ℕ → ℕ → UInt8} (hpos : 0 < inp.nbytes) (hinp : inp.shape = outer ++ n :: inner)
    (hshape : gathered.shape = [world * alignUp inp.nbytes PACK_BYTES]) (hitem : gathered.item = 1)
    (hdata : gathered.data = interleave world 1 (alignUp inp.nbytes PACK_BYTES) mem) :
    ∃ t, unpad world inp outer.length (outer ++ (n * world) :: inner) gathered = some t ∧
      t.shape = outer ++ (n * world) :: inner ∧ t.item = inp.elementSize ∧
      t.data = interleave world outer.prod ((n :: inner).prod * inp.elementSize) mem := by
  have hle := le_alignUp inp.nbytes
  have hes : 0 < inp.elementSize := Nat.pos_of_mul_pos_left hpos
  have hnbytes : inp.nbytes = outer.prod * ((n :: inner).prod * inp.elementSize) := by
    unfold Input.nbytes
    rw [hinp, List.prod_append, Nat.mul_assoc]
  have hjoined : gathered.data = (List.range world).flatMap fun s =>
      read (mem s) 0 (alignUp inp.nbytes PACK_BYTES) := by
    rw [hdata]
    unfold interleave
    rw [List.range_one, List.flatMap_singleton, Nat.zero_mul]
  obtain ⟨rows, kept, hrows, hkept, hkeptProd, hkeptItem, hbytes⟩ :=
    cut_eq hle hshape hitem hjoined
  obtain ⟨flat, hflat, hflatShape, hflatItem, hflatData⟩ := @reshape_eq kept [kept.shape.prod]
    List.prod_singleton
  have hone : flat.item = 1 := hflatItem.trans hkeptItem
  -- the elements again, a tensor of the shape of the input for every rank
  obtain ⟨typed, htyped, htypedShape, htypedItem, htypedData⟩ := @viewDtype_eq flat _
    inp.elementSize hflatShape (by
      rw [hkeptProd, hone, Nat.mul_one]
      exact ⟨world * inp.shape.prod, by unfold Input.nbytes; ring⟩)
  obtain ⟨stacked, hstacked, hstackedShape, hstackedItem, hstackedData⟩ :=
    @reshape_eq typed (world :: inp.shape) (by
      rw [htypedShape, hkeptProd, hone, Nat.mul_one, List.prod_cons, List.prod_singleton]
      unfold Input.nbytes
      rw [← Nat.mul_assoc, Nat.mul_div_cancel _ hes])
  rw [hinp] at hstackedShape
  have hstackedSize : stacked.item = inp.elementSize := hstackedItem.trans htypedItem
  have hmoved := Tensor.data_movedim hstackedShape
  rw [hstackedSize] at hmoved
  have hmovedShape : (stacked.movedim outer.length).shape = outer ++ world :: (n :: inner) := by
    show stacked.shape.tail.take outer.length ++ stacked.shape.headD 1 ::
      stacked.shape.tail.drop outer.length = _
    rw [hstackedShape]
    show (outer ++ n :: inner).take outer.length ++ world ::
      (outer ++ n :: inner).drop outer.length = _
    rw [List.take_left, List.drop_left]
  obtain ⟨t, ht, htShape, htItem, htData⟩ := @reshape_eq (stacked.movedim outer.length)
    (outer ++ (n * world) :: inner) (by
      rw [hmovedShape, List.prod_append, List.prod_append, List.prod_cons, List.prod_cons,
        List.prod_cons]
      ring)
  refine ⟨t, ?_, htShape, htItem.trans hstackedSize, ?_⟩
  · unfold unpad
    rw [hrows, Option.bind_eq_bind, Option.bind_some, Nat.min_eq_left hle, hkept]
    simp only [Option.bind_some, hflat, htyped, hstacked, ht]
  · rw [htData, hmoved]
    refine interleave_congr fun w hw p hp => ?_
    rw [← hnbytes] at hp ⊢
    unfold Tensor.mem
    rw [hstackedData, htypedData, hflatData, hbytes]
    exact ofList_joined hw hp

/-! ## The gather -/

/-- **A gather of the ranks**, of tensors of one shape along one dimension. Addresses,
outputs and the contents of the scratch buffers are each rank's own, and so is the way it
takes. -/
structure Gather (world maxGatherBytes : ℕ) where
  shape : List ℕ
  elementSize : ℕ
  dim : ℕ
  inputs : ℕ → Input
  dims : ℕ → ℤ
  outs : ℕ → Option Out
  staged : ℕ → ℕ → UInt8
  calls : ℕ → Call
  shape_eq : ∀ r < world, (inputs r).shape = shape
  elementSize_eq : ∀ r < world, (inputs r).elementSize = elementSize
  dim_eq : ∀ r < world, normalizeDim (inputs r) (dims r) = dim
  accepted : ∀ r < world,
    allGather world maxGatherBytes (inputs r) (dims r) (outs r) (staged r) = some (calls r)

namespace Gather

variable {world maxGatherBytes rank : ℕ} (g : Gather world maxGatherBytes)

/-- What the ranks launch. -/
def launches (r : ℕ) : Launch := (g.calls r).launch

theorem nbytes_eq {r : ℕ} (hr : r < world) : (g.inputs r).nbytes = g.shape.prod * g.elementSize := by
  unfold Input.nbytes
  rw [g.shape_eq r hr, g.elementSize_eq r hr]

theorem sends {r : ℕ} (hr : r < world) : (g.calls r).Sends (g.inputs r) :=
  (allGather_eq_some (g.accepted r hr)).2.1

/-- What arrives is the shards. -/
theorem mem_eq {r p : ℕ} (hr : r < world) (hp : p < g.shape.prod * g.elementSize) :
    (g.launches r).mem p = (g.inputs r).tensor.mem p := by
  have hsize : p < (g.inputs r).shape.prod * (g.inputs r).elementSize := by
    rwa [← g.nbytes_eq hr] at hp
  exact ((g.sends hr).mem p hsize).trans (Tensor.mem_ofMem hsize).symm

/-- The shards of a gather, in packs: the reader of `rank` divides them into rows. -/
theorem shares {rows rowPacks : ℕ} (hrank : rank < world)
    (hrow : (g.launches rank).rowPacks = rowPacks)
    (hpacks : alignUp (g.shape.prod * g.elementSize) PACK_BYTES = rows * rowPacks * PACK_BYTES) :
    Shares world rank rows rowPacks g.launches where
  rank_lt := hrank
  rowPacks_eq := hrow
  shardPacks_eq s hs := by
    show (g.calls s).launch.shardPacks = _
    rw [(g.sends hs).shardPacks, g.nbytes_eq hs, hpacks, Nat.mul_div_cancel _ (by decide)]
  nbytes_eq s hs := by
    show (g.calls s).launch.nbytes = _
    rw [(g.sends hs).nbytes, g.nbytes_eq hs, hpacks]

/-- How the reader of a rank divides the shards: by the rows of the tensor, or not at all. -/
theorem exists_rows (hrank : rank < world) :
    ∃ outer n inner, (g.calls rank).Reads world (g.inputs rank) outer n inner ∧
      g.dim = outer.length ∧ g.shape = outer ++ n :: inner ∧
      ∃ rows rowPacks, Shares world rank rows rowPacks g.launches ∧
        ((g.calls rank).direct = true ∧ rows = outer.prod ∧
            rowPacks * PACK_BYTES = (n :: inner).prod * g.elementSize ∨
          (g.calls rank).direct = false ∧ rows = 1 ∧
            rowPacks * PACK_BYTES = alignUp (g.shape.prod * g.elementSize) PACK_BYTES) := by
  obtain ⟨hdim, -, outer, n, inner, hreads⟩ := allGather_eq_some (g.accepted rank hrank)
  have hshape : g.shape = outer ++ n :: inner := (g.shape_eq rank hrank).symm.trans hreads.inp_shape
  have houter : g.dim = outer.length := by
    rw [← hreads.dim_eq, hdim, g.dim_eq rank hrank, Int.toNat_natCast]
  refine ⟨outer, n, inner, hreads, houter, hshape, ?_⟩
  cases hdirect : (g.calls rank).direct with
  | true =>
    obtain ⟨hmod, hrow⟩ := hreads.direct hdirect
    rw [g.elementSize_eq rank hrank] at hrow
    rw [g.nbytes_eq hrank] at hmod
    refine ⟨outer.prod, (g.launches rank).rowPacks, g.shares hrank rfl ?_, Or.inl ⟨rfl, rfl, hrow⟩⟩
    rw [alignUp_of_mod hmod, Nat.mul_assoc]
    show _ = outer.prod * ((g.calls rank).launch.rowPacks * PACK_BYTES)
    rw [hrow, hshape, List.prod_append, Nat.mul_assoc]
  | false =>
    have hrow := hreads.padded hdirect
    rw [g.nbytes_eq hrank] at hrow
    have hcancel : (g.launches rank).rowPacks * PACK_BYTES =
        alignUp (g.shape.prod * g.elementSize) PACK_BYTES := by
      show (g.calls rank).launch.rowPacks * PACK_BYTES = _
      rw [hrow, Nat.div_mul_cancel (Nat.dvd_of_mod_eq_zero (alignUp_mod _))]
    refine ⟨1, (g.launches rank).rowPacks, g.shares hrank rfl ?_, Or.inr ⟨rfl, rfl, hcancel⟩⟩
    rw [Nat.one_mul, hcancel]

/-- **Every rank returns the concatenation**, on whatever way it and the others go. -/
theorem result_eq (hrank : rank < world) (run : Run world g.launches rank) :
    ∃ t, Tensor.cat g.dim ((List.range world).map fun r => (g.inputs r).tensor) = some t ∧
      (g.calls rank).result world (g.inputs rank) run.gathered = some t := by
  obtain ⟨outer, n, inner, hreads, hdim, hshape, rows, rowPacks, hshares, hcase⟩ :=
    g.exists_rows hrank
  obtain ⟨t, ht, htShape, htItem, htData⟩ := @Tensor.cat_eq_some
    (fun r => (g.inputs r).tensor) world n g.elementSize outer inner (Nat.zero_lt_of_lt hrank)
    (fun r hr => (g.shape_eq r hr).trans hshape) g.elementSize_eq
  refine ⟨t, hdim ▸ ht, ?_⟩
  have hnbytes : g.shape.prod * g.elementSize =
      outer.prod * ((n :: inner).prod * g.elementSize) := by
    rw [hshape, List.prod_append, Nat.mul_assoc]
  have hbytes : interleave world outer.prod ((n :: inner).prod * g.elementSize)
      (fun r => (g.launches r).mem) = t.data := by
    rw [htData]
    exact interleave_congr fun r hr p hp => g.mem_eq hr (hnbytes ▸ hp)
  have hread := hshares.read_gathered run
  have hes := g.elementSize_eq rank hrank
  unfold Call.result
  rcases hcase with ⟨hdirect, rfl, hrow⟩ | ⟨hdirect, rfl, hrow⟩
  · rw [if_pos hdirect]
    refine congrArg some (Tensor.ext (hreads.shape_eq.trans ?_) (hes.trans htItem.symm) ?_)
    · rw [htShape, Nat.mul_comm]
    · rw [← hbytes, ← hrow, ← hread]
      show RowMajor.read _ 0 ((g.calls rank).shape.prod * (g.inputs rank).elementSize) = _
      rw [hreads.shape_eq, hes]
      refine congrArg (RowMajor.read _ 0) ?_
      calc (outer ++ (n * world) :: inner).prod * g.elementSize
          = outer.prod * world * ((n :: inner).prod * g.elementSize) := by
            rw [List.prod_append, List.prod_cons, List.prod_cons]
            ring
        _ = outer.prod * (world * rowPacks) * PACK_BYTES := by
            rw [← hrow]
            ring
  · have hdirect : ¬ (g.calls rank).direct = true := Bool.not_eq_true _ ▸ hdirect
    rw [if_neg hdirect, hreads.dim_eq, hreads.shape_eq]
    obtain ⟨u, hu, huShape, huItem, huData⟩ := @unpad_eq world n (g.inputs rank) outer inner
      (Tensor.ofMem [world * alignUp (g.inputs rank).nbytes PACK_BYTES] 1 (packMem run.gathered))
      (fun r => (g.launches r).mem) hreads.pos hreads.inp_shape rfl rfl (by
        rw [g.nbytes_eq hrank, ← hrow, ← hread, Nat.one_mul]
        show RowMajor.read _ 0 ([world * (rowPacks * PACK_BYTES)].prod * 1) = _
        rw [List.prod_singleton, Nat.mul_one, Nat.mul_assoc])
    rw [hu]
    refine congrArg some (Tensor.ext ?_ ((huItem.trans hes).trans htItem.symm) ?_)
    · rw [huShape, htShape, Nat.mul_comm]
    · rw [huData, hes, hbytes]

/-- **Every pack of the output of a kernel is written once.** -/
theorem written_once (hrank : rank < world) (run : Run world g.launches rank) :
    (run.copied.map Prod.fst).Perm (List.range (world * (g.launches rank).shardPacks)) := by
  obtain ⟨-, -, -, -, -, -, rows, rowPacks, hshares, -⟩ := g.exists_rows hrank
  exact copied_perm_range run hshares.rowPacks_eq (hshares.shardPacks_eq rank hrank)

end Gather

end AllGather
