import SparkTP4.FastLoad

/-!
# The slice that is read is the slice that is asked for

The compact tensor of `readSlice` is the narrowed tensor of the file, whichever way it is
read and whatever the bounce buffer of the thread held before (`readSlice_narrow`). The reads
touch the bytes that `planRanges` says (`mem_planRanges`), the stand-in narrows as the full
tensor does or raises (`TpSliceTensor.narrow_eq`), and every tensor of a routed expert is
needed by one rank (`existsUnique_neededNames`).
-/

open RowMajor

namespace FastLoad

variable {io : Preadv} {file : Bytes}

/-- `preadv` transfers something as long as the file has bytes. -/
def Preadv.Progress (io : Preadv) : Prop := ∀ off want, 0 < want → 0 < io off want

/-- The reads touch the bytes of `[lo, hi)`. -/
def Covers (reads : List (ℕ × ℕ)) (lo hi : ℕ) : Prop :=
  ∀ x, (∃ r ∈ reads, r.1 ≤ x ∧ x < r.1 + r.2) ↔ lo ≤ x ∧ x < hi

/-! ## Reading into a buffer -/

theorem readLoop_eq (hio : io.Progress) : ∀ {fuel off n : ℕ}, n ≤ fuel → off + n ≤ file.length →
    readLoop io file fuel off n = some (file.slice off n)
  | 0, off, n, hfuel, _ => by
    obtain rfl := Nat.le_zero.mp hfuel
    rfl
  | fuel + 1, off, n, hfuel, hfit => by
    by_cases hn : n = 0
    · subst hn
      rfl
    · have hpos := hio off n (Nat.pos_of_ne_zero hn)
      have hlen : (file.pread off n (io off n)).length = min (io off n) n := by
        unfold Bytes.pread
        exact Bytes.length_slice_of_le (by omega)
      have hgot : file.pread off n (io off n) ≠ [] := by
        intro h
        rw [h, List.length_nil] at hlen
        omega
      have heq := Bytes.pread_eq_slice file off n (io off n)
      unfold readLoop
      rw [if_neg hn, if_neg hgot, readLoop_eq hio (by omega) (by omega)]
      have hsum : (file.pread off n (io off n)).length +
          (n - (file.pread off n (io off n)).length) = n := by omega
      have hrest := congrArg (· ++ file.slice (off + (file.pread off n (io off n)).length)
        (n - (file.pread off n (io off n)).length)) heq
      refine congrArg some (hrest.trans ?_)
      rw [Bytes.slice_append_slice, hsum]

/-- **`_read_into` fills the buffer**, however little each `preadv` transfers. -/
theorem readInto_eq (hio : io.Progress) {off n : ℕ} (hfit : off + n ≤ file.length) :
    readInto io file off n = some (file.slice off n) :=
  readLoop_eq hio le_rfl hfit

/-- Before the last turn a loop has not reached the end. -/
theorem lt_of_lt_turns {n chunk k : ℕ} (hchunk : 0 < chunk) (hk : k < turns n chunk) :
    k * chunk < n := by
  have h := (Nat.le_div_iff_mul_le hchunk).mp (show k + 1 ≤ (n + chunk - 1) / chunk from hk)
  rw [Nat.succ_mul] at h
  omega

theorem le_turns_mul {n chunk : ℕ} (hchunk : 0 < chunk) : n ≤ turns n chunk * chunk := by
  have h := Nat.lt_div_mul_add (a := n + chunk - 1) hchunk
  unfold turns
  omega

/-- Filling a buffer piece by piece. -/
theorem splice_filled {f flat : Bytes} {m w : ℕ} (hf : f.length = m) {piece : Bytes}
    (hpiece : piece.length = w) :
    (f ++ flat.drop m).splice m piece = f ++ piece ++ flat.drop (m + w) := by
  unfold Bytes.splice
  rw [List.take_left' hf, List.drop_append, hf, hpiece, List.drop_drop,
    List.drop_eq_nil_of_le (by omega), List.nil_append]
  congr 2
  omega

/-- The chunks so far. -/
theorem readChunks_eq (hio : io.Progress) {chunk off n : ℕ} (hchunk : 0 < chunk) {flat : Bytes}
    (hflat : flat.length = n) (hfit : off + n ≤ file.length) :
    ∀ {k : ℕ}, k ≤ turns n chunk → readChunks io file chunk off n flat k =
      some ⟨file.slice off (min (k * chunk) n) ++ flat.drop (min (k * chunk) n),
        (List.range k).map fun i => (off + i * chunk, min chunk (n - i * chunk))⟩
  | 0, _ => by
    rw [Nat.zero_mul, Nat.zero_min, Bytes.slice_zero]
    rfl
  | k + 1, hk => by
    have hlt := lt_of_lt_turns hchunk hk
    have hmin : min (k * chunk) n = k * chunk := min_eq_left hlt.le
    have hnext : min ((k + 1) * chunk) n = k * chunk + min chunk (n - k * chunk) := by
      rw [Nat.succ_mul]
      omega
    unfold readChunks
    rw [readChunks_eq hio hchunk hflat hfit (Nat.le_of_succ_le hk), Option.bind_some, hmin]
    show (readInto io file (off + k * chunk) (min chunk (n - k * chunk))).map _ = _
    rw [readInto_eq hio (by omega), Option.map_some]
    refine congrArg some (congrArg₂ Filled.mk ?_ ?_)
    · rw [splice_filled (Bytes.length_slice_of_le (by omega))
        (Bytes.length_slice_of_le (by omega)), Bytes.slice_append_slice, hnext]
    · rw [List.range_succ, List.map_append]
      rfl

/-- **Chunks fill the buffer** with the bytes of the file. -/
theorem readChunks_turns (hio : io.Progress) {chunk off n : ℕ} (hchunk : 0 < chunk) {flat : Bytes}
    (hflat : flat.length = n) (hfit : off + n ≤ file.length) :
    readChunks io file chunk off n flat (turns n chunk) = some ⟨file.slice off n,
      (List.range (turns n chunk)).map fun i => (off + i * chunk, min chunk (n - i * chunk))⟩ := by
  rw [readChunks_eq hio hchunk hflat hfit le_rfl, min_eq_right (le_turns_mul hchunk),
    List.drop_eq_nil_of_le hflat.le, List.append_nil]

/-- Adjacent reads that reach the end. -/
theorem covers_turns {off n chunk k : ℕ} (hk : n ≤ k * chunk) :
    Covers ((List.range k).map fun i => (off + i * chunk, min chunk (n - i * chunk))) off (off + n) := by
  intro x
  constructor
  · rintro ⟨r, hr, hlo, hhi⟩
    obtain ⟨i, -, rfl⟩ := List.mem_map.mp hr
    dsimp only at hlo hhi
    omega
  · rintro ⟨hlo, hhi⟩
    have hchunk : 0 < chunk := Nat.pos_of_ne_zero fun h => by
      rw [h, Nat.mul_zero] at hk
      omega
    have hdiv := Nat.div_add_mod' (x - off) chunk
    have hmod := Nat.mod_lt (x - off) hchunk
    have hi : (x - off) / chunk < k := (Nat.div_lt_iff_lt_mul hchunk).mpr (by omega)
    refine ⟨_, List.mem_map_of_mem (List.mem_range.mpr hi), ?_, ?_⟩
    · dsimp only
      omega
    · dsimp only
      omega

/-! ## Whole rows through the bounce buffer -/

section Rows

variable {g : Geometry} {spec : Spec} {off rows : ℕ} {flat buf : Bytes}

/-- What is cut out of the bounce buffer is cut out of the rows that it was filled with, whatever
the rest of the buffer holds. -/
theorem narrowPieces_bounce {data : Bytes} (hdata : data.length = g.outer * g.row)
    (hspec : spec.start + spec.length ≤ g.d) {r0 count : ℕ} (hcount : r0 + count ≤ g.outer)
    (tail : Bytes) : narrowPieces (data.slice (r0 * g.row) (count * g.row) ++ tail) count g.row
        g.inner spec.start spec.length =
      (List.range count).flatMap fun o =>
        data.slice ((r0 + o) * g.row + spec.start * g.inner) (spec.length * g.inner) := by
  have hrows : r0 * g.row + count * g.row ≤ data.length := by
    rw [← Nat.add_mul, hdata]
    exact Nat.mul_le_mul_right _ hcount
  have hlen := Bytes.length_slice_of_le hrows
  refine List.flatMap_congr fun o ho => ?_
  have hfit : o * g.row + spec.start * g.inner + spec.length * g.inner ≤
      (data.slice (r0 * g.row) (count * g.row)).length :=
    piece_fits hlen hspec (List.mem_range.mp ho)
  have hinside : o * g.row + spec.start * g.inner + spec.length * g.inner ≤ count * g.row :=
    hfit.trans hlen.le
  rw [Bytes.slice_append_left hfit, Bytes.slice_slice _ _ hinside, Nat.add_mul, Nat.add_assoc]

/-- **The rows so far.** -/
theorem readRows_eq (hio : io.Progress) (hrows : 0 < rows) (hspec : spec.start + spec.length ≤ g.d)
    (hfit : off + g.outer * g.row ≤ file.length)
    (hbuf : min g.outer rows * g.row ≤ buf.length) :
    ∀ {k : ℕ}, k ≤ turns g.outer rows → ∃ own : Bytes, min g.outer rows * g.row ≤ own.length ∧
      readRows io file g spec rows off flat buf k = some
        ⟨narrowPieces (file.slice off (g.outer * g.row)) (min (k * rows) g.outer) g.row g.inner
            spec.start spec.length ++ flat.drop (min (k * rows) g.outer * (spec.length * g.inner)),
          own, (List.range k).map fun i =>
            (off + i * (rows * g.row), min (rows * g.row) (g.outer * g.row - i * (rows * g.row)))⟩
  | 0, _ => by
    refine ⟨buf, hbuf, ?_⟩
    rw [Nat.zero_mul, Nat.zero_min, Nat.zero_mul]
    rfl
  | k + 1, hk => by
    obtain ⟨own, hown, hprev⟩ := readRows_eq hio hrows hspec hfit hbuf (Nat.le_of_succ_le hk)
    have hlt := lt_of_lt_turns hrows hk
    have hdata := Bytes.length_slice_of_le hfit
    let count := min rows (g.outer - k * rows)
    have hcount : k * rows + count ≤ g.outer := by omega
    have hnext : min ((k + 1) * rows) g.outer = k * rows + count := by
      rw [Nat.succ_mul]
      omega
    have hrange : k * rows * g.row + count * g.row ≤ g.outer * g.row := by
      rw [← Nat.add_mul]
      exact Nat.mul_le_mul_right _ hcount
    have hread : readInto io file (off + k * rows * g.row) (count * g.row) =
        some ((file.slice off (g.outer * g.row)).slice (k * rows * g.row) (count * g.row)) := by
      rw [readInto_eq hio (by omega), Bytes.slice_slice _ _ hrange]
    have hpiece : ((file.slice off (g.outer * g.row)).slice (k * rows * g.row)
        (count * g.row)).length = count * g.row :=
      Bytes.length_slice_of_le (hrange.trans hdata.ge)
    have hsmall : count * g.row ≤ own.length :=
      (Nat.mul_le_mul_right _ (by omega : count ≤ min g.outer rows)).trans hown
    refine ⟨own.splice 0 ((file.slice off (g.outer * g.row)).slice (k * rows * g.row)
      (count * g.row)), ?_, ?_⟩
    · rw [Bytes.length_splice (by rw [hpiece, Nat.zero_add]; exact hsmall)]
      exact hown
    unfold readRows
    rw [hprev, Option.bind_some]
    show (readInto io file (off + k * rows * g.row) (count * g.row)).map _ = _
    rw [hread, Option.map_some]
    refine congrArg some ?_
    have hkept := narrowPieces_bounce hdata hspec hcount (own.drop (0 + count * g.row))
    have hkeptLen : ((List.range count).flatMap fun o => (file.slice off (g.outer * g.row)).slice
        ((k * rows + o) * g.row + spec.start * g.inner) (spec.length * g.inner)).length =
        count * (spec.length * g.inner) :=
      Bytes.length_records fun o ho => length_piece hdata hspec (by omega)
    have hbefore : (narrowPieces (file.slice off (g.outer * g.row)) (k * rows) g.row g.inner
        spec.start spec.length).length = k * rows * (spec.length * g.inner) :=
      Bytes.length_records fun o ho => length_piece hdata hspec (by omega)
    have hsplice : own.splice 0 ((file.slice off (g.outer * g.row)).slice (k * rows * g.row)
        (count * g.row)) = (file.slice off (g.outer * g.row)).slice (k * rows * g.row)
        (count * g.row) ++ own.drop (0 + count * g.row) := by
      unfold Bytes.splice
      rw [hpiece]
      rfl
    rw [min_eq_left hlt.le, hnext]
    dsimp only
    rw [hsplice, hkept, splice_filled hbefore hkeptLen]
    congr 1
    · rw [← Nat.add_mul]
      exact congrArg (· ++ _) (Bytes.records_append _ _ _).symm
    · rw [List.range_succ, List.map_append]
      refine congrArg _ (congrArg (fun r => [r]) (Prod.ext ?_ ?_))
      · show off + k * rows * g.row = off + k * (rows * g.row)
        rw [Nat.mul_assoc]
      · show count * g.row = min (rows * g.row) (g.outer * g.row - k * (rows * g.row))
        rw [← Nat.mul_assoc, ← Nat.sub_mul, Nat.mul_min_mul_right]

end Rows

/-! ## The tensors -/

section Tensors

variable {info : Info} {base chunk : ℕ} {t : Tensor} {flat : Bytes} {buf : Option Bytes}

theorem tensor_eq (h : info.tensor file base = some t) : t.shape = info.shape ∧
    t.item = info.dtype.itemsize ∧
    t.data = file.slice (base + info.dataOffsets.1) (info.shape.prod * info.dtype.itemsize) := by
  unfold Info.tensor at h
  split_ifs at h with hlen
  obtain rfl := Option.some.inj h
  exact ⟨rfl, rfl, rfl⟩

/-- The bytes of a tensor lie in the file. -/
theorem tensor_fits (h : info.tensor file base = some t)
    (hpos : info.shape.prod * info.dtype.itemsize ≠ 0) :
    base + info.dataOffsets.1 + info.shape.prod * info.dtype.itemsize ≤ file.length := by
  obtain ⟨hshape, hitem, hdata⟩ := tensor_eq h
  have hlen := t.size
  rw [hdata, hshape, hitem, Bytes.length_slice] at hlen
  omega

theorem asTensor_eq {dtype : Dtype} {part : Tensor} (hitem : part.item = dtype.itemsize) :
    asTensor part.data dtype part.shape = some part := by
  have hsize := part.size
  rw [hitem] at hsize
  exact (dif_pos hsize).trans (congrArg some (Tensor.ext rfl hitem.symm rfl))

/-- A tensor without a byte. -/
theorem asTensor_nil {dtype : Dtype} {part : Tensor} (hitem : part.item = dtype.itemsize)
    (hempty : part.shape.prod * part.item = 0) : asTensor [] dtype part.shape = some part := by
  have hdata : part.data = [] := List.eq_nil_of_length_eq_zero (part.size.trans hempty)
  rw [← hdata]
  exact asTensor_eq hitem

/-- **A tensor that is read whole.** -/
theorem readTensor_eq (hio : io.Progress) (hchunk : 0 < chunk) (hvalid : info.Valid)
    (ht : info.tensor file base = some t)
    (hflat : flat.length = info.dataOffsets.2 - info.dataOffsets.1) :
    ∃ r, readTensor io file chunk base info flat buf = some r ∧ r.tensor = t ∧
      Covers r.reads (base + info.dataOffsets.1) (base + info.dataOffsets.2) := by
  obtain ⟨hshape, hitem, hdata⟩ := tensor_eq ht
  have hn : info.dataOffsets.2 - info.dataOffsets.1 = info.shape.prod * info.dtype.itemsize := by
    rw [hvalid, Nat.add_sub_cancel_left]
  unfold readTensor
  by_cases hzero : info.dataOffsets.2 - info.dataOffsets.1 = 0
  · rw [if_pos hzero, ← hshape, asTensor_nil hitem (by rw [hshape, hitem, ← hn, hzero])]
    refine ⟨_, rfl, rfl, fun x => ⟨fun ⟨r, hr, _⟩ => absurd hr List.not_mem_nil, fun hx => ?_⟩⟩
    omega
  · have hfit := tensor_fits ht (hn ▸ hzero)
    rw [if_neg hzero, if_neg (not_not.mpr hflat), readChunks_turns hio hchunk hflat (by omega),
      Option.bind_some]
    have hread : asTensor (file.slice (base + info.dataOffsets.1)
        (info.dataOffsets.2 - info.dataOffsets.1)) info.dtype info.shape = some t := by
      rw [hn, ← hdata, ← hshape]
      exact asTensor_eq hitem
    rw [hread]
    refine ⟨_, rfl, rfl, ?_⟩
    have hcover := @covers_turns (base + info.dataOffsets.1) _ _ _
      (le_turns_mul (n := info.dataOffsets.2 - info.dataOffsets.1) hchunk)
    have hend : base + info.dataOffsets.1 + (info.dataOffsets.2 - info.dataOffsets.1) =
        base + info.dataOffsets.2 := by omega
    rw [hend] at hcover
    exact hcover

/-- The bytes that the read of a slice touches. -/
def Geometry.touched (g : Geometry) (spec : Spec) (a : ℕ) : ℕ × ℕ :=
  if g.outer = 1 then (a + spec.start * g.inner, a + (spec.start + spec.length) * g.inner)
  else (a, a + g.outer * g.row)

theorem sliceGeometry_eq {spec : Spec} {g : Geometry} (h : sliceGeometry info spec = some g) :
    info.shape[spec.dim]? = some g.d ∧ (info.shape.take spec.dim).prod = g.outer ∧
      (info.shape.drop (spec.dim + 1)).prod * info.dtype.itemsize = g.inner := by
  obtain ⟨d, hd, rfl⟩ := Option.map_eq_some_iff.mp h
  exact ⟨hd, rfl, rfl⟩

/-- **The slice that is read is the narrowed tensor**: straight into the buffer or through the
bounce buffer, in chunks of any size, with any bounce buffer from before. -/
theorem readSlice_narrow (hio : io.Progress) (hchunk : 0 < chunk)
    (ht : info.tensor file base = some t) {spec : Spec} {g : Geometry}
    (hg : sliceGeometry info spec = some g) (hspec : spec.start + spec.length ≤ g.d)
    (hflat : flat.length = g.outer * (spec.length * g.inner)) :
    ∃ r, readSlice io file chunk base info spec flat buf = some r ∧
      t.narrowNat spec.dim spec.start spec.length = some r.tensor ∧
      (g.outer * (spec.length * g.inner) ≠ 0 →
        Covers r.reads (g.touched spec (base + info.dataOffsets.1)).1
          (g.touched spec (base + info.dataOffsets.1)).2) ∧
      (g.outer * (spec.length * g.inner) = 0 → r.reads = []) := by
  obtain ⟨hshape, hitem, hdata⟩ := tensor_eq ht
  obtain ⟨hdim, houter, hinner⟩ := sliceGeometry_eq hg
  have hprod := Tensor.prod_split hdim info.dtype.itemsize
  rw [houter, hinner] at hprod
  rw [← hshape] at hdim houter hinner
  rw [← hitem] at hinner
  obtain ⟨part, hpart, hpshape, hpitem, hpdata⟩ := Tensor.narrowNat_eq hdim hspec
  have hsize := part.size
  rw [hpshape, hpitem, Tensor.prod_set hdim, houter, hinner] at hsize
  rw [houter, hinner, hdata, hprod] at hpdata
  have hpart' : info.shape.set spec.dim spec.length = part.shape := by rw [hpshape, hshape]
  have hitem' := hpitem.trans hitem
  unfold readSlice
  rw [hg, Option.bind_some, hpart']
  dsimp only
  by_cases hzero : g.outer * (spec.length * g.inner) = 0
  · have hempty : part.shape.prod * part.item = 0 := part.size.symm.trans (hsize.trans hzero)
    rw [if_pos hzero, asTensor_nil hitem' hempty]
    exact ⟨_, rfl, hpart, fun h => absurd hzero h, fun _ => rfl⟩
  have hwhole : g.outer * (g.d * g.inner) ≠ 0 := fun h => by
    obtain h | h := Nat.mul_eq_zero.mp h
    · exact hzero (by rw [h, Nat.zero_mul])
    · obtain h | h := Nat.mul_eq_zero.mp h
      · exact hzero (by rw [show spec.length = 0 by omega, Nat.zero_mul, Nat.mul_zero])
      · exact hzero (by rw [h, Nat.mul_zero, Nat.mul_zero])
  have hfit := tensor_fits ht (hprod ▸ hwhole)
  rw [hprod] at hfit
  rw [if_neg hzero, if_neg (not_not.mpr hflat)]
  unfold Geometry.touched
  by_cases hone : g.outer = 1
  · rw [if_pos hone, if_pos hone]
    rw [hone, Nat.one_mul] at hfit hflat hpdata ⊢
    have hrange : spec.start * g.inner + spec.length * g.inner ≤ g.d * g.inner := by
      rw [← Nat.add_mul]
      exact Nat.mul_le_mul_right _ hspec
    have hread : part.data = file.slice (base + info.dataOffsets.1 + spec.start * g.inner)
        (spec.length * g.inner) := by
      rw [hpdata, ← Bytes.slice_slice _ _ hrange, ← Nat.zero_add (spec.start * g.inner),
        ← Nat.zero_mul (g.d * g.inner)]
      exact List.flatMap_singleton ..
    rw [readChunks_turns hio hchunk hflat (by omega), Option.bind_some, ← hread,
      asTensor_eq hitem']
    refine ⟨_, rfl, hpart, fun _ => ?_, fun h => absurd (by rw [hone, Nat.one_mul, h]) hzero⟩
    have hcover := @covers_turns (base + info.dataOffsets.1 + spec.start * g.inner) _ _ _
      (le_turns_mul (n := spec.length * g.inner) hchunk)
    rw [Nat.add_assoc (base + _), ← Nat.add_mul] at hcover
    exact hcover
  · rw [if_neg hone, if_neg hone, if_neg (Nat.not_lt.mpr hspec)]
    have hrows : 0 < max 1 (chunk / g.row) := Nat.lt_of_lt_of_le Nat.one_pos (le_max_left _ _)
    have hbuf : min g.outer (max 1 (chunk / g.row)) * g.row ≤
        (bounce chunk buf (min g.outer (max 1 (chunk / g.row)) * g.row)).length := by
      unfold bounce
      cases hfilter : buf.filter fun b => min g.outer (max 1 (chunk / g.row)) * g.row ≤ b.length with
      | none => exact (le_max_left _ _).trans (List.length_replicate ..).ge
      | some b => exact of_decide_eq_true (Option.filter_eq_some_iff.mp hfilter).2
    obtain ⟨own, -, hread⟩ := @readRows_eq io file g spec _ _ flat _ hio hrows hspec hfit hbuf _ le_rfl
    rw [min_eq_right (le_turns_mul hrows), ← hflat, List.drop_eq_nil_of_le le_rfl,
      List.append_nil] at hread
    rw [hread, Option.bind_some]
    have hread : part.data = narrowPieces (file.slice (base + info.dataOffsets.1)
        (g.outer * g.row)) g.outer g.row g.inner spec.start spec.length := hpdata
    rw [← hread, asTensor_eq hitem']
    refine ⟨_, rfl, hpart, fun _ => covers_turns ?_, fun h => absurd h hzero⟩
    rw [← Nat.mul_assoc]
    exact Nat.mul_le_mul_right _ (le_turns_mul hrows)

end Tensors

/-! ## The ranges of a plan -/

/-- A byte of one of the ranges. -/
def InRanges (ranges : List (ℕ × ℕ)) (x : ℕ) : Prop := ∃ r ∈ ranges, r.1 ≤ x ∧ x < r.2

theorem inRanges_cons {r : ℕ × ℕ} {ranges : List (ℕ × ℕ)} {x : ℕ} :
    InRanges (r :: ranges) x ↔ (r.1 ≤ x ∧ x < r.2) ∨ InRanges ranges x := by
  unfold InRanges
  simp only [List.mem_cons, exists_eq_or_imp]

/-- **Merging** keeps the bytes, if the ranges come in the order of their starts. -/
theorem inRanges_foldl_mergeRange {x : ℕ} : ∀ {ranges merged : List (ℕ × ℕ)},
    ranges.Pairwise (fun r r' => r.1 ≤ r'.1) →
    (∀ last, merged.head? = some last → ∀ r ∈ ranges, last.1 ≤ r.1) →
    (InRanges (ranges.foldl mergeRange merged) x ↔ InRanges merged x ∨ InRanges ranges x)
  | [], merged, _, _ => by
    show _ ↔ _ ∨ InRanges [] x
    exact ⟨.inl, fun h => h.resolve_right fun ⟨r, hr, _⟩ => absurd hr List.not_mem_nil⟩
  | r :: ranges, [], hsorted, _ => by
    obtain ⟨hfirst, hsorted⟩ := List.pairwise_cons.mp hsorted
    rw [List.foldl_cons, inRanges_foldl_mergeRange hsorted fun last hlast => by
      obtain rfl := Option.some.inj hlast
      exact hfirst]
    show InRanges [r] x ∨ _ ↔ InRanges [] x ∨ InRanges (r :: ranges) x
    rw [inRanges_cons, inRanges_cons]
    tauto
  | r :: ranges, last :: merged, hsorted, hlast => by
    obtain ⟨hfirst, hsorted⟩ := List.pairwise_cons.mp hsorted
    have hle := hlast last rfl r List.mem_cons_self
    have hhead : ∀ l, (mergeRange (last :: merged) r).head? = some l → ∀ r' ∈ ranges, l.1 ≤ r'.1 := by
      intro l hl r' hr'
      unfold mergeRange at hl
      dsimp only at hl
      split_ifs at hl
      · obtain rfl := Option.some.inj hl
        exact hlast last rfl r' (List.mem_cons_of_mem r hr')
      · obtain rfl := Option.some.inj hl
        exact hfirst r' hr'
    rw [List.foldl_cons, inRanges_foldl_mergeRange hsorted hhead]
    unfold mergeRange
    dsimp only
    split_ifs with htouch
    · simp only [inRanges_cons]
      have hunion : last.1 ≤ x ∧ x < max last.2 r.2 ↔
          (last.1 ≤ x ∧ x < last.2) ∨ (r.1 ≤ x ∧ x < r.2) := by omega
      rw [hunion]
      tauto
    · simp only [inRanges_cons]
      tauto

/-- **The bytes of `planRanges`** are those of the ranges of the entries. -/
theorem inRanges_planRanges {base : ℕ} {plan : List Entry} {x : ℕ} :
    InRanges (planRanges base plan) x ↔
      ∃ e ∈ plan, ∃ r, e.range = some r ∧ base + r.1 ≤ x ∧ x < base + r.2 := by
  unfold planRanges
  dsimp only
  have hsorted := @List.pairwise_mergeSort (ℕ × ℕ)
    (fun r r' => decide (r.1 < r'.1 ∨ r.1 = r'.1 ∧ r.2 ≤ r'.2))
    (fun r r' r'' h h' => by simp only [decide_eq_true_eq] at *; omega)
    (fun r r' => by simp only [Bool.or_eq_true, decide_eq_true_eq]; omega)
    ((plan.filterMap Entry.range).map fun r => (base + r.1, base + r.2))
  rw [inRanges_foldl_mergeRange (hsorted.imp fun h => by
    simp only [decide_eq_true_eq] at h
    omega) fun last hlast => by cases hlast]
  constructor
  · rintro (⟨r, hr, -⟩ | ⟨r, hr, hx⟩)
    · exact absurd hr List.not_mem_nil
    · obtain ⟨q, hq, rfl⟩ := List.mem_map.mp (List.mem_mergeSort.mp hr)
      obtain ⟨e, he, heq⟩ := List.mem_filterMap.mp hq
      exact ⟨e, he, q, heq, hx⟩
  · rintro ⟨e, he, r, hr, hx⟩
    exact .inr ⟨_, List.mem_mergeSort.mpr (List.mem_map.mpr
      ⟨r, List.mem_filterMap.mpr ⟨e, he, hr⟩, rfl⟩), hx⟩

/-- The slice of one of `tp` ranks, of equal length. -/
def Spec.OfRank (spec : Spec) (shape : List ℕ) : Prop :=
  ∃ tp rank, rank < tp ∧ shape[spec.dim]? = some (tp * spec.length) ∧
    spec.start = rank * spec.length

theorem Spec.OfRank.fits {spec : Spec} {shape : List ℕ} {d : ℕ} (h : spec.OfRank shape)
    (hdim : shape[spec.dim]? = some d) : spec.start + spec.length ≤ d := by
  obtain ⟨tp, rank, hrank, hd, hstart⟩ := h
  obtain rfl := Option.some.inj (hdim.symm.trans hd)
  rw [hstart, ← Nat.succ_mul]
  exact Nat.mul_le_mul_right _ hrank

/-- What `sliceSpec` plans is the slice of a rank. -/
theorem sliceSpec_ofRank {int : Name → Option ℤ} {name : Name} {info : Info} {rank size : ℕ}
    {spec : Spec} (hrank : rank < size) (h : sliceSpec int name info (some (rank, size)) = some spec) :
    spec.OfRank info.shape := by
  unfold sliceSpec at h
  split at h
  · rename_i heq _ _
    obtain ⟨rfl, rfl⟩ := Prod.mk.inj (Option.some.inj heq)
    obtain ⟨-, h⟩ := Option.ite_none_right_eq_some.mp h
    obtain ⟨dim, -, h⟩ := Option.bind_eq_some_iff.mp h
    cases hdim : info.shape[dim]? with
    | none =>
      rw [hdim] at h
      cases h
    | some d =>
      rw [hdim] at h
      obtain ⟨hmod, h⟩ := Option.ite_none_left_eq_some.mp h
      obtain rfl := Option.some.inj h
      refine ⟨size, rank, hrank, ?_, rfl⟩
      rw [hdim, Nat.mul_div_cancel' (Nat.dvd_of_mod_eq_zero (not_not.mp hmod))]
  · cases h

/-- An entry of a plan: of a valid header, read whole or for a rank. -/
structure Entry.Planned (e : Entry) : Prop where
  valid : e.info.Valid
  spec : ∀ spec, e.spec = some spec → spec.OfRank e.info.shape

/-- **The reads of an entry** touch the bytes of its range. -/
theorem Entry.read_covers (hio : io.Progress) {chunk base : ℕ} (hchunk : 0 < chunk) {e : Entry}
    (hplanned : e.Planned) {t : Tensor} (ht : e.info.tensor file base = some t) {flat : Bytes}
    (hflat : (specBytes e.info e.spec).map Prod.snd = some flat.length) {buf : Option Bytes}
    {r : ReadResult} (hr : e.read io file chunk base flat buf = some r) (x : ℕ) :
    (∃ q ∈ r.reads, q.1 ≤ x ∧ x < q.1 + q.2) ↔
      ∃ q, e.range = some q ∧ base + q.1 ≤ x ∧ x < base + q.2 := by
  have hbytes : e.info.dataOffsets.2 = _ := hplanned.valid
  unfold Entry.read at hr
  unfold Entry.range
  cases hspec : e.spec with
  | none =>
    rw [hspec] at hr hflat
    obtain ⟨r', hr', -, hcover⟩ := @readTensor_eq io file e.info base chunk t flat buf hio hchunk
      hplanned.valid ht (Option.some.inj hflat).symm
    obtain rfl := Option.some.inj (hr'.symm.trans hr)
    rw [hcover x, Option.bind_none]
    dsimp only
    split_ifs with hempty
    · exact ⟨fun _ => by omega, fun ⟨q, hq, _⟩ => by cases hq⟩
    · exact ⟨fun hx => ⟨_, rfl, hx⟩, fun ⟨q, hq, hx⟩ => by rwa [← Option.some.inj hq] at hx⟩
  | some spec =>
    rw [hspec] at hr hflat
    obtain ⟨kept, hkept, hlen⟩ := Option.map_eq_some_iff.mp hflat
    obtain ⟨g, hg, rfl⟩ := Option.map_eq_some_iff.mp hkept
    obtain ⟨hdim, houter, hinner⟩ := sliceGeometry_eq hg
    have hprod := Tensor.prod_split hdim e.info.dtype.itemsize
    rw [houter, hinner] at hprod
    rw [hprod] at hbytes
    obtain ⟨tp, rank, hrank, hd, hstart⟩ := hplanned.spec spec hspec
    have hfits := (hplanned.spec spec hspec).fits hdim
    have hdlen : g.d = tp * spec.length := Option.some.inj (hdim.symm.trans hd)
    obtain ⟨r', hr', -, hcover, hnone⟩ := @readSlice_narrow io file e.info base chunk t flat buf hio
      hchunk ht spec g hg hfits hlen.symm
    obtain rfl := Option.some.inj (hr'.symm.trans hr)
    rw [Option.bind_some, hg, Option.map_some]
    dsimp only
    by_cases hzero : g.outer * (spec.length * g.inner) = 0
    · -- a slice of no byte is the slice of a tensor of no byte
      have hwhole : g.outer * (g.d * g.inner) = 0 := by
        rw [hdlen, Nat.mul_assoc, Nat.mul_left_comm, hzero, Nat.mul_zero]
      rw [if_pos (by omega), hnone hzero]
      exact ⟨fun ⟨q, hq, _⟩ => absurd hq List.not_mem_nil, fun ⟨q, hq, _⟩ => by cases hq⟩
    · have hwhole : g.outer * (g.d * g.inner) ≠ 0 := fun h => by
        refine hzero (Nat.eq_zero_of_not_pos fun hpos => ?_)
        have hle : g.outer * (spec.length * g.inner) ≤ g.outer * (g.d * g.inner) :=
          Nat.mul_le_mul_left _ (Nat.mul_le_mul_right _ ((Nat.le_add_left _ _).trans hfits))
        omega
      rw [if_neg (by omega), hcover hzero x]
      unfold Geometry.touched Geometry.row
      split_ifs
      · exact ⟨fun hx => ⟨_, rfl, by omega⟩, fun ⟨q, hq, hx⟩ => by
          rw [← Option.some.inj hq] at hx
          omega⟩
      · exact ⟨fun hx => ⟨_, rfl, by omega⟩, fun ⟨q, hq, hx⟩ => by
          rw [← Option.some.inj hq] at hx
          omega⟩

/-- What `readPlan` plans out of a valid header. -/
theorem readPlan_planned {int : Name → Option ℤ} {header : List (Name × Info)}
    (hvalid : ∀ k ∈ header, k.2.Valid) {phase : Phase} {ep : Option (ℕ × ℕ)} {nRouted : Option ℕ}
    {tp : Option (ℕ × ℕ)} (htp : ∀ rank size, tp = some (rank, size) → rank < size) {experts : Bool}
    {e : Entry} (he : e ∈ readPlan int header phase ep nRouted tp experts) : e.Planned := by
  obtain ⟨k, hk, rfl⟩ := List.mem_map.mp he
  refine ⟨hvalid k (List.mem_filter.mp hk).1, fun spec hspec => ?_⟩
  cases tp with
  | none => cases hspec
  | some p => exact sliceSpec_ofRank (htp p.1 p.2 rfl) hspec

/-! ## The stand-in -/

theorem wrap_natCast (n i : ℕ) : Tensor.wrap n (i : ℤ) = i :=
  if_neg (Int.not_lt.mpr (Int.natCast_nonneg i))

/-- **The stand-in narrows as the full tensor**, or raises. -/
theorem TpSliceTensor.narrow_eq {s : TpSliceTensor} {full : Tensor} (hs : s.StandsFor full)
    {dim start length : ℤ} {q : Tensor} (h : s.narrow dim start length = some q) :
    full.narrow dim start length = some q := by
  obtain ⟨hshape, resident, hpart⟩ := hs
  obtain ⟨d, hdim, hfit⟩ := Tensor.narrowNat_eq_some hpart
  obtain ⟨p, hp, hpshape, -, -⟩ := Tensor.narrowNat_eq hdim hfit
  obtain rfl := Option.some.inj (hp.symm.trans hpart)
  have hpdim : s.part.shape[s.dim]? = some resident := by
    rw [hpshape, List.getElem?_set_self (List.getElem?_eq_some_iff.mp hdim).1]
  unfold TpSliceTensor.narrow at h
  dsimp only at h
  rw [hpdim, Option.bind_some, hshape] at h
  obtain ⟨hinside, h⟩ := Option.ite_none_left_eq_some.mp h
  push Not at hinside
  obtain ⟨hwrap, hlo, hhi, hlength⟩ := hinside
  obtain ⟨k, rfl⟩ := Int.le.dest hlo
  obtain ⟨n, rfl⟩ := Int.eq_ofNat_of_zero_le hlength
  have hn : k + n ≤ resident := by omega
  have hfull : full.narrow dim ((s.start : ℤ) + k) n = full.narrowNat s.dim (s.start + k) n := by
    rw [← Int.natCast_add, ← Tensor.narrow_natCast hdim]
    unfold Tensor.narrow
    dsimp only
    rw [wrap_natCast full.shape.length s.dim]
    have hdimWrap : Tensor.wrap full.shape.length dim = s.dim := hwrap
    rw [hdimWrap]
  rw [hfull, ← Tensor.narrowNat_narrowNat hpart hn]
  rw [hwrap, show (s.start : ℤ) + k - s.start = k by omega, Tensor.narrow_natCast hpdim] at h
  split_ifs at h with hall
  · obtain rfl := Option.some.inj h
    obtain ⟨hk, hresident⟩ := hall
    obtain rfl : k = 0 := by omega
    obtain rfl : n = resident := by omega
    exact Tensor.narrowNat_full hpdim
  · exact h

/-! ## The names of a rank -/

section Names

variable {int : Name → Option ℤ} {header : List (Name × Info)} {name : Name} {epSize nRouted r : ℕ}

/-- A name of the target load. -/
theorem mem_neededNames (hname : name ∈ header.map Prod.fst) (hskip : Skipped name = false)
    (hdvd : epSize ∣ nRouted) :
    name ∈ neededNames int header .target (some (r, epSize)) (some nRouted) ↔
      ownedBy int (r * (nRouted / epSize)) ((r + 1) * (nRouted / epSize)) name = true := by
  unfold neededNames
  dsimp only
  rw [if_neg (not_not.mpr (Nat.mod_eq_zero_of_dvd hdvd)), List.mem_filter, hskip]
  exact and_iff_right hname

/-- **A routed expert is needed by one rank.** -/
theorem existsUnique_neededNames (hname : name ∈ header.map Prod.fst)
    (hskip : Skipped name = false) (hdvd : epSize ∣ nRouted) {e : ℕ}
    (he : expertId int name = some (e : ℤ)) (hlt : e < nRouted) :
    ∃! r, r < epSize ∧ name ∈ neededNames int header .target (some (r, epSize)) (some nRouted) := by
  have hrouted : epSize * (nRouted / epSize) = nRouted := Nat.mul_div_cancel' hdvd
  have howned (r : ℕ) : ownedBy int (r * (nRouted / epSize)) ((r + 1) * (nRouted / epSize)) name =
      true ↔ r * (nRouted / epSize) ≤ e ∧ e < (r + 1) * (nRouted / epSize) := by
    unfold ownedBy
    rw [he]
    show decide _ = true ↔ _
    rw [decide_eq_true_eq]
    norm_cast
  have hiff (r : ℕ) : (r < epSize ∧
      name ∈ neededNames int header .target (some (r, epSize)) (some nRouted)) ↔
      r = e / (nRouted / epSize) := by
    rw [mem_neededNames hname hskip hdvd, howned, Nat.succ_mul]
    constructor
    · rintro ⟨hr, hlo, hhi⟩
      exact ((slice_unique (i := e - r * (nRouted / epSize)) (hrouted.symm ▸ hlt)).mp
        ⟨hr, by omega, by omega⟩).1
    · intro hr
      have h := (slice_unique (i := e % (nRouted / epSize)) (hrouted.symm ▸ hlt)).mpr ⟨hr, rfl⟩
      exact ⟨h.1, by omega, by omega⟩
  exact ⟨_, (hiff _).mpr rfl, fun r hr => (hiff r).mp hr⟩

/-- What is not a routed expert is needed by every rank. -/
theorem mem_neededNames_of_none (hname : name ∈ header.map Prod.fst)
    (hskip : Skipped name = false) (hdvd : epSize ∣ nRouted) (he : expertId int name = none) :
    name ∈ neededNames int header .target (some (r, epSize)) (some nRouted) := by
  rw [mem_neededNames hname hskip hdvd]
  unfold ownedBy
  rw [he]

end Names

/-! ## The slice reads -/

/-- **The tensor-parallel reads of the fast loader.** The compact tensor of a rank is the narrowed
tensor of the file, for every shape, type, dimension and chunk size, and whatever the buffers
held; the slices of the ranks partition the tensor; the stand-in narrows as the full tensor or
raises; the tensors of a routed expert are needed by one rank, and every other needed tensor
by all; and the ranges of a plan are the bytes that its reads touch. -/
theorem fast_load_slices (int : Name → Option ℤ) :
    (∀ (io : Preadv) (file : Bytes) (base chunk : ℕ) (info : Info) (t : Tensor)
      (tp rank dim length : ℕ) (flat : Bytes) (buf : Option Bytes), io.Progress → 0 < chunk →
      info.tensor file base = some t → rank < tp → info.shape[dim]? = some (tp * length) →
      (specBytes info (some ⟨dim, rank * length, length⟩)).map Prod.snd = some flat.length →
      ∃ r, readSlice io file chunk base info ⟨dim, rank * length, length⟩ flat buf = some r ∧
        t.narrow dim (rank * length : ℕ) length = some r.tensor) ∧
    (∀ (shape index : List ℕ) (tp dim length : ℕ), shape[dim]? = some (tp * length) →
      InBounds shape index → ∃! p : ℕ × List ℕ, p.1 < tp ∧ InBounds (shape.set dim length) p.2 ∧
        shift dim (p.1 * length) p.2 = index) ∧
    (∀ (s : TpSliceTensor) (full : Tensor), s.StandsFor full → ∀ (dim start length : ℤ) (q : Tensor),
      s.narrow dim start length = some q → full.narrow dim start length = some q) ∧
    (∀ (header : List (Name × Info)) (epSize nRouted : ℕ), epSize ∣ nRouted →
      ∀ name ∈ header.map Prod.fst, Skipped name = false →
        (∀ e : ℕ, expertId int name = some (e : ℤ) → e < nRouted → ∃! r, r < epSize ∧
          name ∈ neededNames int header .target (some (r, epSize)) (some nRouted)) ∧
        (expertId int name = none → ∀ r < epSize,
          name ∈ neededNames int header .target (some (r, epSize)) (some nRouted))) ∧
    (∀ (io : Preadv) (file : Bytes) (base chunk : ℕ) (plan : List Entry) (result : Entry → ReadResult),
      io.Progress → 0 < chunk →
      (∀ e ∈ plan, e.Planned ∧ (∃ t, e.info.tensor file base = some t) ∧ ∃ flat buf,
        (specBytes e.info e.spec).map Prod.snd = some flat.length ∧
          e.read io file chunk base flat buf = some (result e)) →
      ∀ x, InRanges (planRanges base plan) x ↔
        ∃ e ∈ plan, ∃ q ∈ (result e).reads, q.1 ≤ x ∧ x < q.1 + q.2) := by
  refine ⟨?_, fun shape index tp dim length => existsUnique_slice,
    fun s full hs dim start length q => TpSliceTensor.narrow_eq hs, ?_, ?_⟩
  · intro io file base chunk info t tp rank dim length flat buf hio hchunk ht hrank hdim hflat
    obtain ⟨kept, hkept, hlen⟩ := Option.map_eq_some_iff.mp hflat
    obtain ⟨g, hg, rfl⟩ := Option.map_eq_some_iff.mp hkept
    have hfits := Spec.OfRank.fits ⟨tp, rank, hrank, hdim, rfl⟩ (sliceGeometry_eq hg).1
    obtain ⟨r, hr, hpart, -⟩ := readSlice_narrow hio hchunk ht hg hfits hlen.symm
    rw [← (tensor_eq ht).1] at hdim
    exact ⟨r, hr, (Tensor.narrow_natCast hdim _ _).trans hpart⟩
  · intro header epSize nRouted hdvd name hname hskip
    exact ⟨fun e he hlt => existsUnique_neededNames hname hskip hdvd he hlt,
      fun he r _ => mem_neededNames_of_none hname hskip hdvd he⟩
  · intro io file base chunk plan result hio hchunk hplan x
    rw [inRanges_planRanges]
    refine exists_congr fun e => and_congr_right fun he => ?_
    obtain ⟨hplanned, ⟨t, ht⟩, flat, buf, hflat, hr⟩ := hplan e he
    exact (Entry.read_covers hio hchunk hplanned ht hflat hr x).symm

/-- The entry of a tensor of two rows of four bytes. -/
def twoRows : Entry := ⟨"experts.0.experts.1.w2.weight".toList, ⟨.U8, [2, 4], (0, 8)⟩, some ⟨1, 2, 2⟩⟩

/-- The second of two ranks reads its columns byte by byte, three bytes at a time, through a
bounce buffer that is longer than a row and was used before. -/
theorem fast_load_slices_columns :
    ∃ (t : Tensor) (r : ReadResult), t.data = [0, 1, 2, 3, 4, 5, 6, 7] ∧
      t.narrow 1 2 2 = some r.tensor ∧
      (∃! p : ℕ × List ℕ, p.1 < 2 ∧ InBounds [2, 2] p.2 ∧ shift 1 (p.1 * 2) p.2 = [1, 3]) ∧
      (∃! k, k < 2 ∧ twoRows.name ∈ neededNames (fun text => if text = ['1'] then some 1 else none)
        [(twoRows.name, twoRows.info)] .target (some (k, 2)) (some 2)) ∧
      ∀ x, InRanges (planRanges 0 [twoRows]) x ↔ ∃ q ∈ r.reads, q.1 ≤ x ∧ x < q.1 + q.2 := by
  let file : Bytes := [0, 1, 2, 3, 4, 5, 6, 7]
  have hsome : (twoRows.info.tensor file 0).isSome = true := by decide +kernel
  obtain ⟨t, ht⟩ := Option.isSome_iff_exists.mp hsome
  obtain ⟨hread, hunique, hnarrow, hnames, hranges⟩ :=
    fast_load_slices fun text => if text = ['1'] then some 1 else none
  have hio : Preadv.Progress fun _ _ => 1 := fun _ _ _ => Nat.one_pos
  obtain ⟨r, hr, hpart⟩ := hread (fun _ _ => 1) file 0 3 twoRows.info t 2 1 1 2 [9, 9, 9, 9]
    (some (List.replicate 7 8)) hio (by decide) ht (by decide) (by decide) (by decide +kernel)
  have hdim : t.shape[1]? = some 4 := by
    rw [(tensor_eq ht).1]
    rfl
  have hnat := (Tensor.narrow_natCast hdim 2 2).symm.trans hpart
  obtain ⟨p, hp, hshape, -⟩ := @Tensor.narrowNat_eq t 1 4 2 2 hdim (by decide)
  obtain rfl := Option.some.inj (hp.symm.trans hnat)
  have hstandIn : (⟨r.tensor, t.shape, 1, 2⟩ : TpSliceTensor).narrow 1 2 2 = some r.tensor := by
    unfold TpSliceTensor.narrow
    rw [hshape, (tensor_eq ht).1]
    rfl
  refine ⟨t, r, (tensor_eq ht).2.2, hnarrow ⟨r.tensor, t.shape, 1, 2⟩ t ⟨rfl, 2, hnat⟩ 1 2 2 _ hstandIn,
    hunique [2, 4] [1, 3] 2 1 2 rfl ?_, ?_, ?_⟩
  · exact .cons (by decide) (.cons (by decide) .nil)
  · exact (hnames [(twoRows.name, twoRows.info)] 2 2 dvd_rfl twoRows.name (by decide +kernel)
      (by decide +kernel)).1 1 (by decide +kernel) (by decide)
  · intro x
    have h := hranges (fun _ _ => 1) file 0 3 [twoRows] (fun _ => r) hio (by decide) (fun e he => by
      obtain rfl := List.mem_singleton.mp he
      refine ⟨⟨rfl, fun spec hspec => ?_⟩, ⟨t, ht⟩, _, _, by decide +kernel, hr⟩
      obtain rfl := Option.some.inj hspec
      exact ⟨2, 1, by decide, rfl, rfl⟩) x
    rw [h]
    simp only [List.mem_singleton, exists_eq_left]

end FastLoad
