import SparkTP4.TpPad

/-!
# Which padded shards the column loaders get right

The loader of the vLLM-style parameters clamps the number of real rows at 0, and fills the
padding of a block scale on every rank. `column_weight_loader` fills it where the number of
real rows is not negative, so a rank whose shard starts past the end of the tensor – not at it
– keeps scales of 0. Otherwise the two agree.
-/

namespace TpPad

open IndexTensor

variable {α : Type} {V : Values α} {E : Engine α} {w : Weight α} {P : Shards w}

theorem padFill_float32 {d : DType} (h : d = .float32) : padFill V d = V.one := if_pos h

theorem padFill_of_ne {d : DType} (h : d ≠ .float32) : padFill V d = V.zero := if_neg h

/-- The parameter's shards are as long as it is. -/
theorem size_param (P : Shards w) : P.param.data.size P.dim = P.shard := by
  unfold Tensor.size
  rw [P.shape, getD_set _ _ _ _ P.dim_lt, if_pos rfl]

/-- A shard of the parameter's shape is copied. -/
theorem copy_same {t u : Tensor α} (h : t.Same u) (hshape : u.shape = P.param.data.shape) :
    ∃ v, copy V P.param.data t = some v ∧ v.Same (u.map (V.cast P.param.data.dtype)) :=
  ⟨_, if_pos (h.shape.trans hshape).symm, h.map _⟩

/-- A shard that is filled as its type asks is the expected one. -/
theorem filled_same (hpad : PadsOrNarrows V E) (rank : ℕ) {p : Prop} [Decidable p]
    (hp : p → w.dtype = .float32)
    (hnot : ¬ p → w.dtype = .float32 → ∀ j < P.shard, rank * P.shard + j < w.size P.dim) :
    ((if p then (E.padOrNarrow w P.dim (rank * P.shard) P.shard).fillFrom P.dim
        (w.size P.dim - rank * P.shard) V.one
      else (E.padOrNarrow w P.dim (rank * P.shard) P.shard).toTensor) : Tensor α).Same
      (w.window P.dim (rank * P.shard) P.shard (padFill V w.dtype)) := by
  have hsame := hpad.same w P.dim (rank * P.shard) P.shard P.dim_lt
  by_cases h : p
  · rw [if_pos h, padFill_float32 (hp h)]
    exact fillFrom_window hsame V.one
  · rw [if_neg h]
    by_cases hd : w.dtype = .float32
    · exact hsame.trans (window_of_fits P.dim_lt (hnot h hd) _ _)
    · rw [padFill_of_ne hd]
      exact hsame

/-- **The vLLM-style loader is right on every rank.** -/
theorem loadColumn_right (hpad : PadsOrNarrows V E) : P.Right V (P.loadColumn V E) := by
  intro rank _
  unfold Shards.loadColumn loadColumnParallelWeight
  rw [if_neg Bool.false_ne_true, P.outputDim]
  dsimp only [Option.bind_some]
  rw [size_param]
  have hclamp : ∀ a b : ℕ, (max 0 ((a : ℤ) - b)).toNat = a - b := fun a b => by omega
  have hreal := hclamp (w.size P.dim) (rank * P.shard)
  have hdtype := hpad.dtype w P.dim (rank * P.shard) P.shard
  have hsize : (E.padOrNarrow w P.dim (rank * P.shard) P.shard).size P.dim = P.shard := by
    have hshape := (hpad.same w P.dim (rank * P.shard) P.shard P.dim_lt).shape
    unfold Tensor.size
    rw [hshape]
    exact (getD_set _ _ _ _ P.dim_lt).trans (if_pos rfl)
  by_cases hpast : w.size P.dim < rank * P.shard + P.shard ∨ w.size P.dim ≤ rank * P.shard
  · rw [if_pos hpast, hreal, hdtype, hsize, Option.bind_some]
    have hsame := filled_same (P := P) hpad rank
      (p := w.dtype = .float32 ∧ w.size P.dim - rank * P.shard < P.shard) And.left
      fun hn hd j hj => by
        have hge := not_lt.mp fun hlt => hn ⟨hd, hlt⟩
        exact Nat.add_comm _ j ▸ Nat.add_lt_of_lt_sub (hj.trans_le hge)
    rw [if_neg (not_not.mpr (P.shape.trans hsame.shape.symm))]
    exact copy_same hsame P.shape.symm
  · rw [if_neg hpast]
    have hfit : rank * P.shard + P.shard ≤ w.size P.dim := not_lt.mp fun h => hpast (Or.inl h)
    obtain ⟨u, hu, hsame⟩ := narrow_eq_window P.dim_lt hfit (padFill V w.dtype)
    rw [hu, Option.bind_some, if_neg (not_not.mpr (P.shape.trans hsame.shape.symm))]
    exact copy_same hsame P.shape.symm

/-- The condition: no block scale has a rank whose shard starts past its end. -/
def Shards.StartsInside (P : Shards w) : Prop :=
  w.dtype = .float32 → ∀ rank < P.tp, rank * P.shard ≤ w.size P.dim ∨ 0 ∈ P.param.data.shape

/-- What `column_weight_loader` does with a shard that goes past the end. -/
theorem loadLinear_past (hpad : PadsOrNarrows V E) {rank : ℕ}
    (hpast : w.size P.dim < rank * P.shard + P.shard) :
    P.loadLinear V E rank = copy V P.param.data
      (if w.dtype = .float32 ∧ rank * P.shard ≤ w.size P.dim then
        (E.padOrNarrow w P.dim (rank * P.shard) P.shard).fillFrom P.dim
          (w.size P.dim - rank * P.shard) V.one
      else (E.padOrNarrow w P.dim (rank * P.shard) P.shard).toTensor) := by
  have hshape := (hpad.same w P.dim (rank * P.shard) P.shard P.dim_lt).shape
  have hreal : ∀ a b c : ℕ, a < b + c →
      ((0 : ℤ) ≤ (a : ℤ) - b ∧ (a : ℤ) - b < c ↔ b ≤ a) := fun a b c h => by omega
  have htoNat : ∀ a b : ℕ, ((a : ℤ) - b).toNat = a - b := fun a b => by omega
  unfold Shards.loadLinear columnWeightLoader
  rw [P.outputDim, P.notBnb]
  dsimp only
  rw [size_param, Bool.or_self, if_neg Bool.false_ne_true, if_pos hpast, hpad.dtype, htoNat,
    if_congr (and_congr_right fun _ => hreal _ _ _ hpast) rfl rfl]
  by_cases h : w.dtype = .float32 ∧ rank * P.shard ≤ w.size P.dim
  · rw [if_pos h, if_pos h]
    exact if_pos (P.shape.trans hshape.symm)
  · rw [if_neg h, if_neg h]
    exact if_pos (P.shape.trans hshape.symm)

/-- **`column_weight_loader` is right on a rank whose shard does not start past the end**, and
on every rank for a tensor that is no block scale. -/
theorem loadLinear_right_of (hpad : PadsOrNarrows V E) (hlin : NarrowsInside V E) {rank : ℕ}
    (h : w.dtype = .float32 → rank * P.shard ≤ w.size P.dim ∨ 0 ∈ P.param.data.shape) :
    ∃ t, P.loadLinear V E rank = some t ∧ t.Same (P.expected V rank) := by
  by_cases hpast : w.size P.dim < rank * P.shard + P.shard
  · rw [loadLinear_past hpad hpast]
    by_cases hempty : 0 ∈ P.param.data.shape
    · -- a tensor without elements is what it should be by its shape
      have hsame := hpad.same w P.dim (rank * P.shard) P.shard P.dim_lt
      have hshape : ((if w.dtype = .float32 ∧ rank * P.shard ≤ w.size P.dim then
          (E.padOrNarrow w P.dim (rank * P.shard) P.shard).fillFrom P.dim
            (w.size P.dim - rank * P.shard) V.one
        else (E.padOrNarrow w P.dim (rank * P.shard) P.shard).toTensor) : Tensor α).shape =
          P.param.data.shape := by
        rw [P.shape]
        split <;> exact hsame.shape
      refine ⟨_, if_pos hshape.symm, same_of_mem (hshape.symm ▸ hempty) ?_⟩
      exact hshape.trans P.shape
    · refine copy_same (filled_same (P := P) hpad rank And.left fun hn hd => ?_) P.shape.symm
      exact absurd ⟨hd, (h hd).resolve_right hempty⟩ hn
  · have hfit : rank * P.shard + P.shard ≤ w.size P.dim := not_lt.mp hpast
    obtain ⟨u, hu, hsame⟩ := narrow_eq_window P.dim_lt hfit (padFill V w.dtype)
    have horig := hlin ⟨rank, false⟩ P.param w P.dim P.outputDim P.notBnb rfl
      (by rw [size_param, Nat.succ_mul]; exact hfit)
    unfold Shards.loadLinear columnWeightLoader
    rw [P.outputDim, P.notBnb]
    dsimp only
    rw [size_param, Bool.or_self, if_neg Bool.false_ne_true, if_neg hpast, horig, size_param, hu]
    exact copy_same hsame P.shape.symm

/-- **A block scale's shard that starts past the end is left at 0.** -/
theorem loadLinear_zero (hpad : PadsOrNarrows V E) {rank : ℕ} (hd : w.dtype = .float32)
    (hstart : w.size P.dim < rank * P.shard) (hempty : 0 ∉ P.param.data.shape) {t : Tensor α}
    (h : P.loadLinear V E rank = some t) : ¬ t.Same (P.expected V rank) := by
  rw [loadLinear_past hpad (hstart.trans_le (Nat.le_add_right _ _)),
    if_neg fun hn => absurd hn.2 (not_le.mpr hstart)] at h
  have hsame := hpad.same w P.dim (rank * P.shard) P.shard P.dim_lt
  obtain ⟨v, hv, hv'⟩ := copy_same (V := V) hsame P.shape.symm
  obtain rfl := Option.some.inj (h.symm.trans hv)
  intro hexp
  have hi : RowMajor.InBounds (w.shape.set P.dim P.shard) ((w.shape.set P.dim P.shard).map fun _ => 0) :=
    inBounds_zero (P.shape ▸ hempty)
  have hzero : ¬ rank * P.shard + ((w.shape.set P.dim P.shard).map fun _ => 0).getD P.dim 0 <
      w.size P.dim := not_lt.mpr (hstart.le.trans (Nat.le_add_right _ _))
  have heq := (hexp.symm.trans hv').elem _ hi
  change V.cast _ (if _ then _ else _) = V.cast _ (if _ then _ else _) at heq
  rw [if_neg hzero, if_neg hzero, padFill_float32 hd] at heq
  exact V.zero_ne_one _ heq.symm

theorem concatenates_of_right {load : ℕ → Option (Tensor α)} (h : P.Right V load) :
    P.Concatenates V load := by
  have : Nonempty (Tensor α) := ⟨⟨[], fun _ => V.zero⟩⟩
  choose! shards hload hsame using h
  refine ⟨shards, hload, ?_⟩
  unfold Shards.expected at hsame
  unfold Shards.whole
  simp only [map_window] at hsame ⊢
  exact cat_window (t := w.map (V.cast P.param.data.dtype)) P.dim_lt hsame

/-- **When the column loaders load what they are to load.** With the engine's functions doing
what the loaders rely on: both loaders give every rank its slice, with 0 past the end of a
weight and 1.0 past the end of a block scale, agree on every rank, and give shards that make
up the checkpoint tensor followed by padding, exactly if the tensor is no block scale, or no
rank's shard starts past its end. -/
theorem column_loaders_iff (V : Values α) (E : Engine α) (w : Weight α) (P : Shards w)
    (hpad : PadsOrNarrows V E) (hlin : NarrowsInside V E) :
    (P.Right V (P.loadColumn V E) ∧ P.Right V (P.loadLinear V E) ∧
      P.Agree (P.loadColumn V E) (P.loadLinear V E) ∧
      P.Concatenates V (P.loadColumn V E) ∧ P.Concatenates V (P.loadLinear V E)) ↔
      P.StartsInside := by
  have hcol := loadColumn_right (P := P) hpad
  constructor
  · rintro ⟨-, hright, -⟩ hd rank hrank
    by_contra hn
    obtain ⟨hstart, hempty⟩ := not_or.mp hn
    obtain ⟨t, ht, hsame⟩ := hright rank hrank
    exact loadLinear_zero hpad hd (not_le.mp hstart) hempty ht hsame
  · intro hstarts
    have hright : P.Right V (P.loadLinear V E) := fun rank hrank =>
      loadLinear_right_of hpad hlin fun hd => hstarts hd rank hrank
    refine ⟨hcol, hright, fun rank hrank => ?_, concatenates_of_right hcol,
      concatenates_of_right hright⟩
    obtain ⟨t, ht, hsame⟩ := hcol rank hrank
    obtain ⟨t', ht', hsame'⟩ := hright rank hrank
    exact ⟨t, t', ht, ht', hsame.trans hsame'.symm⟩

/-! ## A rank past the end -/

/-- An engine that does what the loaders rely on, over integers. -/
def sliceEngine : Engine ℤ where
  padOrNarrow w dim start len := { w with toTensor := w.window dim start len 0 }
  origCol _ _ _ _ := none
  origLin self param w := param.outputDim.bind fun dim =>
    (w.narrow dim (self.tpRank * param.data.size dim) (param.data.size dim)).bind
      (copy ⟨0, 1, fun _ => id, fun _ => by decide⟩ param.data)

def intValues : Values ℤ := ⟨0, 1, fun _ => id, fun _ => by decide⟩

theorem sliceEngine_pads : PadsOrNarrows intValues sliceEngine :=
  ⟨fun _ _ _ _ => rfl, fun _ _ _ _ _ => Tensor.Same.refl _⟩

theorem sliceEngine_narrows : NarrowsInside intValues sliceEngine := by
  intro self param w dim hdim _ _ _
  unfold sliceEngine
  dsimp only
  rw [hdim, Option.bind_some]
  rfl

/-- The block scales of 8 output groups, on 6 ranks of 2 groups. -/
def groupScales : Weight ℤ := ⟨⟨[8], fun i => 2 ^ (i.getD 0 0)⟩, .float32⟩

def groupShards (d : DType) : Shards ({ groupScales with dtype := d } : Weight ℤ) where
  dim := 0
  dim_lt := Nat.one_pos
  shard := 2
  tp := 6
  param := ⟨⟨⟨[2], fun _ => 0⟩, d⟩, some 0, false⟩
  outputDim := rfl
  shape := rfl
  notBnb := rfl

/-- The shards of a weight of that shape are right. -/
theorem column_loaders_iff_small :
    (groupShards .bfloat16).Right intValues ((groupShards .bfloat16).loadLinear intValues sliceEngine) :=
  ((column_loaders_iff intValues sliceEngine _ (groupShards .bfloat16) sliceEngine_pads
    sliceEngine_narrows).mpr fun h => by cases h).2.1

/-- **The last rank's block scales are 0**: 8 groups on 6 ranks of 2, where rank 5 starts at 10. -/
theorem last_rank_scales_zero :
    PadsOrNarrows intValues sliceEngine ∧ NarrowsInside intValues sliceEngine ∧
      (∃ t, (groupShards .float32).loadLinear intValues sliceEngine 5 = some t ∧ t.elem [0] = 0) ∧
      (∃ t, (groupShards .float32).loadColumn intValues sliceEngine 5 = some t ∧ t.elem [0] = 1) ∧
      ¬ (groupShards .float32).Right intValues
        ((groupShards .float32).loadLinear intValues sliceEngine) := by
  refine ⟨sliceEngine_pads, sliceEngine_narrows, ⟨_, rfl, rfl⟩, ⟨_, rfl, rfl⟩, fun hright => ?_⟩
  obtain ⟨t, ht, hsame⟩ := hright 5 (by decide)
  exact loadLinear_zero sliceEngine_pads rfl (by decide) (by decide) ht hsame

end TpPad
