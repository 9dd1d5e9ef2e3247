import Mathlib.Algebra.BigOperators.Ring.Finset
import Mathlib.Algebra.Module.Defs
import Mathlib.Tactic.Linarith
import SparkTP4.EpRemap

/-!
# The remap keeps the local slots and adds no expert

The kernel's masked minima are the reference's, its ids wrap around only where they are not
local, and its stores reach every slot: the outputs are the reference's. From the reference the
rest follows – a slot that is not local contributes nothing, and names an expert that a local
slot of the batch names.
-/

namespace EpRemap

open MaskedTile StridedMatrix

variable {V F : Type} {S : Shard} {x : Inputs V F}

/-- A slot of a local expert. -/
def Local (S : Shard) (x : Inputs V F) (r c : ℕ) : Prop :=
  S.offset ≤ x.topkIds.elem r c ∧ x.topkIds.elem r c < S.offset + S.numLocal

instance (S : Shard) (x : Inputs V F) (r c : ℕ) : Decidable (Local S x r c) :=
  inferInstanceAs (Decidable (_ ∧ _))

/-- Every id of the batch is a 32-bit value. -/
def IdsFit (x : Inputs V F) : Prop :=
  ∀ r < x.topkIds.rows, ∀ c < x.topkIds.cols, IsInt32 (x.topkIds.elem r c)

/-! ## The kernel's values -/

theorem wrap32_of_isInt32 {x : ℤ} (h : IsInt32 x) : wrap32 x = x := by
  obtain ⟨hlo, hhi⟩ := h
  exact Int.bmod_eq_of_le (by norm_num; exact hlo) (by norm_num; exact hhi)

/-- An id below the rank's experts wraps around past them at most. -/
theorem wrap32_sub (S : Shard) {id : ℤ} (h : IsInt32 id) :
    wrap32 (id - S.offset) = id - S.offset ∨
      (id < S.offset ∧ S.numLocal ≤ wrap32 (id - S.offset)) := by
  obtain ⟨hlo, hhi⟩ := h
  have h0 := S.offset_nonneg
  have hend := S.end_lt
  have hpos := S.numLocal_pos
  by_cases hfit : -2 ^ 31 ≤ id - S.offset
  · exact Or.inl (wrap32_of_isInt32 ⟨hfit, by linarith⟩)
  · refine Or.inr ⟨by linarith, ?_⟩
    have hwrap : wrap32 (id - S.offset) = id - S.offset + 2 ^ 32 := by
      have hmod : wrap32 (id - S.offset) = wrap32 (id - S.offset + 2 ^ 32) := by
        unfold wrap32
        exact (Int.add_bmod_right _ (2 ^ 32)).symm
      rw [hmod]
      exact wrap32_of_isInt32 ⟨by linarith, by linarith⟩
    rw [hwrap]
    linarith

theorem refOk_iff {r c : ℕ} : refOk S x r c = true ↔ Local S x r c := by
  unfold refOk refLid Local
  rw [Bool.and_eq_true_iff, decide_eq_true_iff, decide_eq_true_iff, sub_nonneg, sub_lt_iff_lt_add']

section lane

variable {r c : ℕ} (hr : r < x.topkIds.rows) (hc : c < x.topkIds.cols)
include hr hc

theorem mask_of_lt : mask x r c = true :=
  Bool.and_eq_true_iff.mpr ⟨decide_eq_true hr, decide_eq_true hc⟩

theorem laneLid_eq (hfit : IdsFit x) :
    laneLid S x r c = wrap32 (x.topkIds.elem r c - S.offset) := by
  unfold laneLid
  rw [mask_of_lt hr hc, if_pos rfl, wrap32_of_isInt32 (hfit r hr c hc)]

theorem laneOk_eq (hfit : IdsFit x) : laneOk S x r c = refOk S x r c := by
  unfold laneOk refOk refLid
  rw [mask_of_lt hr hc, laneLid_eq hr hc hfit, Bool.true_and]
  rcases wrap32_sub S (hfit r hr c hc) with heq | ⟨hlt, hge⟩
  · rw [heq]
  · rw [decide_eq_false (not_lt.mpr hge), Bool.and_false,
      decide_eq_false (not_le.mpr (sub_neg.mpr hlt)), Bool.false_and]

theorem laneLid_of_ok (hfit : IdsFit x) (hok : refOk S x r c = true) :
    laneLid S x r c = refLid S x r c := by
  rw [laneLid_eq hr hc hfit]
  refine (wrap32_sub S (hfit r hr c hc)).resolve_right fun h => ?_
  exact absurd (refOk_iff.mp hok).1 (not_le.mpr h.1)

theorem laneMin_eq (hfit : IdsFit x) : laneMin S x r c = refMin S x r c := by
  unfold laneMin refMin
  rw [laneOk_eq hr hc hfit]
  by_cases hok : refOk S x r c = true
  · rw [if_pos hok, if_pos hok, laneLid_of_ok hr hc hfit hok]
  · rw [if_neg hok, if_neg hok]

end lane

/-- A lane that is masked off does not count. -/
theorem laneMin_of_not_mask {r c : ℕ} (h : ¬ (r < x.topkIds.rows ∧ c < x.topkIds.cols)) :
    laneMin S x r c = big := by
  have hmask : mask x r c = false := by
    rw [mask, ← Bool.decide_and]
    exact decide_eq_false h
  unfold laneMin laneOk
  rw [hmask]
  rfl

theorem best_eq (hfit : IdsFit x) : best S x = refBest S x :=
  blocksMin_eq (by decide) (le_nextPowerOf2 _) (fun _ hr _ hc => laneMin_eq hr hc hfit)
    fun _ _ => laneMin_of_not_mask

theorem rowMin_eq (hfit : IdsFit x) {r : ℕ} (hr : r < x.topkIds.rows) :
    rowMin S x r = refRowMin S x r := by
  refine eq_of_forall_le_iff fun y => ?_
  unfold rowMin refRowMin
  simp only [le_minOf, List.forall_mem_map, List.mem_range]
  refine and_congr_right fun hbig => ⟨fun h c hc => ?_, fun h c _ => ?_⟩
  · rw [← laneMin_eq hr hc hfit]
    exact h c (hc.trans_le (le_nextPowerOf2 _))
  · by_cases hc : c < x.topkIds.cols
    · rw [laneMin_eq hr hc hfit]
      exact h c hc
    · rw [laneMin_of_not_mask fun hmask => hc hmask.2]
      exact hbig

theorem fill_eq (hfit : IdsFit x) {r : ℕ} (hr : r < x.topkIds.rows) :
    fill S x r = refFill S x r := by
  unfold fill refFill fb refFb
  rw [rowMin_eq hfit hr, best_eq hfit]

/-! ## The reference's values -/

/-- A minimum over slots is no local slot's, or one's. -/
theorem refMin_cases (r c : ℕ) : refMin S x r c = big ∨
    (Local S x r c ∧ refMin S x r c = x.topkIds.elem r c - S.offset) := by
  unfold refMin
  by_cases hok : refOk S x r c = true
  · rw [if_pos hok]
    exact Or.inr ⟨refOk_iff.mp hok, rfl⟩
  · rw [if_neg hok]
    exact Or.inl rfl

theorem numLocal_le_big (S : Shard) : S.numLocal ≤ big := by
  have h0 := S.offset_nonneg
  have hend := S.end_lt
  unfold big
  linarith

theorem Local.range {r c : ℕ} (h : Local S x r c) : 0 ≤ x.topkIds.elem r c - S.offset ∧
    x.topkIds.elem r c - S.offset < S.numLocal :=
  ⟨sub_nonneg.mpr h.1, sub_lt_iff_lt_add'.mpr h.2⟩

theorem refMin_of_local {r c : ℕ} (h : Local S x r c) :
    refMin S x r c = x.topkIds.elem r c - S.offset := if_pos (refOk_iff.mpr h)

/-- A row's minimum below `num_local` is one of its local experts. -/
theorem exists_of_refRowMin_lt {r : ℕ} (h : refRowMin S x r < S.numLocal) :
    ∃ c < x.topkIds.cols, Local S x r c ∧ refRowMin S x r = x.topkIds.elem r c - S.offset := by
  have hne : refRowMin S x r ≠ big := (h.trans_le (numLocal_le_big S)).ne
  obtain ⟨c, hc, heq⟩ := List.mem_map.mp ((minOf_mem _).resolve_left hne)
  have hmin := (refMin_cases r c).resolve_left fun hbig => hne (heq.symm.trans hbig)
  exact ⟨c, List.mem_range.mp hc, hmin.1, heq.symm.trans hmin.2⟩

/-- The batch's minimum below `num_local` is one of its local experts. -/
theorem exists_of_refBest_lt (h : refBest S x < S.numLocal) :
    ∃ r < x.topkIds.rows, ∃ c < x.topkIds.cols,
      Local S x r c ∧ refBest S x = x.topkIds.elem r c - S.offset := by
  have hne : refBest S x ≠ big := (h.trans_le (numLocal_le_big S)).ne
  obtain ⟨r, hr, heq⟩ := List.mem_map.mp ((minOf_mem _).resolve_left hne)
  have hrow : refRowMin S x r < S.numLocal := heq.trans_lt h
  obtain ⟨c, hc, hlocal, hmin⟩ := exists_of_refRowMin_lt hrow
  exact ⟨r, List.mem_range.mp hr, c, hc, hlocal, heq.symm.trans hmin⟩

/-- The batch's minimum, where the batch has a local slot. -/
theorem refBest_lt {r c : ℕ} (hr : r < x.topkIds.rows) (hc : c < x.topkIds.cols)
    (h : Local S x r c) : refBest S x < S.numLocal := by
  calc refBest S x ≤ refMin S x r c := (le_tileMin.mp le_rfl).2 r hr c hc
    _ = x.topkIds.elem r c - S.offset := refMin_of_local h
    _ < S.numLocal := h.range.2

/-- **A fill is 0, or an expert of a local slot**; where there is a local slot, it is one. -/
theorem refFill_cases {r : ℕ} (hr : r < x.topkIds.rows) :
    (∃ q < x.topkIds.rows, ∃ c < x.topkIds.cols,
      Local S x q c ∧ refFill S x r = x.topkIds.elem q c - S.offset) ∨
    (refFill S x r = 0 ∧ ∀ q < x.topkIds.rows, ∀ c < x.topkIds.cols, ¬ Local S x q c) := by
  unfold refFill
  by_cases hrow : refRowMin S x r < S.numLocal
  · rw [if_pos hrow]
    obtain ⟨c, hc, hlocal, heq⟩ := exists_of_refRowMin_lt hrow
    exact Or.inl ⟨r, hr, c, hc, hlocal, heq⟩
  · rw [if_neg hrow]
    unfold refFb
    by_cases hbest : refBest S x < S.numLocal
    · rw [if_pos hbest]
      exact Or.inl (exists_of_refBest_lt hbest)
    · rw [if_neg hbest]
      exact Or.inr ⟨rfl, fun q hq c hc h => hbest (refBest_lt hq hc h)⟩

theorem refFill_range {r : ℕ} (hr : r < x.topkIds.rows) :
    0 ≤ refFill S x r ∧ refFill S x r < S.numLocal := by
  rcases refFill_cases hr with ⟨q, -, c, -, hlocal, heq⟩ | ⟨heq, -⟩
  · rw [heq]
    exact hlocal.range
  · rw [heq]
    exact ⟨le_rfl, S.numLocal_pos⟩

theorem isInt32_of_range {y : ℤ} (h : 0 ≤ y ∧ y < S.numLocal) : IsInt32 y := by
  have h0 := S.offset_nonneg
  have hend := S.end_lt
  exact ⟨by linarith [h.1], by linarith [h.2]⟩

theorem refId_of_local {r c : ℕ} (h : Local S x r c) :
    refId S x r c = x.topkIds.elem r c - S.offset := by
  unfold refId
  rw [if_pos (refOk_iff.mpr h)]
  exact wrap32_of_isInt32 (isInt32_of_range h.range)

theorem refId_of_not_local {r c : ℕ} (hr : r < x.topkIds.rows) (h : ¬ Local S x r c) :
    refId S x r c = refFill S x r := by
  unfold refId
  rw [if_neg fun hok => h (refOk_iff.mp hok)]
  exact wrap32_of_isInt32 (isInt32_of_range (refFill_range hr))

theorem refWeight_of_local [Zero F] {r c : ℕ} (h : Local S x r c) :
    refWeight S x r c = x.toFloat32 (x.topkWeights.elem r c) := if_pos (refOk_iff.mpr h)

theorem refWeight_of_not_local [Zero F] {r c : ℕ} (h : ¬ Local S x r c) :
    refWeight S x r c = 0 := if_neg fun hok => h (refOk_iff.mp hok)

/-! ## The outputs -/

theorem outId_eq (hfit : IdsFit x) {r c : ℕ} (hr : r < x.topkIds.rows)
    (hc : c < x.topkIds.cols) : outId S x r c = refId S x r c := by
  unfold outId
  rw [laneOk_eq hr hc hfit]
  by_cases hlocal : Local S x r c
  · rw [if_pos (refOk_iff.mpr hlocal), laneLid_of_ok hr hc hfit (refOk_iff.mpr hlocal),
      refId_of_local hlocal]
    rfl
  · rw [if_neg fun hok => hlocal (refOk_iff.mp hok), fill_eq hfit hr, refId_of_not_local hr hlocal]

theorem outWeight_eq [Zero F] (hfit : IdsFit x) {r c : ℕ} (hr : r < x.topkIds.rows)
    (hc : c < x.topkIds.cols) : outWeight S x r c = refWeight S x r c := by
  unfold outWeight refWeight
  rw [laneOk_eq hr hc hfit]

/-- An element of a contiguous output. -/
theorem elem_blocksStore {P : Type} {t : View P} {m k cols : ℕ} {v : ℕ → ℕ → P}
    (ht : t.isContiguous = true) (hrows : m ≤ t.rows) (hcols : t.cols = k) (hk : k ≤ cols)
    {r c : ℕ} (hr : r < m) (hc : c < k) :
    View.elem { t with data := blocksStore br cols m k v t.data } r c = v r c := by
  show blocksStore br cols m k v t.data (r * t.rowStride + c * t.colStride) = v r c
  rw [t.addr_of_contiguous ht (hr.trans_le hrows) (hcols ▸ hc), hcols]
  exact blocksStore_apply (by decide) hk t.data hr hc

/-- **The outputs of `ep_remap` are those of the reference.** -/
theorem elem_epRemap [Zero F] {outIds : View ℤ} {outW : View F} {out : View ℤ × View F}
    (hfit : IdsFit x) (hcols : outIds.cols = x.topkIds.cols ∧ outW.cols = x.topkIds.cols)
    (h : epRemap S x outIds outW = some out) {r c : ℕ} (hr : r < x.topkIds.rows)
    (hc : c < x.topkIds.cols) :
    out.1.elem r c = refId S x r c ∧ out.2.elem r c = refWeight S x r c := by
  unfold epRemap at h
  rw [if_neg (Nat.ne_zero_of_lt hr)] at h
  obtain ⟨⟨-, -, hci, hcw, hri, hrw⟩, hout⟩ := Option.ite_none_right_eq_some.mp h
  obtain rfl := Option.some.inj hout
  refine ⟨?_, ?_⟩
  · rw [← outId_eq hfit hr hc]
    exact elem_blocksStore hci hri hcols.1 (le_nextPowerOf2 _) hr hc
  · rw [← outWeight_eq hfit hr hc]
    exact elem_blocksStore hcw hrw hcols.2 (le_nextPowerOf2 _) hr hc

/-! ## What the batch reads -/

/-- **Only the local slots contribute**, `val` being the value of a weight. -/
theorem sum_eq {R X : Type} [Zero F] [Semiring R] [AddCommMonoid X] [Module R X] {val : F → R}
    (hval : val 0 = 0) (f : ℤ → X) (r : ℕ) :
    ∑ c ∈ Finset.range x.topkIds.cols, val (refWeight S x r c) • f (refId S x r c) =
      ∑ c ∈ Finset.range x.topkIds.cols with Local S x r c,
        val (x.toFloat32 (x.topkWeights.elem r c)) • f (x.topkIds.elem r c - S.offset) := by
  rw [Finset.sum_filter]
  refine Finset.sum_congr rfl fun c _ => ?_
  by_cases hlocal : Local S x r c
  · rw [if_pos hlocal, refWeight_of_local hlocal, refId_of_local hlocal]
  · rw [if_neg hlocal, refWeight_of_not_local hlocal, hval, zero_smul]

/-- **The experts read are those the local slots name**, where there is a local slot. -/
theorem read_iff (h : ∃ r < x.topkIds.rows, ∃ c < x.topkIds.cols, Local S x r c) (e : ℤ) :
    (∃ r < x.topkIds.rows, ∃ c < x.topkIds.cols, refId S x r c = e) ↔
      ∃ r < x.topkIds.rows, ∃ c < x.topkIds.cols,
        Local S x r c ∧ x.topkIds.elem r c - S.offset = e := by
  constructor
  · rintro ⟨r, hr, c, hc, rfl⟩
    by_cases hlocal : Local S x r c
    · exact ⟨r, hr, c, hc, hlocal, (refId_of_local hlocal).symm⟩
    · rw [refId_of_not_local hr hlocal]
      obtain ⟨q, hq, c', hc', hlocal', heq⟩ := (refFill_cases hr).resolve_right fun hnone => by
        obtain ⟨q, hq, c', hc', hlocal'⟩ := h
        exact hnone.2 q hq c' hc' hlocal'
      exact ⟨q, hq, c', hc', hlocal', heq.symm⟩
  · rintro ⟨r, hr, c, hc, hlocal, rfl⟩
    exact ⟨r, hr, c, hc, refId_of_local hlocal⟩

/-- A batch of three rows of two slots: ids 17 and 3, another rank's, and padding. -/
def smallInputs : Inputs ℤ ℤ where
  topkIds := ⟨3, 2, 2, 1, fun a => if a = 0 then 17 else if a = 1 then 3 else if a = 2 then 5 else -1⟩
  topkWeights := ⟨3, 2, 1, 3, fun a => 10 + a⟩
  toFloat32 := id

end EpRemap
