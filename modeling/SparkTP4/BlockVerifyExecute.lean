import Mathlib.Data.Real.Basic
import SparkTP4.BlockVerify
import SparkTP4.BlockVerifyFoldExact

/-!
# A call of the sampled acceptance

`execute` (`adapter/block_verify.py`) replaces the engine's rejection sampler. It takes the
candidates of a verify step – the anchor and the drafts of every request – and the rows of the target
and of the draft, draws a uniform number for every draft and an exponential one for every token, and
decides with tensor operations or with the fold kernels, as the mode says.

The second part computes a call in exact arithmetic: whatever the mode, a row of the batch is decided
by the tests and the residual of its own block (`IsRow`).
-/

namespace BlockVerifyFold

/-! ## The call -/

/-- What `_fold_mode` returns for a call: `none`, `"on"` or `"check"`. -/
inductive FoldMode
  | torch
  | on
  | check
  deriving DecidableEq

/-- The arguments of `execute`, with the target's rows after temperature, top-k and top-p:
`candidates` has `gamma + 1` columns, the anchor first. -/
structure Call (K : Type) where
  bs : ℕ
  gamma : ℕ
  V : ℕ
  candidates : ℕ → ℕ
  targetProbs : ℕ → ℕ → ℕ → K
  draftProbs : ℕ → ℕ → ℕ → K
  cutoffVerifyLens : Option (ℕ → ℤ)

section execute

variable {K : Type} (c : Call K) (eta gumbel : ℕ → ℕ → K)

/-- `verify_num_draft_tokens` -/
def Call.stride : ℕ := c.gamma + 1

/-- The drafts of a call, `candidates.view(bs, stride)[:, 1:gamma + 1]`, with its rows and draws. -/
def Call.batch : Batch K where
  bs := c.bs
  g := c.gamma
  V := c.V
  X p := c.candidates (1 + p)
  sxb := c.stride
  sxg := 1
  targetProbs := c.targetProbs
  draftProbs := c.draftProbs
  eta := eta
  gumbel := gumbel

/-- The live lengths that the tensor operations are given. -/
def Call.live : Option (ℕ → ℤ) := c.cutoffVerifyLens.map fun cut b => cut b - 1

variable (A : Arith K) (D : Device K) (R : Reductions K c.bs c.gamma c.V) (CHUNK : ℕ)

/-- `_folded`, whose check returns what the tensor operations decide. -/
def folded (check : Bool) : (ℕ → ℕ) × (ℕ → ℕ) :=
  let got := fold A D (c.batch eta gumbel) R CHUNK c.cutoffVerifyLens 1
  if check then blockAcceptProbs A (c.batch eta gumbel) R c.live else got

/-- `execute`: the accepted lengths, the correction tokens and a column of zeros. -/
def execute (mode : FoldMode) : (ℕ → ℕ) × (ℕ → ℕ) × (ℕ → ℕ) :=
  let out := match mode with
    | .torch => blockAcceptProbs A (c.batch eta gumbel) R c.live
    | .on => folded c eta gumbel A D R CHUNK false
    | .check => folded c eta gumbel A D R CHUNK true
  (out.1, out.2, fun _ => 0)

variable {c eta gumbel A D R CHUNK}

/-- **The mode does not matter**: each decides what the tensor operations do. -/
theorem execute_eq (hA : A.Lawful) (hvalid : (c.batch eta gumbel).Valid) (hchunk : 0 < CHUNK)
    (mode : FoldMode) {b : ℕ} (hb : b < c.bs) :
    (execute c eta gumbel A D R CHUNK mode).1 b = tau A (c.batch eta gumbel) R c.live b ∧
      (execute c eta gumbel A D R CHUNK mode).2.1 = corr A (c.batch eta gumbel) R c.live := by
  cases mode with
  | torch => exact ⟨rfl, rfl⟩
  | check => exact ⟨rfl, rfl⟩
  | on =>
    refine ⟨foldTau_eq hA hvalid hchunk hb, congrArg R.argmax ?_⟩
    funext b x
    exact foldKeys_eq hA hvalid hchunk b.isLt x.isLt

end execute

/-! ## Exact arithmetic -/

/-- The operations on reals. -/
noncomputable def realArith : Arith ℝ where
  add := (· + ·)
  sub := (· - ·)
  mul := (· * ·)
  div := (· / ·)
  minimum := min
  maximum := max
  zero := 0
  one := 1
  tiny := 1e-30
  two := ((2 : ℕ) : ℝ)
  le x y := decide (x ≤ y)
  gt x y := decide (y < x)

theorem lawful_realArith : realArith.Lawful := ⟨add_zero, zero_add, zero_mul⟩

/-- The place of a largest entry; nothing is said about ties. -/
structure Argmax (V : ℕ) where
  pick : (Fin V → ℝ) → Fin V
  le_pick : ∀ (keys : Fin V → ℝ) (x : Fin V), keys x ≤ keys (pick keys)

/-- Sums over the vocabulary, and a largest key of every row. -/
noncomputable def realReductions (bs g : ℕ) {V : ℕ} (m : Argmax V) : Reductions ℝ bs g V where
  sumTerms t b i := if h : b < bs ∧ i < g - 1 then ∑ x, t ⟨b, h.1⟩ ⟨i, h.2⟩ x else 0
  sumRes t b := if h : b < bs then ∑ x, t ⟨b, h⟩ x else 0
  argmax t b := if h : b < bs then m.pick (t ⟨b, h⟩) else 0

/-- **A row of the batch is a request's block.** -/
structure IsRow (a : Batch ℝ) (live : Option (ℕ → ℤ)) (b : ℕ) {g : ℕ}
    (blk : BlockVerify.Block ℝ (Fin a.V) g) : Prop where
  g_eq : a.g = g
  row_lt : b < a.bs
  token : ∀ i < g, a.token b i = blk.X i
  target : ∀ i ≤ g, ∀ x : Fin a.V, a.targetProbs b i x = blk.targetProbs i x
  draft : ∀ i < g, ∀ x : Fin a.V, a.draftProbs b i x = blk.draftProbs i x
  alive : ∀ i < g, alive live b i = blk.alive i

theorem le_foldr_max {l : List ℕ} {k : ℕ} (hk : k ∈ l) : k ≤ l.foldr max 0 := by
  induction l with
  | nil => exact absurd hk List.not_mem_nil
  | cons n l ih =>
    obtain rfl | hk := List.mem_cons.mp hk
    · exact Nat.le_max_left _ _
    · exact (ih hk).trans (Nat.le_max_right _ _)

namespace IsRow

variable {a : Batch ℝ} {live : Option (ℕ → ℤ)} {b g i t : ℕ} {blk : BlockVerify.Block ℝ (Fin a.V) g}
  {m : Argmax a.V}

theorem ratio_eq (h : IsRow a live b blk) (hi : i < g) :
    ratio realArith a live b i = blk.ratio 1e-30 i := by
  have halive := h.alive i hi
  have hquot : realArith.div (a.targetProbs b i (a.token b i))
      (realArith.maximum (a.draftProbs b i (a.token b i)) realArith.tiny) =
      blk.targetProbs i (blk.X i) / max (blk.draftProbs i (blk.X i)) 1e-30 := by
    rw [h.token i hi, h.target i hi.le, h.draft i hi]
    rfl
  unfold ratio BlockVerify.Block.ratio
  rw [hquot, ← halive]
  cases live with
  | none => rfl
  | some l => rfl

theorem w_eq (h : IsRow a live b blk) : ∀ i ≤ g, w realArith a live b i = blk.w 1e-30 i := by
  intro i hi
  induction i with
  | zero => rfl
  | succ i ih =>
    have hw := ih (Nat.le_of_succ_le hi)
    show min (w realArith a live b i * ratio realArith a live b i) 1 = _
    rw [hw, h.ratio_eq hi]
    rfl

theorem maskedDraft_eq (h : IsRow a live b blk) (hi : i < g) (x : Fin a.V) :
    maskedDraft realArith a live b i x = blk.maskedDraft i x := by
  have halive := h.alive i hi
  have hdraft := h.draft i hi x
  unfold maskedDraft BlockVerify.Block.maskedDraft
  rw [← halive, ← hdraft]
  cases live with
  | none => rfl
  | some l =>
    show a.draftProbs b i x * (if BlockVerifyFold.alive (some l) b i then (1 : ℝ) else 0) = _
    rw [mul_ite, mul_one, mul_zero]

theorem s_eq (h : IsRow a live b blk) (hi : i + 1 < g) :
    s realArith a (realReductions a.bs a.g m) live b i = blk.s 1e-30 (i + 1) := by
  have hlt : b < a.bs ∧ i < a.g - 1 := ⟨h.row_lt, by rw [h.g_eq]; omega⟩
  show (if h : b < a.bs ∧ i < a.g - 1 then _ else 0) = _
  rw [dif_pos hlt]
  refine Finset.sum_congr rfl fun x _ => ?_
  show max (w realArith a live b (i + 1) * a.targetProbs b (i + 1) x -
    maskedDraft realArith a live b (i + 1) x) 0 = _
  rw [h.w_eq _ hi.le, h.target _ hi.le, h.maskedDraft_eq hi]

theorem h_eq (h : IsRow a live b blk) (hi : i < g) :
    BlockVerifyFold.h realArith a (realReductions a.bs a.g m) live b i = blk.h 1e-30 i := by
  unfold BlockVerifyFold.h BlockVerify.Block.h
  by_cases hlast : i + 1 < g
  · rw [if_pos hlast, if_neg (by rw [h.g_eq]; omega), h.s_eq hlast, h.w_eq _ hi]
    rfl
  · obtain rfl : g = i + 1 := by omega
    rw [if_neg hlast, if_pos (by rw [h.g_eq]; rfl), h.w_eq _ le_rfl]

/-- **The accepted length** of a row is its block's. -/
theorem tau_eq (h : IsRow a live b blk) :
    tau realArith a (realReductions a.bs a.g m) live b = blk.tau 1e-30 fun j => a.eta b j := by
  have hok (j : Fin g) : ok realArith a (realReductions a.bs a.g m) live b j = true ↔
      a.eta b j ≤ blk.h 1e-30 j ∧ blk.alive j := by
    unfold ok
    rw [Bool.and_eq_true, h.h_eq j.isLt, h.alive j j.isLt]
    exact and_congr_left' decide_eq_true_iff
  unfold tau BlockVerify.Block.tau
  refine le_antisymm (foldr_max_le fun k hk => ?_) (Finset.sup_le fun j _ => ?_)
  · obtain ⟨j, hj, rfl⟩ := List.mem_map.mp hk
    have hj : j < g := (List.mem_range.mp hj).trans_eq h.g_eq
    refine le_trans ?_ (Finset.le_sup (f := fun j : Fin g =>
      if a.eta b j ≤ blk.h 1e-30 j ∧ blk.alive j then (j : ℕ) + 1 else 0)
      (Finset.mem_univ (⟨j, hj⟩ : Fin g)))
    exact le_of_eq (if_congr (hok ⟨j, hj⟩) rfl rfl)
  · rw [← if_congr (hok j) rfl rfl]
    exact le_foldr_max (List.mem_map.mpr
      ⟨j, List.mem_range.mpr (j.isLt.trans_eq h.g_eq.symm), rfl⟩)

theorem qPad_eq (h : IsRow a live b blk) (t : ℕ) (x : Fin a.V) :
    qPad realArith a live b t x = blk.qPad t x := by
  unfold qPad BlockVerify.Block.qPad
  rw [h.g_eq]
  by_cases ht : t < g
  · rw [if_pos ht, if_pos ht, h.maskedDraft_eq ht]
  · rw [if_neg ht, if_neg ht]
    rfl

theorem res_eq (h : IsRow a live b blk) (ht : tau realArith a (realReductions a.bs a.g m) live b = t)
    (hle : t ≤ g) (x : Fin a.V) :
    res realArith a (realReductions a.bs a.g m) live b x = blk.rawRes 1e-30 t x := by
  unfold res
  rw [ht]
  show max (w realArith a live b t * a.targetProbs b t x - qPad realArith a live b t x) 0 = _
  rw [h.w_eq t hle, h.target t hle, h.qPad_eq]
  rfl

/-- **The keys** of a row are those of the residual at its accepted length. -/
theorem keys_eq (h : IsRow a live b blk)
    (ht : tau realArith a (realReductions a.bs a.g m) live b = t) (hle : t ≤ g) (x : Fin a.V) :
    keys realArith a (realReductions a.bs a.g m) live b x =
      blk.res 1e-30 t x / a.gumbel b x := by
  have hmass : mass realArith a (realReductions a.bs a.g m) live b = blk.mass 1e-30 t := by
    show (if h : b < a.bs then _ else 0) = _
    rw [dif_pos h.row_lt]
    exact Finset.sum_congr rfl fun x _ => h.res_eq ht hle x
  unfold keys BlockVerify.Block.res
  rw [hmass, ht, h.res_eq ht hle, h.target t hle]
  by_cases hpos : 0 < blk.mass 1e-30 t
  · rw [if_pos hpos, if_pos (show realArith.gt _ realArith.zero = true from decide_eq_true hpos)]
    rfl
  · have hgt : ¬realArith.gt (blk.mass 1e-30 t) realArith.zero = true := fun hgt =>
      hpos (of_decide_eq_true hgt)
    rw [if_neg hpos, if_neg hgt]
    rfl

/-- **The correction token** of a row has a largest key. -/
theorem corr_eq (h : IsRow a live b blk) :
    corr realArith a (realReductions a.bs a.g m) live b =
      m.pick fun x => keys realArith a (realReductions a.bs a.g m) live b x := by
  show (if h : b < a.bs then _ else 0) = _
  rw [dif_pos h.row_lt]

end IsRow

end BlockVerifyFold
