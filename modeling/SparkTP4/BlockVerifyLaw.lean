import Mathlib.MeasureTheory.Constructions.Pi
import Mathlib.MeasureTheory.Constructions.UnitInterval
import Mathlib.Tactic.FieldSimp
import SparkTP4.BlockVerify
import SparkTP4.SequentialSampling

/-!
# Block verification is lossless

The accepted prefix of the draft followed by the correction token, continued
by the target, has the target's law. The tests of a block are correlated
through the survival weight, and the accepted length is the largest passing
position, so the argument runs backwards through the block: among the drafts
that continue a prefix `x`, no later test passes with probability
`1 - weight x + stay x` (`expect_tail`), hence the length stops at `x` with
probability `stay x`, which is the mass of the residual the correction token
is drawn from. Summed along a sequence, the stopping masses telescope
(`weight_split`).

The live cut is a stopping rule: whether position `i + 1` is verified is a
function of the first `i` drafts. A dead position has ratio zero and a zero
draft row, and the same identities hold there.
-/

open MeasureTheory SequentialSampling

namespace BlockVerify

variable {V : Type} [Fintype V] [DecidableEq V] [Inhabited V]

/-- The block of a drafted sequence: row `i` of the target and of the draft is
the conditional after the first `i` drafts. -/
def drafted (p q : List V → V → ℝ) (g : ℕ) (live : Option (List V → ℕ)) (X : List V) :
    Block ℝ V g where
  X := fun i => X.getD i default
  targetProbs := fun i => p (X.take i)
  draftProbs := fun i => q (X.take i)
  live := live.map (fun l => l X)

/-- The floors guard nothing but 0/0: on a drafted block no denominator that
is positive is below the floor. -/
structure FloorInert (p q : List V → V → ℝ) (g : ℕ) (live : Option (List V → ℕ)) (floor : ℝ) :
    Prop where
  nonneg : 0 ≤ floor
  ratio : ∀ X, X.length = g → 0 < pathProb q [] X → ∀ i < g,
    floor ≤ q (X.take i) (X.getD i default)
  threshold : ∀ X, X.length = g → 0 < pathProb q [] X → ∀ i < g,
    0 < (drafted p q g live X).s floor i + (1 - (drafted p q g live X).w floor i) →
      floor ≤ (drafted p q g live X).s floor i + (1 - (drafted p q g live X).w floor i)
  mass : ∀ X, X.length = g → 0 < pathProb q [] X → ∀ t ≤ g,
    0 < (drafted p q g live X).mass floor t → floor ≤ (drafted p q g live X).mass floor t

/-- **The setting**: target and draft conditionals, a block of `g` drafts, and
a live cut – if there is one – that is a stopping rule: whether position
`i + 1` is verified depends on the first `i` drafts alone. -/
structure Scheme (V : Type) [Fintype V] [Inhabited V] where
  p : List V → V → ℝ
  q : List V → V → ℝ
  g : ℕ
  live : Option (List V → ℕ)
  floor : ℝ
  /-- Whether the draft after a prefix is verified. -/
  verified : List V → Bool
  target : IsConditional p
  draft : IsConditional q
  stopping : ∀ X, X.length = g → ∀ i < g, (drafted p q g live X).alive i = verified (X.take i)
  inert : FloorInert p q g live floor

namespace Scheme

variable (S : Scheme V)

/-- The block the code sees when `X` was drafted. -/
def block (X : List V) : Block ℝ V S.g := drafted S.p S.q S.g S.live X

/-- The probability that the accepted length is `t`, for uniform `eta`. -/
noncomputable def tauProb (X : List V) (t : ℕ) : ℝ :=
  volume.real {eta : Fin S.g → unitInterval |
    (S.block X).tau S.floor (fun j => (eta j : ℝ)) = t}

/-- The law of the output: the probability that the accepted prefix, followed
by the correction token and then by the target, starts with `y`. -/
noncomputable def outputLaw (y : List V) : ℝ :=
  expect S.q S.g [] fun X => ∑ t ∈ Finset.range (S.g + 1), S.tauProb X t *
    ∑ c, (S.block X).res S.floor t c *
      (if X.take t ++ [c] = y.take (t + 1) then pathProb S.p (y.take (t + 1)) (y.drop (t + 1))
        else 0)

/-- The law of the target process. -/
def targetLaw (y : List V) : ℝ := pathProb S.p [] y

/-! ## Quantities of a prefix -/

/-- The ratio of the draft `v` after `x`. -/
noncomputable def ratioAt (x : List V) (v : V) : ℝ :=
  if S.verified x then S.p x v / max (S.q x v) S.floor else 0

/-- The survival weight of a reversed prefix. -/
noncomputable def weightRev : List V → ℝ
  | [] => 1
  | v :: r => min (weightRev r * S.ratioAt r.reverse v) 1

/-- The survival weight of a prefix. -/
noncomputable def weight (x : List V) : ℝ := S.weightRev x.reverse

/-- The draft row after `x`, zero where the draft is not verified. -/
def maskedAt (x : List V) (v : V) : ℝ := if S.verified x then S.q x v else 0

/-- The mass by which the weighted target row after `x` exceeds the draft's. -/
noncomputable def excess (x : List V) : ℝ :=
  ∑ v, max (S.weight x * S.p x v - S.maskedAt x v) 0

/-- The mass that stops at `x`. -/
noncomputable def stay (x : List V) : ℝ := if x.length < S.g then S.excess x else S.weight x

/-- The probability that the test at the end of `x` passes. -/
noncomputable def accept (x : List V) : ℝ :=
  if S.verified x.dropLast then
    if x.length < S.g then S.excess x / max (S.excess x + (1 - S.weight x)) S.floor
    else S.weight x
  else 0

omit [DecidableEq V] in
theorem weight_nil : S.weight [] = 1 := rfl

omit [DecidableEq V] in
/-- The weight's recursion, along the prefix. -/
theorem weight_append (x : List V) (v : V) :
    S.weight (x ++ [v]) = min (S.weight x * S.ratioAt x v) 1 := by
  rw [weight, List.reverse_append, List.reverse_singleton, List.singleton_append, weightRev,
    List.reverse_reverse, weight]

omit [DecidableEq V] in
/-- Weights saturate at one. -/
theorem weight_le_one (x : List V) : S.weight x ≤ 1 := by
  induction x using List.reverseRecOn with
  | nil => exact le_rfl
  | append_singleton x v ih =>
    rw [weight_append]
    exact min_le_right _ _

omit [DecidableEq V] in
/-- Weights are not negative. -/
theorem weight_nonneg (x : List V) : 0 ≤ S.weight x := by
  induction x using List.reverseRecOn with
  | nil => exact zero_le_one
  | append_singleton x v ih =>
    rw [weight_append]
    refine le_min (mul_nonneg ih ?_) zero_le_one
    rw [ratioAt]
    split_ifs
    · exact div_nonneg (S.target.nonneg x v) (le_max_of_le_left (S.draft.nonneg x v))
    · exact le_rfl

omit [DecidableEq V] in
/-- A masked draft row is not negative. -/
theorem maskedAt_nonneg (x : List V) (v : V) : 0 ≤ S.maskedAt x v := by
  rw [maskedAt]
  split_ifs
  · exact S.draft.nonneg x v
  · exact le_rfl

omit [DecidableEq V] in
/-- An excess is not negative. -/
theorem excess_nonneg (x : List V) : 0 ≤ S.excess x :=
  Finset.sum_nonneg fun _ _ => le_max_right _ _

omit [DecidableEq V] in
/-- Where the weight is zero nothing exceeds. -/
theorem excess_eq_zero {x : List V} (hx : S.weight x = 0) : S.excess x = 0 := by
  refine Finset.sum_eq_zero fun v _ => max_eq_right ?_
  rw [hx, zero_mul, zero_sub, neg_nonpos]
  exact S.maskedAt_nonneg x v

omit [DecidableEq V] in
/-- After a draft that is not verified the weight is zero. -/
theorem weight_eq_zero {x : List V} {v : V} (hx : S.verified x = false) :
    S.weight (x ++ [v]) = 0 := by
  rw [weight_append, ratioAt, hx, if_neg Bool.false_ne_true, mul_zero]
  exact min_eq_left zero_le_one

/-! ## The code's rows are the prefix's -/

variable {S} {X x : List V}

omit [Fintype V] [DecidableEq V] in
/-- A prefix one token longer. -/
theorem take_succ_eq {i : ℕ} (hi : i < X.length) :
    X.take (i + 1) = X.take i ++ [X.getD i default] := by
  rw [List.take_add_one, List.getD_eq_getElem?_getD, List.getElem?_eq_getElem hi]
  rfl

omit [DecidableEq V] in
/-- The code's weights are the weights of the prefixes. -/
theorem w_eq (hX : X.length = S.g) {i : ℕ} (hi : i ≤ S.g) :
    (S.block X).w S.floor i = S.weight (X.take i) := by
  induction i with
  | zero => rfl
  | succ i ih =>
    rw [Block.w, ih (by omega), take_succ_eq (by omega), weight_append, ratioAt,
      ← S.stopping X hX i (by omega)]
    rfl

omit [DecidableEq V] in
/-- The code's masked draft rows are those of the prefixes. -/
theorem maskedDraft_eq (hX : X.length = S.g) {i : ℕ} (hi : i < S.g) (v : V) :
    (S.block X).maskedDraft i v = S.maskedAt (X.take i) v := by
  rw [maskedAt, ← S.stopping X hX i hi]
  rfl

omit [DecidableEq V] in
/-- The code's `s` is the excess of the prefix. -/
theorem s_eq (hX : X.length = S.g) {i : ℕ} (hi : i < S.g) :
    (S.block X).s S.floor i = S.excess (X.take i) := by
  refine Finset.sum_congr rfl fun v _ => ?_
  rw [w_eq hX hi.le, maskedDraft_eq hX hi]
  rfl

omit [DecidableEq V] in
/-- The residual of a row before the last. -/
theorem rawRes_eq (hX : X.length = S.g) {t : ℕ} (ht : t ≤ S.g) (v : V) :
    (S.block X).rawRes S.floor t v
      = max (S.weight (X.take t) * S.p (X.take t) v
          - if t < S.g then S.maskedAt (X.take t) v else 0) 0 := by
  rw [Block.rawRes, Block.qPad, w_eq hX ht]
  by_cases hlt : t < S.g
  · rw [if_pos hlt, if_pos hlt, maskedDraft_eq hX hlt]
    rfl
  · rw [if_neg hlt, if_neg hlt]
    rfl

omit [DecidableEq V] in
/-- The mass of a residual is the mass that stops at its prefix. -/
theorem mass_eq (hX : X.length = S.g) {t : ℕ} (ht : t ≤ S.g) :
    (S.block X).mass S.floor t = S.stay (X.take t) := by
  have hlen : (X.take t).length = t := by rw [List.length_take]; omega
  rw [Block.mass, stay, hlen]
  simp only [rawRes_eq hX ht]
  split_ifs with hlt
  · rfl
  · -- the last row has no draft to subtract
    simp only [sub_zero]
    rw [Finset.sum_congr rfl fun v _ =>
      max_eq_left (mul_nonneg (S.weight_nonneg _) (S.target.nonneg _ v)), ← Finset.mul_sum,
      S.target.sum_one, mul_one]

/-! ## Along the drafted prefixes -/

omit [DecidableEq V] in
/-- A drafted prefix is the beginning of a drafted block. -/
theorem exists_block (hx : x.length ≤ S.g) (hpos : 0 < pathProb S.q [] x) :
    ∃ X, X.length = S.g ∧ 0 < pathProb S.q [] X ∧ X.take x.length = x := by
  obtain ⟨z, hz, hzpos⟩ := S.draft.exists_path (S.g - x.length) x
  refine ⟨x ++ z, by rw [List.length_append, hz]; omega, ?_, List.take_left⟩
  rw [pathProb_append]
  exact mul_pos hpos hzpos

omit [DecidableEq V] in
/-- The floor of a ratio is inert on a drafted token. -/
theorem floor_le_draft (hx : x.length < S.g) (hpos : 0 < pathProb S.q [] x) {v : V}
    (hv : 0 < S.q x v) : S.floor ≤ S.q x v := by
  have hxv : 0 < pathProb S.q [] (x ++ [v]) := by
    rw [pathProb_append_singleton]
    exact mul_pos hpos hv
  obtain ⟨X, hX, hXpos, htake⟩ := exists_block
    (by rw [List.length_append, List.length_singleton]; omega) hxv
  have hfloor := S.inert.ratio X hX hXpos x.length hx
  rw [List.length_append, List.length_singleton, List.take_add_one] at htake
  obtain ⟨hinit, htoken⟩ := List.append_inj htake (by rw [List.length_take]; omega)
  rw [hinit, List.getD_eq_getElem?_getD] at hfloor
  rw [List.getElem?_eq_getElem (by omega), Option.toList_some, List.singleton_inj] at htoken
  rwa [List.getElem?_eq_getElem (by omega), htoken] at hfloor

omit [DecidableEq V] in
/-- What the draft `v` after `x` survives with is what the weighted target and
the draft have in common. -/
theorem draft_mul_weight (hx : x.length < S.g) (hpos : 0 < pathProb S.q [] x) (v : V) :
    S.q x v * S.weight (x ++ [v])
      = S.weight x * S.p x v - max (S.weight x * S.p x v - S.maskedAt x v) 0 := by
  have hmass : 0 ≤ S.weight x * S.p x v := mul_nonneg (S.weight_nonneg x) (S.target.nonneg x v)
  rw [maskedAt]
  by_cases hverified : S.verified x
  · rw [if_pos hverified]
    rcases (S.draft.nonneg x v).eq_or_lt with hzero | hv
    · rw [← hzero, zero_mul, sub_zero, max_eq_left hmass, sub_self]
    · rw [weight_append, ratioAt, if_pos hverified, max_eq_left (floor_le_draft hx hpos hv),
        mul_min_of_nonneg _ _ hv.le, mul_one, mul_left_comm, mul_div_cancel₀ _ hv.ne',
        max_def, min_def]
      split_ifs <;> linarith
  · rw [if_neg hverified, sub_zero, max_eq_left hmass, sub_self,
      S.weight_eq_zero (Bool.not_eq_true _ ▸ hverified), mul_zero]

omit [DecidableEq V] in
/-- What the drafts after `x` survive with is the weight less the excess. -/
theorem sum_draft_mul_weight (hx : x.length < S.g) (hpos : 0 < pathProb S.q [] x) :
    ∑ v, S.q x v * S.weight (x ++ [v]) = S.weight x - S.excess x := by
  simp only [draft_mul_weight hx hpos]
  rw [Finset.sum_sub_distrib, ← Finset.mul_sum, S.target.sum_one, mul_one, excess]

omit [DecidableEq V] in
/-- The denominator of a threshold is not negative. -/
theorem stay_add_nonneg (x : List V) : 0 ≤ S.stay x + (1 - S.weight x) := by
  have hone := S.weight_le_one x
  rw [stay]
  split_ifs
  · linarith [S.excess_nonneg x]
  · linarith

omit [DecidableEq V] in
/-- The test at the end of a drafted prefix passes, against no later test
passing, with the mass that stops there. -/
theorem accept_mul (hpos : 0 < pathProb S.q [] x) {v : V}
    (hv : 0 < S.q x v) :
    S.accept (x ++ [v]) * (1 - S.weight (x ++ [v]) + S.stay (x ++ [v])) = S.stay (x ++ [v]) := by
  have hlen : (x ++ [v]).length = x.length + 1 := by
    rw [List.length_append, List.length_singleton]
  rw [accept, stay, List.dropLast_concat, hlen]
  by_cases hverified : S.verified x
  · rw [if_pos hverified]
    split_ifs with hlast
    · -- the floor of the threshold's denominator is inert
      have hxv : 0 < pathProb S.q [] (x ++ [v]) := by
        rw [pathProb_append_singleton]
        exact mul_pos hpos hv
      obtain ⟨X, hX, hXpos, htake⟩ := exists_block (by rw [hlen]; omega) hxv
      have hfloor : 0 < (S.block X).s S.floor (x.length + 1)
            + (1 - (S.block X).w S.floor (x.length + 1)) →
          S.floor ≤ (S.block X).s S.floor (x.length + 1)
            + (1 - (S.block X).w S.floor (x.length + 1)) :=
        S.inert.threshold X hX hXpos (x.length + 1) hlast
      rw [s_eq hX hlast, w_eq hX hlast.le, ← hlen, htake] at hfloor
      have hstay := stay_add_nonneg (S := S) (x ++ [v])
      rw [stay, hlen, if_pos hlast] at hstay
      rcases hstay.eq_or_lt with hzero | hden
      · have hexcess : S.excess (x ++ [v]) = 0 := by
          linarith [S.excess_nonneg (x ++ [v]), S.weight_le_one (x ++ [v])]
        rw [hexcess, zero_div, zero_mul]
      · rw [max_eq_left (hfloor hden), show 1 - S.weight (x ++ [v]) + S.excess (x ++ [v])
          = S.excess (x ++ [v]) + (1 - S.weight (x ++ [v])) by ring, div_mul_cancel₀ _ hden.ne']
    · ring
  · have hzero := S.weight_eq_zero (v := v) (Bool.not_eq_true _ ▸ hverified)
    rw [if_neg hverified, zero_mul]
    split_ifs
    · exact (S.excess_eq_zero hzero).symm
    · exact hzero.symm

omit [DecidableEq V] in
/-- A test passes with a probability. -/
theorem accept_mem (x : List V) : 0 ≤ S.accept x ∧ S.accept x ≤ 1 := by
  have hone := S.weight_le_one x
  have hexcess := S.excess_nonneg x
  rw [accept]
  split_ifs
  · have hden : S.excess x ≤ max (S.excess x + (1 - S.weight x)) S.floor :=
      le_max_of_le_left (by linarith)
    exact ⟨div_nonneg hexcess (hexcess.trans hden),
      div_le_one_of_le₀ hden (hexcess.trans hden)⟩
  · exact ⟨S.weight_nonneg x, hone⟩
  · exact ⟨le_rfl, zero_le_one⟩

/-! ## The accepted length -/

/-- No test after position `t` passes. -/
noncomputable def nonePast (S : Scheme V) (X : List V) (t : ℕ) : ℝ :=
  ∏ j ∈ Finset.Ico t S.g, (1 - S.accept (X.take (j + 1)))

omit [DecidableEq V] in
/-- The set of `eta` whose test at `j` fails. -/
theorem volume_fails (hX : X.length = S.g) (j : Fin S.g) :
    volume {e : unitInterval | ¬ ((e : ℝ) ≤ (S.block X).h S.floor j ∧ (S.block X).alive j)}
      = ENNReal.ofReal (1 - S.accept (X.take (j + 1))) := by
  have hlen : (X.take (j + 1)).length = j + 1 := by rw [List.length_take]; omega
  have hh : (S.block X).alive j → (S.block X).h S.floor j = S.accept (X.take (j + 1)) := by
    intro halive
    have hverified : S.verified (X.take (j + 1)).dropLast = true := by
      rw [take_succ_eq (by omega), List.dropLast_concat, ← S.stopping X hX j j.isLt]
      exact halive
    rw [accept, if_pos hverified, hlen, Block.h]
    by_cases hlast : (j : ℕ) + 1 < S.g
    · rw [if_pos hlast, if_pos hlast, s_eq hX hlast, w_eq hX hlast.le]
    · have hg : (j : ℕ) + 1 = S.g := by omega
      rw [if_neg hlast, if_neg hlast, w_eq hX le_rfl, hg]
  by_cases halive : (S.block X).alive j = true
  · have hset : {e : unitInterval | ¬ ((e : ℝ) ≤ (S.block X).h S.floor j ∧ (S.block X).alive j)}
        = Set.Ioi ⟨S.accept (X.take (j + 1)), accept_mem _⟩ := by
      ext e
      rw [Set.mem_ofPred_eq, hh halive, Set.mem_Ioi, ← Subtype.coe_lt_coe]
      simp [halive]
    rw [hset, unitInterval.volume_Ioi]
  · have hset : {e : unitInterval | ¬ ((e : ℝ) ≤ (S.block X).h S.floor j ∧ (S.block X).alive j)}
        = Set.univ := by
      ext e
      simp [halive]
    have hzero : S.accept (X.take (j + 1)) = 0 := by
      rw [accept, if_neg]
      rw [take_succ_eq (by omega), List.dropLast_concat, ← S.stopping X hX j j.isLt]
      exact halive
    rw [hset, measure_univ, hzero, sub_zero, ENNReal.ofReal_one]

omit [DecidableEq V] in
/-- The accepted length is at most `t` when no test past it passes. -/
theorem tau_le_iff {X : List V} {t : ℕ} {eta : Fin S.g → ℝ} :
    (S.block X).tau S.floor eta ≤ t ↔ ∀ j : Fin S.g, t ≤ j →
      ¬ (eta j ≤ (S.block X).h S.floor j ∧ (S.block X).alive j) := by
  rw [Block.tau, Finset.sup_le_iff]
  refine ⟨fun h j hj htest => ?_, fun h j _ => ?_⟩
  · have hle := h j (Finset.mem_univ _)
    rw [if_pos htest] at hle
    omega
  · split_ifs with htest
    · by_contra hlt
      exact h j (by omega) htest
    · exact Nat.zero_le t

omit [DecidableEq V] in
/-- The `eta` with accepted length at most `t` form a box. -/
theorem setOf_tau_le (X : List V) (t : ℕ) :
    {eta : Fin S.g → unitInterval | (S.block X).tau S.floor (fun j => (eta j : ℝ)) ≤ t}
      = Set.pi Set.univ fun j : Fin S.g => if t ≤ (j : ℕ) then
          {e : unitInterval | ¬ ((e : ℝ) ≤ (S.block X).h S.floor j ∧ (S.block X).alive j)}
        else Set.univ := by
  ext eta
  rw [Set.mem_ofPred_eq, tau_le_iff, Set.mem_univ_pi]
  refine forall_congr' fun j => ?_
  split_ifs with hj
  · exact ⟨fun h => h hj, fun h _ => h⟩
  · exact ⟨fun _ => Set.mem_univ _, fun _ h => absurd h hj⟩

omit [DecidableEq V] in
/-- The box is measurable. -/
theorem measurableSet_tau_le (X : List V) (t : ℕ) :
    MeasurableSet {eta : Fin S.g → unitInterval |
      (S.block X).tau S.floor (fun j => (eta j : ℝ)) ≤ t} := by
  rw [setOf_tau_le]
  refine MeasurableSet.univ_pi fun j => ?_
  split_ifs
  · by_cases halive : (S.block X).alive j = true
    · simp only [halive, and_true, not_le]
      exact measurableSet_lt measurable_const measurable_subtype_coe
    · simp only [halive, Bool.false_eq_true, and_false, not_false_eq_true]
      exact MeasurableSet.univ
  · exact MeasurableSet.univ

omit [DecidableEq V] in
/-- The probability that the accepted length is at most `t`. -/
theorem prob_tau_le {X : List V} (hX : X.length = S.g) (t : ℕ) :
    volume.real {eta : Fin S.g → unitInterval |
      (S.block X).tau S.floor (fun j => (eta j : ℝ)) ≤ t} = S.nonePast X t := by
  have hfactor : ∀ j : Fin S.g, (volume (if t ≤ (j : ℕ) then
      {e : unitInterval | ¬ ((e : ℝ) ≤ (S.block X).h S.floor j ∧ (S.block X).alive j)}
        else Set.univ)).toReal = if t ≤ (j : ℕ) then 1 - S.accept (X.take (j + 1)) else 1 := by
    intro j
    split_ifs
    · rw [volume_fails hX, ENNReal.toReal_ofReal]
      linarith [(accept_mem (S := S) (X.take (j + 1))).2]
    · rw [measure_univ, ENNReal.toReal_one]
  rw [setOf_tau_le, Measure.real, volume_pi_pi, ENNReal.toReal_prod]
  simp only [hfactor]
  rw [Fin.prod_univ_eq_prod_range (fun j => if t ≤ j then 1 - S.accept (X.take (j + 1)) else 1) S.g,
    ← Finset.prod_filter, nonePast]
  refine Finset.prod_congr ?_ fun _ _ => rfl
  ext j
  rw [Finset.mem_filter, Finset.mem_range, Finset.mem_Ico]
  exact and_comm

omit [DecidableEq V] in
/-- The accepted length is 0 when no test passes. -/
theorem tauProb_zero {X : List V} (hX : X.length = S.g) : S.tauProb X 0 = S.nonePast X 0 := by
  rw [← prob_tau_le hX, tauProb]
  simp only [Nat.le_zero]

omit [DecidableEq V] in
/-- The accepted length is `t + 1` when its test passes and no later one. -/
theorem tauProb_succ {X : List V} (hX : X.length = S.g) {t : ℕ} (ht : t < S.g) :
    S.tauProb X (t + 1) = S.accept (X.take (t + 1)) * S.nonePast X (t + 1) := by
  have hset : {eta : Fin S.g → unitInterval |
        (S.block X).tau S.floor (fun j => (eta j : ℝ)) = t + 1}
      = {eta | (S.block X).tau S.floor (fun j => (eta j : ℝ)) ≤ t + 1}
        \ {eta | (S.block X).tau S.floor (fun j => (eta j : ℝ)) ≤ t} := by
    ext eta
    rw [Set.mem_sdiff, Set.mem_ofPred_eq, Set.mem_ofPred_eq, Set.mem_ofPred_eq]
    omega
  have hsubset : {eta : Fin S.g → unitInterval |
        (S.block X).tau S.floor (fun j => (eta j : ℝ)) ≤ t}
      ⊆ {eta | (S.block X).tau S.floor (fun j => (eta j : ℝ)) ≤ t + 1} :=
    fun _ h => Nat.le_succ_of_le h
  rw [tauProb, hset, measureReal_sdiff hsubset (measurableSet_tau_le X t), prob_tau_le hX,
    prob_tau_le hX, nonePast, nonePast, Finset.prod_eq_prod_Ico_succ_bot ht]
  ring

/-! ## Expectations over the rest of the draft -/

omit [DecidableEq V] in
/-- The tests from a prefix on, at the blocks that continue it by `v`. -/
theorem nonePast_append (hx : x.length < S.g) (v : V) (z : List V) :
    S.nonePast (x ++ [v] ++ z) x.length
      = (1 - S.accept (x ++ [v])) * S.nonePast (x ++ [v] ++ z) (x.length + 1) := by
  have htake : (x ++ [v] ++ z).take (x.length + 1) = x ++ [v] := by
    have hlen : (x ++ [v]).length = x.length + 1 := by
      rw [List.length_append, List.length_singleton]
    rw [← hlen, List.take_left]
  rw [nonePast, nonePast, Finset.prod_eq_prod_Ico_succ_bot hx, htake]

omit [DecidableEq V] in
/-- **No later test passes** with probability `1 - weight x + stay x`, over
the drafts that continue a drafted prefix `x` – by induction on the number of
drafts still to come. -/
theorem expect_nonePast {n : ℕ} (hn : x.length + n = S.g) (hpos : 0 < pathProb S.q [] x) :
    expect S.q n x (fun X => S.nonePast X x.length) = 1 - S.weight x + S.stay x := by
  induction n generalizing x with
  | zero =>
    have hg : ¬ x.length < S.g := by omega
    rw [expect, nonePast, Finset.Ico_eq_empty (by omega), Finset.prod_empty, stay, if_neg hg]
    ring
  | succ n ih =>
    have hx : x.length < S.g := by omega
    have hstep : ∀ v, S.q x v * expect S.q n (x ++ [v]) (fun X => S.nonePast X x.length)
        = S.q x v * (1 - S.weight (x ++ [v])) := by
      intro v
      rcases (S.draft.nonneg x v).eq_or_lt with hzero | hv
      · rw [← hzero, zero_mul, zero_mul]
      · have hlen : (x ++ [v]).length = x.length + 1 := by
          rw [List.length_append, List.length_singleton]
        have hxv : 0 < pathProb S.q [] (x ++ [v]) := by
          rw [pathProb_append_singleton]
          exact mul_pos hpos hv
        have htail := ih (by rw [hlen]; omega) hxv
        rw [hlen] at htail
        have hfactor : expect S.q n (x ++ [v]) (fun X => S.nonePast X x.length)
            = expect S.q n (x ++ [v])
              (fun X => (1 - S.accept (x ++ [v])) * S.nonePast X (x.length + 1)) :=
          expect_congr fun z _ => nonePast_append hx v z
        rw [hfactor, expect_mul_left, htail]
        linear_combination (- S.q x v) * accept_mul hpos hv
    rw [expect, Finset.sum_congr rfl fun v _ => hstep v]
    simp only [mul_sub, mul_one]
    rw [Finset.sum_sub_distrib, S.draft.sum_one, sum_draft_mul_weight hx hpos, stay, if_pos hx]
    ring

omit [DecidableEq V] in
/-- The accepted length is that of a drafted prefix `x` with probability
`stay x`, over the drafts that continue it. -/
theorem expect_tauProb {n : ℕ} (hn : x.length + n = S.g) (hpos : 0 < pathProb S.q [] x) :
    expect S.q n x (fun X => S.tauProb X x.length) = S.stay x := by
  have hlen : ∀ z : List V, z.length = n → (x ++ z).length = S.g := fun z hz => by
    rw [List.length_append, hz, hn]
  rcases List.eq_nil_or_concat' x with rfl | ⟨y, v, rfl⟩
  · have hzero : expect S.q n [] (fun X => S.tauProb X 0)
        = expect S.q n [] (fun X => S.nonePast X 0) :=
      expect_congr fun z hz => tauProb_zero (hlen z hz)
    have hall := expect_nonePast hn hpos
    rw [List.length_nil] at hall ⊢
    rw [hzero, hall, S.weight_nil]
    ring
  · have hylen : (y ++ [v]).length = y.length + 1 := by
      rw [List.length_append, List.length_singleton]
    obtain ⟨hy, hv⟩ : 0 < pathProb S.q [] y ∧ 0 < S.q y v := by
      rw [pathProb_append_singleton] at hpos
      rcases pos_and_pos_or_neg_and_neg_of_mul_pos hpos with h | ⟨h, -⟩
      · exact h
      · exact absurd h (not_lt.mpr (S.draft.pathProb_nonneg [] y))
    have hfactor : expect S.q n (y ++ [v]) (fun X => S.tauProb X (y.length + 1))
        = expect S.q n (y ++ [v])
          (fun X => S.accept (y ++ [v]) * S.nonePast X (y.length + 1)) :=
      expect_congr fun z hz => by
        have htake : (y ++ [v] ++ z).take (y.length + 1) = y ++ [v] := by
          rw [← hylen, List.take_left]
        rw [tauProb_succ (hlen z hz) (by omega), htake]
    have hall := expect_nonePast hn hpos
    rw [hylen] at hall ⊢
    rw [hfactor, expect_mul_left, hall, accept_mul hy hv]

/-! ## The correction token -/

/-- The residual of a prefix, before it is normalised. -/
noncomputable def rawAt (S : Scheme V) (x : List V) (c : V) : ℝ :=
  max (S.weight x * S.p x c - if x.length < S.g then S.maskedAt x c else 0) 0

/-- The distribution of the correction token after a prefix. -/
noncomputable def resAt (S : Scheme V) (x : List V) (c : V) : ℝ :=
  if 0 < S.stay x then S.rawAt x c / max (S.stay x) S.floor else S.p x c

omit [DecidableEq V] in
/-- The code's residual row is that of the accepted prefix. -/
theorem res_eq {X : List V} (hX : X.length = S.g) {t : ℕ} (ht : t ≤ S.g) (c : V) :
    (S.block X).res S.floor t c = S.resAt (X.take t) c := by
  have hlen : (X.take t).length = t := by rw [List.length_take]; omega
  rw [Block.res, mass_eq hX ht, rawRes_eq hX ht, resAt, rawAt, hlen]
  rfl

omit [DecidableEq V] in
/-- Stopping at a drafted prefix and drawing `c` has the unnormalised
residual's weight. -/
theorem stay_mul_resAt (hx : x.length ≤ S.g) (hpos : 0 < pathProb S.q [] x) (c : V) :
    S.stay x * S.resAt x c = S.rawAt x c := by
  obtain ⟨X, hX, hXpos, htake⟩ := exists_block hx hpos
  have hsum : S.stay x = ∑ c, S.rawAt x c := by
    have hmass := mass_eq hX hx
    rw [htake] at hmass
    rw [← hmass, Block.mass]
    refine Finset.sum_congr rfl fun c _ => ?_
    rw [rawRes_eq hX hx, htake, rawAt]
  have hraw : ∀ c ∈ Finset.univ, 0 ≤ S.rawAt x c := fun _ _ => le_max_right _ _
  have hstay : 0 ≤ S.stay x := hsum ▸ Finset.sum_nonneg hraw
  rw [resAt]
  rcases hstay.eq_or_lt with hzero | hlt
  · rw [← hzero, zero_mul]
    rw [← hzero] at hsum
    exact ((Finset.sum_eq_zero_iff_of_nonneg hraw).mp hsum.symm c (Finset.mem_univ c)).symm
  · have hfloor : 0 < (S.block X).mass S.floor x.length →
        S.floor ≤ (S.block X).mass S.floor x.length :=
      S.inert.mass X hX hXpos x.length hx
    rw [mass_eq hX hx, htake] at hfloor
    rw [if_pos hlt, max_eq_left (hfloor hlt), mul_div_cancel₀ _ hlt.ne']

/-! ## The output -/

omit [Fintype V] [DecidableEq V] in
/-- The emitted prefix and token are the first tokens of `y`, token by token. -/
theorem append_singleton_eq_iff {X y : List V} {t : ℕ} (ht : t < y.length) (c : V) :
    X.take t ++ [c] = y.take (t + 1) ↔ X.take t = y.take t ∧ c = y.getD t default := by
  rw [take_succ_eq ht]
  refine ⟨fun h => ?_, fun h => by rw [h.1, h.2]⟩
  obtain ⟨hinit, htoken⟩ := List.append_inj' h rfl
  exact ⟨hinit, List.singleton_inj.mp htoken⟩

/-- The output starts with `y` through an accepted length `t` with the weight
of the residual of `y`'s first `t` tokens at the next one. -/
theorem expect_output {y : List V} {t : ℕ} (ht : t ≤ S.g) (hy : t < y.length) :
    expect S.q S.g [] (fun X => S.tauProb X t * ∑ c, (S.block X).res S.floor t c *
        (if X.take t ++ [c] = y.take (t + 1) then pathProb S.p (y.take (t + 1)) (y.drop (t + 1))
          else 0))
      = pathProb S.q [] (y.take t) * S.rawAt (y.take t) (y.getD t default)
          * pathProb S.p (y.take (t + 1)) (y.drop (t + 1)) := by
  have hlen : (y.take t).length = t := by rw [List.length_take]; omega
  have hterm : ∀ X : List V, X.length = S.g → S.tauProb X t * ∑ c, (S.block X).res S.floor t c *
        (if X.take t ++ [c] = y.take (t + 1) then pathProb S.p (y.take (t + 1)) (y.drop (t + 1))
          else 0)
      = if X.take (([] : List V).length + (y.take t).length) = [] ++ y.take t then
          (S.resAt (y.take t) (y.getD t default)
            * pathProb S.p (y.take (t + 1)) (y.drop (t + 1))) * S.tauProb X t
        else 0 := by
    intro X hX
    simp only [append_singleton_eq_iff hy, List.length_nil, hlen, Nat.zero_add, List.nil_append]
    by_cases hinit : X.take t = y.take t
    · rw [if_pos hinit, Finset.sum_eq_single (y.getD t default)]
      · rw [if_pos ⟨hinit, rfl⟩, res_eq hX ht, hinit, mul_comm]
      · intro c _ hc
        rw [if_neg fun h => hc h.2, mul_zero]
      · exact fun h => absurd (Finset.mem_univ _) h
    · rw [if_neg hinit, Finset.sum_eq_zero fun c _ => by rw [if_neg fun h => hinit h.1, mul_zero],
        mul_zero]
  have hcongr : expect S.q S.g [] (fun X => S.tauProb X t * ∑ c, (S.block X).res S.floor t c *
        (if X.take t ++ [c] = y.take (t + 1) then pathProb S.p (y.take (t + 1)) (y.drop (t + 1))
          else 0))
      = expect S.q S.g [] (fun X =>
        if X.take (([] : List V).length + (y.take t).length) = [] ++ y.take t then
          (S.resAt (y.take t) (y.getD t default)
            * pathProb S.p (y.take (t + 1)) (y.drop (t + 1))) * S.tauProb X t
        else 0) :=
    expect_congr fun z hz => hterm z hz
  rw [hcongr, expect_prefix _ (by rw [hlen]; exact ht), List.nil_append, hlen, expect_mul_left]
  rcases (S.draft.pathProb_nonneg [] (y.take t)).eq_or_lt with hzero | hpos
  · rw [← hzero, zero_mul, zero_mul, zero_mul]
  · have hstop := expect_tauProb (x := y.take t) (n := S.g - t) (by rw [hlen]; omega) hpos
    rw [hlen] at hstop
    rw [hstop, ← stay_mul_resAt (by rw [hlen]; exact ht) hpos]
    ring

omit [Fintype V] [DecidableEq V] in
/-- The rest of a sequence starts with its next token. -/
theorem drop_eq_cons {y : List V} {t : ℕ} (ht : t < y.length) :
    y.drop t = y.getD t default :: y.drop (t + 1) := by
  rw [List.drop_eq_getElem_cons ht, List.getD_eq_getElem?_getD, List.getElem?_eq_getElem ht]
  rfl

omit [DecidableEq V] in
/-- **The mass splits** at every token: what the draft has reached of `y` and
survived with goes on through the target's token partly as residual, partly
as the next draft's surviving mass. -/
theorem weight_split {y : List V} {t : ℕ} (ht : t < S.g) (hy : t < y.length) :
    pathProb S.q [] (y.take t) * S.weight (y.take t) * S.p (y.take t) (y.getD t default)
      = pathProb S.q [] (y.take t) * S.rawAt (y.take t) (y.getD t default)
        + pathProb S.q [] (y.take (t + 1)) * S.weight (y.take (t + 1)) := by
  have hlen : (y.take t).length = t := by rw [List.length_take]; omega
  rw [take_succ_eq hy, pathProb_append_singleton, List.nil_append]
  rcases (S.draft.pathProb_nonneg [] (y.take t)).eq_or_lt with hzero | hpos
  · rw [← hzero]
    ring
  · have hdraft := draft_mul_weight (by rw [hlen]; exact ht) hpos (y.getD t default)
    rw [rawAt, hlen, if_pos ht]
    linear_combination (- pathProb S.q [] (y.take t)) * hdraft

omit [DecidableEq V] in
/-- The target's law along `y`, with the first `t` accepted lengths split off –
by induction on `t`, splitting one token's mass at a time. -/
theorem targetLaw_split {y : List V} {t : ℕ} (ht : t ≤ S.g) (hy : t ≤ y.length) :
    S.targetLaw y = ∑ i ∈ Finset.range t, pathProb S.q [] (y.take i)
        * S.rawAt (y.take i) (y.getD i default) * pathProb S.p (y.take (i + 1)) (y.drop (i + 1))
      + pathProb S.q [] (y.take t) * S.weight (y.take t) * pathProb S.p (y.take t) (y.drop t) := by
  induction t with
  | zero =>
    rw [Finset.sum_range_zero, List.take_zero, List.drop_zero, weight_nil, pathProb, targetLaw]
    ring
  | succ t ih =>
    have hsplit := weight_split (S := S) (y := y) (t := t) (by omega) (by omega)
    rw [ih (by omega) (by omega), drop_eq_cons (by omega), pathProb, ← take_succ_eq (by omega),
      Finset.sum_range_succ]
    linear_combination (pathProb S.p (y.take (t + 1)) (y.drop (t + 1))) * hsplit

/-! ## The end of the live drafts -/

/-- The number of drafts that are verified. -/
def liveLen (S : Scheme V) (X : List V) : ℕ :=
  match S.live with
  | none => S.g
  | some l => min (l X) S.g

omit [DecidableEq V] in
/-- No draft is verified from the live length on. -/
theorem verified_liveLen {X : List V} (hX : X.length = S.g) (hlt : S.liveLen X < S.g) :
    S.verified (X.take (S.liveLen X)) = false := by
  rw [← S.stopping X hX _ hlt]
  rw [liveLen] at hlt ⊢
  cases hlive : S.live with
  | none =>
    rw [hlive] at hlt
    exact absurd hlt (lt_irrefl _)
  | some l =>
    rw [hlive] at hlt
    simp only [Block.alive, drafted, Option.map_some, Option.all_some]
    simp only at hlt ⊢
    rw [decide_eq_false_iff_not]
    omega

omit [DecidableEq V] in
/-- The mass that stops at the live length is all that survived. -/
theorem stay_liveLen {X : List V} (hX : X.length = S.g) :
    S.liveLen X ≤ S.g ∧ S.stay (X.take (S.liveLen X)) = S.weight (X.take (S.liveLen X)) ∧
      ∀ c, S.rawAt (X.take (S.liveLen X)) c
        = S.weight (X.take (S.liveLen X)) * S.p (X.take (S.liveLen X)) c := by
  have hle : S.liveLen X ≤ S.g := by
    rw [liveLen]
    cases S.live with
    | none => exact le_rfl
    | some l => exact min_le_right _ _
  have hlen : (X.take (S.liveLen X)).length = S.liveLen X := by rw [List.length_take]; omega
  have hraw : ∀ c, S.rawAt (X.take (S.liveLen X)) c
      = S.weight (X.take (S.liveLen X)) * S.p (X.take (S.liveLen X)) c := by
    intro c
    have hnonneg := mul_nonneg (S.weight_nonneg (X.take (S.liveLen X)))
      (S.target.nonneg (X.take (S.liveLen X)) c)
    rw [rawAt, hlen]
    split_ifs with hlt
    · rw [maskedAt, verified_liveLen hX hlt, if_neg Bool.false_ne_true, sub_zero,
        max_eq_left hnonneg]
    · rw [sub_zero, max_eq_left hnonneg]
  refine ⟨hle, ?_, hraw⟩
  rw [← mass_eq hX hle, Block.mass]
  simp only [rawRes_eq hX hle]
  have hsum : ∀ c, _ = _ := hraw
  simp only [rawAt, hlen] at hsum
  rw [Finset.sum_congr rfl fun c _ => hsum c, ← Finset.mul_sum, S.target.sum_one, mul_one]

omit [DecidableEq V] in
/-- The threshold at the live length is the survival weight. -/
theorem h_liveLen {X : List V} (hX : X.length = S.g) (hpos : 0 < pathProb S.q [] X) {j : ℕ}
    (hj : S.liveLen X = j + 1) :
    (S.block X).h S.floor j = (S.block X).w S.floor (j + 1) := by
  obtain ⟨hle, hstay, -⟩ := stay_liveLen hX
  rw [hj] at hle hstay
  rw [Block.h]
  split_ifs with hlast
  · have hlen : (X.take (j + 1)).length = j + 1 := by rw [List.length_take]; omega
    have hexcess : (S.block X).s S.floor (j + 1) = (S.block X).w S.floor (j + 1) := by
      rw [stay, hlen, if_pos hlast] at hstay
      rw [s_eq hX hlast, w_eq hX hle, hstay]
    have hfloor : 0 < (S.block X).s S.floor (j + 1) + (1 - (S.block X).w S.floor (j + 1)) →
        S.floor ≤ (S.block X).s S.floor (j + 1) + (1 - (S.block X).w S.floor (j + 1)) :=
      S.inert.threshold X hX hpos (j + 1) hlast
    rw [hexcess, add_sub_cancel] at hfloor ⊢
    rw [max_eq_left (hfloor zero_lt_one), div_one]
  · exact congrArg ((S.block X).w S.floor) (by omega)

omit [DecidableEq V] in
/-- The correction row at the live length is the target's. -/
theorem res_liveLen {X : List V} (hX : X.length = S.g) (hpos : 0 < pathProb S.q [] X) (c : V) :
    (S.block X).res S.floor (S.liveLen X) c = S.p (X.take (S.liveLen X)) c := by
  obtain ⟨hle, hstay, hraw⟩ := stay_liveLen hX
  rw [res_eq hX hle, resAt, hraw, hstay]
  split_ifs with hweight
  · have hfloor : 0 < (S.block X).mass S.floor (S.liveLen X) →
        S.floor ≤ (S.block X).mass S.floor (S.liveLen X) :=
      S.inert.mass X hX hpos _ hle
    rw [mass_eq hX hle, hstay] at hfloor
    rw [max_eq_left (hfloor hweight), mul_div_cancel_left₀ _ hweight.ne']
  · rfl

/-- The output law is the target's: the masses of all accepted lengths add up. -/
theorem outputLaw_eq {y : List V} (hy : S.g < y.length) : S.outputLaw y = S.targetLaw y := by
  have hlen : (y.take S.g).length = S.g := List.length_take_of_le hy.le
  have hlast : S.rawAt (y.take S.g) (y.getD S.g default)
      = S.weight (y.take S.g) * S.p (y.take S.g) (y.getD S.g default) := by
    rw [rawAt, hlen, if_neg (lt_irrefl _), sub_zero]
    exact max_eq_left (mul_nonneg (S.weight_nonneg _) (S.target.nonneg _ _))
  have hterms : ∀ t ∈ Finset.range (S.g + 1), _ := fun t ht =>
    have ht' : t ≤ S.g := Nat.lt_succ_iff.mp (Finset.mem_range.mp ht)
    expect_output ht' (lt_of_le_of_lt ht' hy)
  rw [outputLaw, expect_sum, Finset.sum_congr rfl hterms, Finset.sum_range_succ,
    targetLaw_split le_rfl hy.le, hlast, drop_eq_cons hy, pathProb, ← take_succ_eq hy]
  ring

/-- **Block verification is lossless.** With or without the live cut, the law
of the accepted prefix followed by the correction token, continued by the
target, is the law of the target process, on every sequence longer than the
block. At the live length the code's threshold is the survival weight, and
its correction row the target's. -/
theorem block_verification_lossless (S : Scheme V) :
    (∀ y, S.g < y.length → S.outputLaw y = S.targetLaw y) ∧
    ∀ X, X.length = S.g → 0 < pathProb S.q [] X →
      (∀ j, S.liveLen X = j + 1 → (S.block X).h S.floor j = (S.block X).w S.floor (j + 1)) ∧
      ∀ c, (S.block X).res S.floor (S.liveLen X) c = S.p (X.take (S.liveLen X)) c := by
  refine ⟨fun y hy => outputLaw_eq hy, fun X hX hpos => ?_⟩
  exact ⟨fun j => h_liveLen hX hpos, res_liveLen hX hpos⟩

end Scheme

/-! ## A biased coin drafted by a fair one -/

/-- **Blocks of one draft**: the floors are inert when none of the draft row, the excess of the
target row over it and the weights of the drafts is below the floor. -/
theorem FloorInert.one {V : Type} [Fintype V] [Inhabited V] {p q : List V → V → ℝ} {floor : ℝ}
    (hnonneg : 0 ≤ floor) (hp : IsConditional p) (hq : ∀ x v, floor ≤ q x v)
    (hexcess : floor ≤ ∑ v, max (p [] v - q [] v) 0)
    (hweight : ∀ v, floor ≤ min (p [] v / max (q [] v) floor) 1) :
    FloorInert p q 1 (some fun _ => 1) floor := by
  have hraw (X : List V) (v : V) : (drafted p q 1 (some fun _ => 1) X).rawRes floor 0 v =
      max (p [] v - q [] v) 0 := by
    show max (1 * p [] v - q [] v) 0 = _
    rw [one_mul]
  refine ⟨hnonneg, fun X _ _ i _ => hq _ _, fun X _ _ i hi _ => ?_, fun X _ _ t ht _ => ?_⟩
  · obtain rfl : i = 0 := Nat.lt_one_iff.mp hi
    show floor ≤ (drafted p q 1 (some fun _ => 1) X).mass floor 0 + (1 - 1)
    rw [sub_self, add_zero, Block.mass, Finset.sum_congr rfl fun v _ => hraw X v]
    exact hexcess
  · obtain rfl | rfl : t = 0 ∨ t = 1 := by omega
    · rw [Block.mass, Finset.sum_congr rfl fun v _ => hraw X v]
      exact hexcess
    · -- the whole row is left at the end of the block, with the draft's weight
      have hw : (drafted p q 1 (some fun _ => 1) X).w floor 1 =
          min (p [] (X.getD 0 default) / max (q [] (X.getD 0 default)) floor) 1 := by
        show min (1 * (p [] (X.getD 0 default) / max (q [] (X.getD 0 default)) floor)) 1 = _
        rw [one_mul]
      have hle : floor ≤ (drafted p q 1 (some fun _ => 1) X).w floor 1 := by
        rw [hw]
        exact hweight _
      have hrow (v : V) : (drafted p q 1 (some fun _ => 1) X).rawRes floor 1 v =
          (drafted p q 1 (some fun _ => 1) X).w floor 1 * p (X.take 1) v := by
        show max (_ * p (X.take 1) v - 0) 0 = _
        rw [sub_zero]
        exact max_eq_left (mul_nonneg (hnonneg.trans hle) (hp.nonneg _ _))
      rw [Block.mass, Finset.sum_congr rfl fun v _ => hrow v, ← Finset.mul_sum, hp.sum_one, mul_one]
      exact hle

/-- On one draft of the coins every positive denominator is at least 1/4. -/
theorem coin_inert : FloorInert (fun _ b => if b then 3 / 4 else 1 / 4 : List Bool → Bool → ℝ)
    (fun _ _ => 1 / 2) 1 (some fun _ => 1) 1e-30 := by
  have htarget : IsConditional (fun _ b => if b then 3 / 4 else 1 / 4 : List Bool → Bool → ℝ) :=
    ⟨fun _ b => by cases b <;> norm_num, fun _ => by rw [Fintype.sum_bool]; norm_num⟩
  refine FloorInert.one (by norm_num) htarget (fun _ _ => by norm_num) ?_ fun b => ?_
  · rw [Fintype.sum_bool]
    norm_num
  · cases b <;> norm_num

/-- One draft from a fair coin, verified against a coin that shows `true`
three times out of four. -/
noncomputable def coin : Scheme Bool where
  p := fun _ b => if b then 3 / 4 else 1 / 4
  q := fun _ _ => 1 / 2
  g := 1
  live := some fun _ => 1
  floor := 1e-30
  verified := fun _ => true
  target := ⟨fun _ b => by cases b <;> norm_num, fun _ => by rw [Fintype.sum_bool]; norm_num⟩
  draft := ⟨fun _ _ => by norm_num, fun _ => by rw [Fintype.sum_bool]; norm_num⟩
  stopping := fun X _ i hi => by
    obtain rfl : i = 0 := by omega
    rfl
  inert := coin_inert

/-- Losslessness on the coin: the output starts with `true, true` nine times
out of sixteen. -/
theorem block_verification_lossless_coin : coin.outputLaw [true, true] = 9 / 16 := by
  rw [(Scheme.block_verification_lossless coin).1 [true, true] (by decide)]
  norm_num [Scheme.targetLaw, pathProb, coin]

end BlockVerify
