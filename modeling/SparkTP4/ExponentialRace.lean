import Mathlib.MeasureTheory.Constructions.Pi
import Mathlib.Order.CompletePartialOrder
import Mathlib.Probability.Distributions.Exponential

/-!
# Exponential races

Every entry `x` of a row of weights `r` is given an exponential clock `e x`, and the entry whose
`r x / e x` is largest wins. The winner has the law that the weights are proportional to
(`prob_winner`): this is how a token is drawn from a row that need not be normalised. Nothing is
asked of the rule that breaks ties, which have probability zero.
-/

open MeasureTheory ProbabilityTheory Set

namespace ExponentialRace

/-! ## Disjoint events whose probabilities are bounded below -/

/-- **Lower bounds that add up to one are exact**: the events need not be measurable. -/
theorem measureReal_eq_of_sum_eq_one {Ω ι : Type} [MeasurableSpace Ω] [Fintype ι] [DecidableEq ι]
    {μ : Measure Ω} [IsProbabilityMeasure μ] {A B : ι → Set Ω} {p : ι → ℝ}
    (hB : ∀ i, MeasurableSet (B i)) (hsub : ∀ i, B i ⊆ A i)
    (hA : ∀ i j, i ≠ j → Disjoint (A i) (A j)) (hp : ∀ i, p i ≤ μ.real (B i))
    (hsum : ∑ i, p i = 1) (i : ι) : μ.real (A i) = p i := by
  refine le_antisymm ?_ ((hp i).trans (measureReal_mono (hsub i)))
  have hunion : MeasurableSet (⋃ j ∈ Finset.univ.erase i, B j) :=
    Finset.measurableSet_biUnion _ fun j _ => hB j
  have hdisj : (↑(Finset.univ.erase i) : Set ι).PairwiseDisjoint B := fun j _ k _ hjk =>
    (hA j k hjk).mono (hsub j) (hsub k)
  have hothers : μ.real (⋃ j ∈ Finset.univ.erase i, B j) = ∑ j ∈ Finset.univ.erase i, μ.real (B j) :=
    measureReal_biUnion_finset hdisj fun j _ => hB j
  have hcompl : A i ⊆ (⋃ j ∈ Finset.univ.erase i, B j)ᶜ := fun ω hω hmem => by
    obtain ⟨j, hj, hωj⟩ := mem_iUnion₂.mp hmem
    exact disjoint_left.mp (hA i j (Finset.ne_of_mem_erase hj).symm) hω (hsub j hωj)
  have hle : ∑ j ∈ Finset.univ.erase i, p j ≤ ∑ j ∈ Finset.univ.erase i, μ.real (B j) :=
    Finset.sum_le_sum fun j _ => hp j
  calc μ.real (A i) ≤ μ.real (⋃ j ∈ Finset.univ.erase i, B j)ᶜ := measureReal_mono hcompl
    _ = 1 - ∑ j ∈ Finset.univ.erase i, μ.real (B j) := by
      rw [probReal_compl_eq_one_sub hunion, hothers]
    _ ≤ 1 - ∑ j ∈ Finset.univ.erase i, p j := sub_le_sub_left hle 1
    _ = p i := by rw [← hsum, ← Finset.add_sum_erase _ p (Finset.mem_univ i), add_sub_cancel_right]

/-! ## One clock -/

instance probability_clock : IsProbabilityMeasure (expMeasure 1) :=
  isProbabilityMeasure_expMeasure one_pos

/-- A clock rings after `a` with probability `exp (-a)`. -/
theorem clock_Ioi {a : ℝ} (ha : 0 ≤ a) :
    expMeasure 1 (Ioi a) = ENNReal.ofReal (Real.exp (-a)) := by
  have hcdf : expMeasure 1 (Iic a) = ENNReal.ofReal (1 - Real.exp (-a)) := by
    rw [← ofReal_cdf, cdf_expMeasure_eq one_pos, if_pos ha, one_mul]
  have hexp : Real.exp (-a) ≤ 1 := Real.exp_le_one_iff.mpr (neg_nonpos.mpr ha)
  rw [← compl_Iic, prob_compl_eq_one_sub measurableSet_Iic, hcdf, ← ENNReal.ofReal_one,
    ← ENNReal.ofReal_sub 1 (sub_nonneg.mpr hexp), sub_sub_cancel]

/-- A clock rings after zero. -/
theorem clock_pos : ∀ᵐ t ∂expMeasure 1, 0 < t := by
  refine (prob_compl_eq_zero_iff measurableSet_Ioi).mpr ?_
  rw [clock_Ioi le_rfl, neg_zero, Real.exp_zero, ENNReal.ofReal_one]

/-- The transform of a clock. -/
theorem lintegral_exp {k : ℝ} (hk : 0 ≤ k) :
    ∫⁻ t, ENNReal.ofReal (Real.exp (-(k * t))) ∂expMeasure 1 = ENNReal.ofReal (1 / (1 + k)) := by
  have hpos : 0 < 1 + k := by linarith
  have hdensity : ∀ t, exponentialPDF 1 t * ENNReal.ofReal (Real.exp (-(k * t))) =
      ENNReal.ofReal (1 / (1 + k)) * exponentialPDF (1 + k) t := by
    intro t
    obtain ht | ht := lt_or_ge t 0
    · rw [exponentialPDF_of_neg ht, exponentialPDF_of_neg ht, zero_mul, mul_zero]
    · rw [exponentialPDF_of_nonneg ht, exponentialPDF_of_nonneg ht, one_mul, one_mul,
        ← ENNReal.ofReal_mul (Real.exp_pos _).le, ← ENNReal.ofReal_mul (one_div_pos.mpr hpos).le,
        ← Real.exp_add, ← mul_assoc, one_div_mul_cancel hpos.ne', one_mul]
      congr 2
      ring
  have hmeas (r : ℝ) : Measurable (exponentialPDF r) :=
    (measurable_exponentialPDFReal r).ennreal_ofReal
  calc ∫⁻ t, ENNReal.ofReal (Real.exp (-(k * t))) ∂expMeasure 1
      = ∫⁻ t, exponentialPDF 1 t * ENNReal.ofReal (Real.exp (-(k * t))) :=
        lintegral_withDensity_eq_lintegral_mul _ (hmeas 1)
          (Real.measurable_exp.comp (measurable_const.mul measurable_id).neg).ennreal_ofReal
    _ = ∫⁻ t, ENNReal.ofReal (1 / (1 + k)) * exponentialPDF (1 + k) t := lintegral_congr hdensity
    _ = ENNReal.ofReal (1 / (1 + k)) := by
      rw [lintegral_const_mul _ (hmeas _), lintegral_exponentialPDF_eq_one hpos, mul_one]

/-! ## The race -/

/-- Independent clocks of rate one. -/
noncomputable def clocks (n : ℕ) : Measure (Fin n → ℝ) := Measure.pi fun _ => expMeasure 1

instance probability_clocks (n : ℕ) : IsProbabilityMeasure (clocks n) :=
  inferInstanceAs (IsProbabilityMeasure (Measure.pi _))

variable {n : ℕ} {r : Fin n → ℝ} {c : Fin n} {e : Fin n → ℝ}

/-- Every clock is positive, and `c` is ahead of all others. -/
def Leads (r : Fin n → ℝ) (c : Fin n) (e : Fin n → ℝ) : Prop :=
  (∀ x, 0 < e x) ∧ ∀ x, x ≠ c → r x / e x < r c / e c

/-- An entry that leads is the only one that is not beaten. -/
theorem Leads.eq_of_le (h : Leads r c e) {d : Fin n} (hd : ∀ x, r x / e x ≤ r d / e d) : d = c := by
  by_contra hne
  exact absurd (hd c) (not_le.mpr (h.2 d hne))

/-- The clocks of the others, once the clock of `c` is known. -/
def Beaten {n : ℕ} (r : Fin (n + 1) → ℝ) (c : Fin (n + 1)) : Set (ℝ × (Fin n → ℝ)) :=
  {p | 0 < p.1 ∧ ∀ j, r (c.succAbove j) / r c * p.1 < p.2 j}

theorem measurableSet_beaten (r : Fin (n + 1) → ℝ) (c : Fin (n + 1)) :
    MeasurableSet (Beaten r c) := by
  refine (measurableSet_lt measurable_const measurable_fst).inter ?_
  show MeasurableSet {p : ℝ × (Fin n → ℝ) | ∀ j, r (c.succAbove j) / r c * p.1 < p.2 j}
  rw [ofPred_forall]
  exact MeasurableSet.iInter fun j => measurableSet_lt (measurable_const.mul measurable_fst)
    ((measurable_pi_apply j).comp measurable_snd)

/-- `c` leads with the probability that its weight has among all. -/
theorem prob_beaten {r : Fin (n + 1) → ℝ} {c : Fin (n + 1)} (hr : ∀ x, 0 ≤ r x) (hc : 0 < r c) :
    ((expMeasure 1).prod (clocks n)) (Beaten r c) = ENNReal.ofReal (r c / ∑ x, r x) := by
  have ha (j : Fin n) : 0 ≤ r (c.succAbove j) / r c := div_nonneg (hr _) hc.le
  have hsection (t : ℝ) (ht : 0 < t) : clocks n (Set.preimage (Prod.mk t) (Beaten r c)) =
      ENNReal.ofReal (Real.exp (-((∑ j, r (c.succAbove j) / r c) * t))) := by
    have hbox : Set.preimage (Prod.mk t) (Beaten r c) =
        Set.pi univ fun j => Ioi (r (c.succAbove j) / r c * t) := by
      ext e
      simp only [Beaten, mem_preimage, mem_ofPred_eq, mem_univ_pi, mem_Ioi, ht, true_and]
    rw [hbox, clocks, Measure.pi_pi]
    simp only [fun j => clock_Ioi (mul_nonneg (ha j) ht.le)]
    rw [← ENNReal.ofReal_prod_of_nonneg fun j _ => (Real.exp_pos _).le, ← Real.exp_sum,
      Finset.sum_neg_distrib, Finset.sum_mul]
  rw [Measure.prod_apply (measurableSet_beaten r c), lintegral_congr_ae (clock_pos.mono hsection),
    lintegral_exp (Finset.sum_nonneg fun j _ => ha j)]
  congr 1
  rw [← Finset.sum_div, Fin.sum_univ_succAbove r c]
  field_simp

/-- **An entry leads** with at least the probability of its weight. -/
theorem exists_leads (hr : ∀ x, 0 ≤ r x) (c : Fin n) :
    ∃ B, MeasurableSet B ∧ B ⊆ {e | Leads r c e} ∧ r c / ∑ x, r x ≤ (clocks n).real B := by
  obtain hc | hc := (hr c).eq_or_lt
  · exact ⟨∅, MeasurableSet.empty, empty_subset _, by rw [← hc, zero_div]; exact measureReal_nonneg⟩
  · obtain ⟨m, rfl⟩ : ∃ m, n = m + 1 := ⟨n - 1, by have := c.isLt; omega⟩
    have hsplit := measurePreserving_piFinSuccAbove (fun _ : Fin (m + 1) => expMeasure 1) c
    refine ⟨Set.preimage (MeasurableEquiv.piFinSuccAbove (fun _ => ℝ) c) (Beaten r c),
      (MeasurableEquiv.piFinSuccAbove (fun _ => ℝ) c).measurable (measurableSet_beaten r c), ?_, ?_⟩
    · rintro e ⟨he, hlt⟩
      have hothers (j : Fin m) : 0 < e (c.succAbove j) :=
        (mul_nonneg (div_nonneg (hr _) hc.le) (le_of_lt he)).trans_lt (hlt j)
      refine ⟨fun x => ?_, fun x hx => ?_⟩
      · obtain rfl | hx := eq_or_ne x c
        · exact he
        · obtain ⟨j, rfl⟩ := Fin.exists_succAbove_eq hx
          exact hothers j
      · obtain ⟨j, rfl⟩ := Fin.exists_succAbove_eq hx
        have hj : r (c.succAbove j) / r c * e c < e (c.succAbove j) := hlt j
        have hec : 0 < e c := he
        rw [div_lt_div_iff₀ (hothers j) hec]
        rwa [div_mul_eq_mul_div, div_lt_iff₀ hc, mul_comm (e _)] at hj
    · have hprob := prob_beaten hr hc
      rw [measureReal_def, clocks, hsplit.measure_preimage (measurableSet_beaten r c).nullMeasurableSet]
      refine (ENNReal.ofReal_le_iff_le_toReal ?_).mp (le_of_eq hprob.symm)
      rw [show (expMeasure 1).prod (Measure.pi fun _ => expMeasure 1) (Beaten r c) =
        _ from hprob]
      exact ENNReal.ofReal_ne_top

/-- **The winner's law.** -/
theorem prob_winner (hr : ∀ x, 0 ≤ r x) (hsum : 0 < ∑ x, r x) {winner : (Fin n → ℝ) → Fin n}
    (hwinner : ∀ e x, r x / e x ≤ r (winner e) / e (winner e)) (c : Fin n) :
    (clocks n).real {e | winner e = c} = r c / ∑ x, r x := by
  choose B hB hleads hp using exists_leads hr
  refine measureReal_eq_of_sum_eq_one (A := fun c => {e | winner e = c}) hB (fun c e he => ?_)
    (fun i j hij => ?_) hp ?_ c
  · exact (hleads c he).eq_of_le (hwinner e)
  · refine disjoint_left.mpr fun e hi hj => hij ?_
    exact (show winner e = i from hi).symm.trans hj
  · rw [← Finset.sum_div, div_self hsum.ne']

end ExponentialRace
