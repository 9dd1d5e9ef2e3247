import Mathlib.Data.EReal.Basic
import SparkTP4.CertBoundsRounding
import SparkTP4.CertHead

/-!
# The bounds of the certified head are sound

The copy is off by no more than the norms of its residual, group by group, times those
of the input row (`abs_inner_sub_le`), and the two accumulations by a constant times the
norms of the rows. The computed bound is above the sum of the two, up to underflow
(`screenB_above_exactBound`). A row in whose norm anything overflowed is flagged, and a
bound in which anything overflowed is infinite.
-/

namespace CertBounds

open BinaryFormat FloatModel Extended

variable {n : ℕ} {order : SumTree} {x : ℕ → Extended} {y p q : Extended} {a b c : ℝ}

attribute [local instance] two_atLeastTwo

/-! ## Exact quantities -/

/-- A sum over the row is a sum over its groups. -/
theorem sum_groups (f : ℕ → ℝ) (G m : ℕ) : ∑ k ∈ Finset.range (m * G), f k =
    ∑ g ∈ Finset.range m, ∑ j ∈ Finset.range G, f (g * G + j) := by
  induction m with
  | zero => simp
  | succ m ih => rw [Nat.succ_mul, Finset.sum_range_add, ih, Finset.sum_range_succ]

/-- **Cauchy–Schwarz**, with the absolute value. -/
theorem abs_sum_mul_le (f g : ℕ → ℝ) (n : ℕ) : |∑ i ∈ Finset.range n, f i * g i| ≤
    √(∑ i ∈ Finset.range n, f i ^ 2) * √(∑ i ∈ Finset.range n, g i ^ 2) := by
  have hpos := Real.sum_mul_le_sqrt_mul_sqrt (Finset.range n) f g
  have hneg := Real.sum_mul_le_sqrt_mul_sqrt (Finset.range n) (fun i => -f i) g
  simp only [neg_mul, Finset.sum_neg_distrib, neg_sq] at hneg
  exact abs_le.mpr ⟨by linarith, hpos⟩

section Exact

variable {s : Shape} {w : ℕ → ℝ} {bf16 : Extended → Extended}

/-- The norm of the input row. -/
noncomputable def Row.norm (r : Row s) : ℝ := √(∑ k ∈ Finset.range s.K, (r.x k).toReal ^ 2)

/-- The larger of the norms of the weight row and its copy. -/
noncomputable def Tables.norm (t : Tables s w bf16) : ℝ :=
  max √(∑ k ∈ Finset.range s.K, w k ^ 2) √(∑ k ∈ Finset.range s.K, (t.d k).toReal ^ 2)

/-- The norm of a group of the input row. -/
noncomputable def Row.groupNorm (r : Row s) (g : ℕ) : ℝ :=
  √(∑ j ∈ Finset.range s.group, (r.x (g * s.group + j)).toReal ^ 2)

/-- The norm of the residual of a group. -/
noncomputable def Tables.residual (t : Tables s w bf16) (g : ℕ) : ℝ :=
  √(∑ j ∈ Finset.range s.group, (w (g * s.group + j) - (t.d (g * s.group + j)).toReal) ^ 2)

/-- The exact bound. -/
noncomputable def exactBound (t : Tables s w bf16) (r : Row s) : ℝ :=
  (∑ g ∈ Finset.range s.groups, r.groupNorm g * t.residual g) +
    2 * cAcc s.K * (r.norm * t.norm)

theorem Row.norm_nonneg (r : Row s) : 0 ≤ r.norm := Real.sqrt_nonneg _

theorem Row.groupNorm_nonneg (r : Row s) (g : ℕ) : 0 ≤ r.groupNorm g := Real.sqrt_nonneg _

theorem Tables.residual_nonneg (t : Tables s w bf16) (g : ℕ) : 0 ≤ t.residual g :=
  Real.sqrt_nonneg _

theorem Tables.norm_nonneg (t : Tables s w bf16) : 0 ≤ t.norm :=
  le_max_of_le_left (Real.sqrt_nonneg _)

theorem cAcc_pos (s : Shape) : 0 < cAcc s.K := by
  have hK : (0 : ℝ) < s.K := Nat.cast_pos.mpr (Nat.mul_pos s.groups_pos s.group_pos)
  unfold cAcc
  positivity

theorem Shape.K_le (s : Shape) : s.K ≤ 5120 :=
  (Nat.mul_le_mul s.groups_le s.group_le).trans (by norm_num)

theorem two_cAcc_le (s : Shape) : 2 * cAcc s.K ≤ 1 := by
  have hK : (s.K : ℝ) ≤ 5120 := by exact_mod_cast s.K_le
  unfold cAcc
  norm_num
  linarith

theorem exactBound_nonneg (t : Tables s w bf16) (r : Row s) : 0 ≤ exactBound t r := by
  have hc := cAcc_pos s
  have hsum : 0 ≤ ∑ g ∈ Finset.range s.groups, r.groupNorm g * t.residual g :=
    Finset.sum_nonneg fun g _ => mul_nonneg (r.groupNorm_nonneg g) (t.residual_nonneg g)
  have hprod := mul_nonneg r.norm_nonneg t.norm_nonneg
  unfold exactBound
  positivity

/-- **The residual, group by group**, bounds what the copy is off. -/
theorem abs_inner_sub_le (t : Tables s w bf16) (r : Row s) :
    |∑ k ∈ Finset.range s.K, w k * (r.x k).toReal -
      ∑ k ∈ Finset.range s.K, (t.d k).toReal * (r.x k).toReal| ≤
      ∑ g ∈ Finset.range s.groups, r.groupNorm g * t.residual g := by
  rw [← Finset.sum_sub_distrib, Shape.K, sum_groups]
  refine (Finset.abs_sum_le_sum_abs _ _).trans (Finset.sum_le_sum fun g _ => ?_)
  have hcs := abs_sum_mul_le (fun j => w (g * s.group + j) - (t.d (g * s.group + j)).toReal)
    (fun j => (r.x (g * s.group + j)).toReal) s.group
  simp only [sub_mul] at hcs
  rw [mul_comm (r.groupNorm g)]
  exact hcs

/-- The stock accumulation is within the exact bound of that of the screen. -/
theorem abs_stock_sub_le (t : Tables s w bf16) (r : Row s) {stock acc : ℝ}
    (hstock : |stock - ∑ k ∈ Finset.range s.K, w k * (r.x k).toReal| ≤
      cAcc s.K * t.norm * r.norm)
    (hacc : |acc - ∑ k ∈ Finset.range s.K, (t.d k).toReal * (r.x k).toReal| ≤
      cAcc s.K * t.norm * r.norm) :
    |stock - acc| ≤ exactBound t r := by
  have hinner := abs_inner_sub_le t r
  have h1 := abs_sub_le stock (∑ k ∈ Finset.range s.K, w k * (r.x k).toReal) acc
  have h2 := abs_sub_le (∑ k ∈ Finset.range s.K, w k * (r.x k).toReal)
    (∑ k ∈ Finset.range s.K, (t.d k).toReal * (r.x k).toReal) acc
  rw [abs_sub_comm acc] at hacc
  unfold exactBound
  linarith

/-! ## The computed norms and the computed bound -/

theorem nextPow2_spec {n : ℕ} (hn : n ≤ 40) : n ≤ nextPow2 n ∧ nextPow2 n ≤ 64 := by
  have hall : ∀ m ≤ 40, m ≤ nextPow2 m ∧ nextPow2 m ≤ 64 := by decide
  exact hall n hn

/-- What the norm of a group is above; zero past the last group. -/
noncomputable def Row.low (r : Row s) (g : ℕ) : ℝ :=
  if g < s.groups then (1 + 1 / 2 ^ 18) * r.groupNorm g + 1 / 2 ^ 60 else 0

theorem Row.low_nonneg (r : Row s) (g : ℕ) : 0 ≤ r.low g := by
  have hnorm := r.groupNorm_nonneg g
  unfold Row.low
  split_ifs
  · positivity
  · exact le_rfl

theorem Row.groupNorm_le_low (r : Row s) {g : ℕ} (hg : g < s.groups) :
    r.groupNorm g + 1 / 2 ^ 60 ≤ r.low g := by
  have hnorm := r.groupNorm_nonneg g
  rw [Row.low, if_pos hg]
  linarith

theorem Row.xg_above (r : Row s) (g : ℕ) : Above (r.low g) (r.xg g) := by
  unfold Row.low
  split_ifs with hg
  · exact groupNorm_above (r.order_sums g hg) s.group_le (r.xg_mem g hg)
  · rw [r.xg_pad g (not_lt.mp hg)]
    exact le_rfl

/-- The norms of the groups make up that of the row. -/
theorem Row.norm_le (r : Row s) {n : ℕ} (hn : s.groups ≤ n) :
    r.norm ≤ √(∑ g ∈ Finset.range n, r.low g ^ 2) := by
  refine Real.sqrt_le_sqrt ?_
  rw [Shape.K, sum_groups]
  calc ∑ g ∈ Finset.range s.groups, ∑ j ∈ Finset.range s.group,
        (r.x (g * s.group + j)).toReal ^ 2
      ≤ ∑ g ∈ Finset.range s.groups, r.low g ^ 2 := by
        refine Finset.sum_le_sum fun g hg => ?_
        have hlow := r.groupNorm_le_low (Finset.mem_range.mp hg)
        have hsq := Real.sq_sqrt (Finset.sum_nonneg fun j (_ : j ∈ Finset.range s.group) =>
          sq_nonneg (r.x (g * s.group + j)).toReal)
        rw [← hsq]
        exact pow_le_pow_left₀ (Real.sqrt_nonneg _) (by
          unfold Row.groupNorm at hlow
          linarith) 2
    _ ≤ ∑ g ∈ Finset.range n, r.low g ^ 2 :=
        Finset.sum_le_sum_of_subset_of_nonneg (Finset.range_subset_range.mpr hn)
          fun g _ _ => sq_nonneg _

/-- **The computed norm of the row is no smaller than the exact one.** -/
theorem Row.xn_above (r : Row s) : Above r.norm r.xn := by
  obtain ⟨hle, hle'⟩ := nextPow2_spec s.groups_le
  have hfirst : (1 / 2 ^ 60 : ℝ) ≤ √(∑ g ∈ Finset.range (nextPow2 s.groups), r.low g ^ 2) := by
    refine Real.le_sqrt_of_sq_le ?_
    have hmem : 0 ∈ Finset.range (nextPow2 s.groups) :=
      Finset.mem_range.mpr (lt_of_lt_of_le s.groups_pos hle)
    refine le_trans ?_ (Finset.single_le_sum (fun g _ => sq_nonneg (r.low g)) hmem)
    have hlow := r.groupNorm_le_low s.groups_pos
    have hnorm := r.groupNorm_nonneg 0
    exact pow_le_pow_left₀ (by norm_num) (by linarith) 2
  have habove := rowNorm_above r.rowOrder_sums hle' r.low_nonneg (fun g _ => r.xg_above g) hfirst
    r.xn_mem
  refine habove.mono ?_
  have hnorm := r.norm_le hle
  linarith

/-- **The computed bound is above the exact one**, up to underflow. -/
theorem screenB_above_exactBound (t : Tables s w bf16) (r : Row s)
    (hy : y ∈ (screenB s.groups s.K r.xg t.rt r.xn t.nv).run) :
    Above (exactBound t r - 1 / 2 ^ 137) y := by
  have hrt : ∀ g < s.groups, Above (t.residual g) (t.rt g) := fun g hg =>
    residualEntry_above (t.order_sums g hg) (s.group_le.trans (by norm_num)) (t.rt_mem g hg)
  have hnv : Above t.norm t.nv := normEntry_above t.normOrder_sums s.K_le t.nv_mem
  refine (screenB_above s.groups_le (cAcc_pos s) (two_cAcc_le s) r.low_nonneg t.residual_nonneg
    (fun g _ => r.xg_above g) hrt r.norm_nonneg t.norm_nonneg r.xn_above hnv hy).mono ?_
  have hterms : ∑ g ∈ Finset.range s.groups, r.groupNorm g * t.residual g ≤
      ∑ g ∈ Finset.range s.groups, r.low g * t.residual g := by
    refine Finset.sum_le_sum fun g hg => ?_
    have hlow := r.groupNorm_le_low (Finset.mem_range.mp hg)
    exact mul_le_mul_of_nonneg_right (by linarith) (t.residual_nonneg g)
  unfold exactBound
  linarith

/-! ## What a finite result says of its operands -/

theorem isFinite_of_roundUp {F : BinaryFormat} {infinity : ℕ} (h : y.IsFinite)
    (hy : y ∈ (roundUp F infinity p).run) : p.IsFinite := by
  cases p with
  | fin r => trivial
  | inf s =>
    obtain rfl := SetM.mem_run_pure.mp hy
    exact h
  | nan =>
    obtain rfl := SetM.mem_run_pure.mp hy
    exact h

theorem isFinite_of_residualEntry {w : ℕ → ℝ} {d : ℕ → Extended} {isUnsafe : Prop}
    (h : y.IsFinite) (hy : y ∈ (residualEntry order w d isUnsafe).run) :
    ∀ i ∈ order.leaves, (d i).IsFinite := by
  unfold residualEntry at hy
  obtain ⟨rg64, hrg64, hrest⟩ := SetM.mem_run_bind.mp hy
  obtain ⟨rg, hrg, hrt⟩ := SetM.mem_run_bind.mp hrest
  obtain ⟨s, hs, hrest⟩ := SetM.mem_run_bind.mp hrg64
  obtain ⟨root, hroot, hmul⟩ := SetM.mem_run_bind.mp hrest
  have hrgFin : rg.IsFinite := by
    have hfin := isFinite_of_roundUp h hrt
    split_ifs at hfin
    · exact hfin.elim
    · exact hfin
  have hsFin := isFinite_of_sqrt (isFinite_of_mul (isFinite_of_roundUp hrgFin hrg) hmul).1 hroot
  intro i hi
  obtain ⟨sq, hsq, hfin⟩ := SumTree.isFinite_leaf hsFin hs i hi
  obtain ⟨res, hres, hprod⟩ := SetM.mem_run_bind.mp hsq
  exact isFinite_of_neg (isFinite_of_add (isFinite_of_mul hfin hprod).1 hres).2

theorem isFinite_of_groupNorm (h : y.IsFinite) (hy : y ∈ (groupNorm order x).run) :
    ∀ i ∈ order.leaves, (x i).IsFinite := by
  obtain ⟨s, hs, hrest⟩ := SetM.mem_run_bind.mp hy
  obtain ⟨root, hroot, hrest⟩ := SetM.mem_run_bind.mp hrest
  obtain ⟨scaled, hscaled, hadd⟩ := SetM.mem_run_bind.mp hrest
  have hsFin := isFinite_of_sqrt
    (isFinite_of_mul (isFinite_of_add h hadd).1 hscaled).1 hroot
  intro i hi
  obtain ⟨sq, hsq, hfin⟩ := SumTree.isFinite_leaf hsFin hs i hi
  exact (isFinite_of_mul hfin hsq).1

theorem isFinite_of_rowNorm (h : y.IsFinite) (hy : y ∈ (rowNorm order x).run) :
    ∀ i ∈ order.leaves, (x i).IsFinite := by
  obtain ⟨t, ht, hrest⟩ := SetM.mem_run_bind.mp hy
  obtain ⟨root, hroot, hmul⟩ := SetM.mem_run_bind.mp hrest
  have htFin := isFinite_of_sqrt (isFinite_of_mul h hmul).1 hroot
  intro i hi
  obtain ⟨sq, hsq, hfin⟩ := SumTree.isFinite_leaf htFin ht i hi
  exact (isFinite_of_mul hfin hsq).1

theorem isFinite_of_residual {xg rt : ℕ → Extended} (h : y.IsFinite)
    (hy : y ∈ (residual xg rt n).run) : ∀ g < n, (rt g).IsFinite := by
  rw [residual_eq_comb] at hy
  intro g hg
  have hmem : g + 1 ∈ (SumTree.comb n).leaves := by
    rw [SumTree.leaves_comb, List.mem_range]
    exact Nat.succ_lt_succ hg
  obtain ⟨p, hp, hfin⟩ := SumTree.isFinite_leaf h hy (g + 1) hmem
  exact (isFinite_of_mul hfin hp).2

theorem isFinite_of_screenB {groups K : ℕ} {xg rt : ℕ → Extended} {xn nv : Extended}
    (h : y.IsFinite) (hy : y ∈ (screenB groups K xg rt xn nv).run) :
    ∀ g < groups, (rt g).IsFinite := by
  obtain ⟨qb, hqb, hrest⟩ := SetM.mem_run_bind.mp hy
  obtain ⟨q, hq, hrest⟩ := SetM.mem_run_bind.mp hrest
  obtain ⟨n', -, hrest⟩ := SetM.mem_run_bind.mp hrest
  obtain ⟨c, -, hrest⟩ := SetM.mem_run_bind.mp hrest
  obtain ⟨sum, hsum, hrest⟩ := SetM.mem_run_bind.mp hrest
  obtain ⟨b, hb, hpure⟩ := SetM.mem_run_bind.mp hrest
  obtain rfl := SetM.mem_run_pure.mp hpure
  have hbFin : b.IsFinite := by
    cases b with
    | fin r => trivial
    | inf s => exact h
    | nan => exact h
  have hqFin := (isFinite_of_add (isFinite_of_mul hbFin hb).1 hsum).1
  exact isFinite_of_residual (isFinite_of_mul hqFin hq).1 hqb

/-- A position of a row is a position in a group. -/
theorem Shape.exists_group (s : Shape) {k : ℕ} (hk : k < s.K) :
    ∃ g < s.groups, ∃ j < s.group, k = g * s.group + j := by
  refine ⟨k / s.group, Nat.div_lt_of_lt_mul (by rwa [mul_comm]), k % s.group,
    Nat.mod_lt k s.group_pos, ?_⟩
  rw [mul_comm]
  exact (Nat.div_add_mod k s.group).symm

theorem Sums.mem_leaves (h : Sums n order) {i : ℕ} (hi : i < n) : i ∈ order.leaves :=
  (List.Perm.mem_iff h).mpr (List.mem_range.mpr hi)

/-- **A row that is not flagged is finite.** -/
theorem Row.isFinite (r : Row s) (h : ¬r.Bad) : ∀ k < s.K, (r.x k).IsFinite := by
  have hxn : r.xn.IsFinite := by
    have habove := r.xn_above
    unfold Row.Bad at h
    generalize r.xn = xn at h habove
    cases xn with
    | fin v => trivial
    | inf neg =>
      have hneg : neg = false := habove
      exact absurd (.inr (congrArg Extended.inf hneg)) h
    | nan => exact absurd (.inl rfl) h
  intro k hk
  obtain ⟨g, hg, j, hj, rfl⟩ := s.exists_group hk
  have hpad := lt_of_lt_of_le hg (nextPow2_spec s.groups_le).1
  have hxg := isFinite_of_rowNorm hxn r.xn_mem g (r.rowOrder_sums.mem_leaves hpad)
  exact isFinite_of_groupNorm hxg (r.xg_mem g hg) j ((r.order_sums g hg).mem_leaves hj)

/-- **A copy with a finite bound is finite.** -/
theorem Tables.isFinite (t : Tables s w bf16) {xg : ℕ → Extended} {xn : Extended}
    (h : y.IsFinite) (hy : y ∈ (screenB s.groups s.K xg t.rt xn t.nv).run) :
    ∀ k < s.K, (t.d k).IsFinite := by
  intro k hk
  obtain ⟨g, hg, j, hj, rfl⟩ := s.exists_group hk
  exact isFinite_of_residualEntry (isFinite_of_screenB h hy g hg) (t.rt_mem g hg) j
    ((t.order_sums g hg).mem_leaves hj)

/-! ## The bounds -/

/-- A rounding to bf16: monotone, and NaN stays NaN. -/
structure IsRounding (bf16 : Extended → Extended) : Prop where
  mono : ∀ p q, p.Le q → (bf16 p).Le (bf16 q)
  nan : bf16 .nan = .nan

/-- An upper bound stays one when it degrades. -/
theorem le_degrade {acc l : Extended} (hl : l.Le l) (h : acc.IsFinite → y = .nan ∨ l.Le y) :
    l.Le (degrade acc false y) := by
  cases acc with
  | fin r =>
    obtain rfl | hle := h trivial
    · exact hl.le_posInf
    · cases y with
      | fin r' => exact hle
      | inf s => exact hle
      | nan => exact hl.le_posInf
  | inf s => cases y <;> exact hl.le_posInf
  | nan => cases y <;> exact hl.le_posInf

/-- A lower bound stays one when it degrades. -/
theorem degrade_le {acc l : Extended} (hl : l.Le l) (h : acc.IsFinite → y = .nan ∨ y.Le l) :
    (degrade acc true y).Le l := by
  cases acc with
  | fin r =>
    obtain rfl | hle := h trivial
    · exact hl.negInf_le
    · cases y with
      | fin r' => exact hle
      | inf s => exact hle
      | nan => exact hl.negInf_le
  | inf s => cases y <;> exact hl.negInf_le
  | nan => cases y <;> exact hl.negInf_le

theorem le_of_above (h : Above a p) : p = .nan ∨ (Extended.fin a).Le p := by
  cases p with
  | fin r => exact .inr h
  | inf s => exact .inr h
  | nan => exact .inl rfl

theorem le_of_neg_above (h : Above (-a) p.neg) : p = .nan ∨ p.Le (.fin a) := by
  cases p with
  | fin r => exact .inr (neg_le_neg_iff.mp h)
  | inf s => exact .inr (show s = true by simpa [Above, neg] using h)
  | nan => exact .inl rfl

/-- **The bounds hold whatever is rounded**: an accumulation within `E` of the stock one, and a
bound that is above `E` up to underflow. -/
theorem screen_sound (hbf : IsRounding bf16) {acc bnd : Extended} {stock E : ℝ} {isStop : Bool}
    {bounds : Extended × Extended} (hrange : ∀ v, acc = .fin v → |v| ≤ fp32.max)
    (hE : acc.IsFinite → |stock - acc.toReal| ≤ E ∧ Above (E - 1 / 2 ^ 137) bnd)
    (hbounds : bounds ∈ (screen bf16 acc bnd isStop).run) :
    bounds.1.Le (bf16 (.fin stock)) ∧ (bf16 (.fin stock)).Le bounds.2 := by
  obtain ⟨mag, hmag, hrest⟩ := SetM.mem_run_bind.mp hbounds
  obtain ⟨rel, hrel, hrest⟩ := SetM.mem_run_bind.mp hrest
  obtain ⟨slop, hslop, hrest⟩ := SetM.mem_run_bind.mp hrest
  obtain ⟨below, hbelow, hrest⟩ := SetM.mem_run_bind.mp hrest
  obtain ⟨lo, hlo, hrest⟩ := SetM.mem_run_bind.mp hrest
  obtain ⟨upper, hupper, hrest⟩ := SetM.mem_run_bind.mp hrest
  obtain ⟨hi, hhi, hpure⟩ := SetM.mem_run_bind.mp hrest
  obtain rfl := SetM.mem_run_pure.mp hpure
  have hrefl : (bf16 (.fin stock)).Le (bf16 (.fin stock)) :=
    hbf.mono _ _ (show stock ≤ stock from le_rfl)
  have hcast : ∀ {z : Extended}, z = .nan → bf16 z = .nan := fun hz => hz ▸ hbf.nan
  have hupp : (bf16 (.fin stock)).Le (degrade acc false (bf16 hi)) := by
    refine le_degrade hrefl fun hfin => ?_
    obtain ⟨hstock, hbnd⟩ := hE hfin
    rw [isFinite_iff] at hfin
    rw [hfin] at hmag hupper
    have hpos := (abs_nonneg _).trans hstock
    have habove := slop_above hpos (hrange _ hfin) hbnd hmag hrel hslop hupper hhi
    have hle : hi = .nan ∨ (Extended.fin stock).Le hi :=
      le_of_above (habove.mono (by linarith [le_abs_self (stock - acc.toReal)]))
    exact hle.imp hcast (hbf.mono _ _)
  have hlow : (degrade acc true (bf16 lo)).Le (bf16 (.fin stock)) := by
    refine degrade_le hrefl fun hfin => ?_
    obtain ⟨hstock, hbnd⟩ := hE hfin
    rw [isFinite_iff] at hfin
    rw [hfin] at hmag hbelow
    have hpos := (abs_nonneg _).trans hstock
    -- the negated operations are those of the upper bound
    have hbelow' := neg_mem_add hbelow
    have hlo' := neg_mem_add hlo
    rw [Extended.neg_neg] at hbelow' hlo'
    have hrange' : |-acc.toReal| ≤ fp32.max := by
      rw [abs_neg]
      exact hrange _ hfin
    have hmag' : mag ∈ (fp32.add (.fin |-acc.toReal|) bnd).run := by
      rw [abs_neg]
      exact hmag
    have habove := slop_above hpos hrange' hbnd hmag' hrel hslop hbelow' hlo'
    have hle : lo = .nan ∨ lo.Le (.fin stock) :=
      le_of_neg_above (habove.mono (by linarith [neg_abs_le (stock - acc.toReal)]))
    exact hle.imp hcast (hbf.mono _ _)
  cases isStop with
  | false => exact ⟨hlow, hupp⟩
  | true => exact ⟨hrefl.negInf_le, hrefl.le_posInf⟩

/-- Outside of flagged rows the stock logit is between the bounds. -/
theorem bounds_of_not_bad (hbf : IsRounding bf16) (t : Tables s w bf16) (r : Row s)
    (hbad : ¬r.Bad) {acc bnd : Extended} {stock : ℝ} {isStop : Bool}
    {bounds : Extended × Extended} (hrange : ∀ v, acc = .fin v → |v| ≤ fp32.max)
    (hstock : (∀ k < s.K, (r.x k).IsFinite) →
      |stock - ∑ k ∈ Finset.range s.K, w k * (r.x k).toReal| ≤ cAcc s.K * t.norm * r.norm)
    (hscreen : ∀ v, acc = .fin v → (∀ k < s.K, (r.x k).IsFinite) → (∀ k < s.K, (t.d k).IsFinite) →
      |v - ∑ k ∈ Finset.range s.K, (t.d k).toReal * (r.x k).toReal| ≤ cAcc s.K * t.norm * r.norm)
    (hbnd : bnd ∈ (screenB s.groups s.K r.xg t.rt r.xn t.nv).run)
    (hbounds : bounds ∈ (screen bf16 acc bnd isStop).run) :
    bounds.1.Le (bf16 (.fin stock)) ∧ (bf16 (.fin stock)).Le bounds.2 := by
  have hx := r.isFinite hbad
  have habove := screenB_above_exactBound t r hbnd
  by_cases hfin : bnd.IsFinite
  · refine screen_sound hbf hrange (fun haccFin => ⟨?_, habove⟩) hbounds
    have hd := t.isFinite hfin hbnd
    exact abs_stock_sub_le t r (hstock hx) (hscreen _ (isFinite_iff.mp haccFin) hx hd)
  · -- an infinite bound is above everything
    refine screen_sound hbf hrange (fun _ => ⟨le_rfl, ?_⟩) hbounds
    cases bnd with
    | fin v => exact absurd trivial hfin
    | inf neg => exact habove
    | nan => trivial

/-- **The bounds of the certified head.** For every weight row, every screening copy of it, every
input row and every rounding: when the accumulations of the stock head and of the screen are
within `c_acc` times the norms of the exact inner products, the stock logit is between the bounds
of the screen, or the row is flagged. -/
theorem head_bounds_sound (hbf : IsRounding bf16) (t : Tables s w bf16) (r : Row s)
    {acc bnd : Extended} {stock : ℝ} {isStop : Bool} {bounds : Extended × Extended}
    (hrange : ∀ v, acc = .fin v → |v| ≤ fp32.max)
    (hstock : (∀ k < s.K, (r.x k).IsFinite) →
      |stock - ∑ k ∈ Finset.range s.K, w k * (r.x k).toReal| ≤ cAcc s.K * t.norm * r.norm)
    (hscreen : ∀ v, acc = .fin v → (∀ k < s.K, (r.x k).IsFinite) → (∀ k < s.K, (t.d k).IsFinite) →
      |v - ∑ k ∈ Finset.range s.K, (t.d k).toReal * (r.x k).toReal| ≤ cAcc s.K * t.norm * r.norm)
    (hbnd : bnd ∈ (screenB s.groups s.K r.xg t.rt r.xn t.nv).run)
    (hbounds : bounds ∈ (screen bf16 acc bnd isStop).run) :
    r.Bad ∨ bounds.1.Le (bf16 (.fin stock)) ∧ (bf16 (.fin stock)).Le bounds.2 := by
  by_cases hbad : r.Bad
  · exact .inl hbad
  · exact .inr (bounds_of_not_bad hbf t r hbad hrange hstock hscreen hbnd hbounds)

end Exact

/-! ## The certified argmax

What `CertHead` assumes of the screen is what it computes. -/

/-- As an extended real. -/
noncomputable def toEReal : Extended → EReal
  | .fin r => r
  | .inf s => if s then ⊥ else ⊤
  | .nan => ⊥

theorem toEReal_le (h : p.Le q) : toEReal p ≤ toEReal q := by
  cases p with
  | fin r =>
    cases q with
    | fin r' => exact EReal.coe_le_coe_iff.mpr h
    | inf s =>
      have hs : s = false := h
      subst hs
      exact le_top
    | nan => exact h.elim
  | inf s =>
    cases q with
    | fin r' =>
      have hs : s = true := h
      subst hs
      exact bot_le
    | inf s' =>
      obtain hs | hs := h
      · subst hs
        exact bot_le
      · subst hs
        exact le_top
    | nan => exact h.elim
  | nan => cases q <;> exact h.elim

/-- A logit and its bounds, as the kernels may compute them for an input row, flagged or not. -/
def Screened (lo l hi : EReal) (bad : Bool) : Prop :=
  ∃ (s : Shape) (w : ℕ → ℝ) (bf16 : Extended → Extended) (t : Tables s w bf16) (r : Row s)
    (acc bnd : Extended) (stock : ℝ) (bounds : Extended × Extended),
    IsRounding bf16 ∧ (∀ v, acc = .fin v → |v| ≤ fp32.max) ∧
    ((∀ k < s.K, (r.x k).IsFinite) →
      |stock - ∑ k ∈ Finset.range s.K, w k * (r.x k).toReal| ≤ cAcc s.K * t.norm * r.norm) ∧
    (∀ v, acc = .fin v → (∀ k < s.K, (r.x k).IsFinite) → (∀ k < s.K, (t.d k).IsFinite) →
      |v - ∑ k ∈ Finset.range s.K, (t.d k).toReal * (r.x k).toReal| ≤ cAcc s.K * t.norm * r.norm) ∧
    bnd ∈ (screenB s.groups s.K r.xg t.rt r.xn t.nv).run ∧
    bounds ∈ (screen bf16 acc bnd false).run ∧ (r.Bad → bad = true) ∧
    lo = toEReal bounds.1 ∧ l = toEReal (bf16 (.fin stock)) ∧ hi = toEReal bounds.2

/-- **The screen's bounds are sound for the head**, which makes its argmax exact. -/
theorem boundsSound_of_screened (h : CertHead.Head EReal) (full : Bool) (bad : ℕ → Bool)
    (hs : ∀ r < h.world, ∀ m < h.rows, ∀ j < h.cols r,
      Screened (h.lo r m j) (h.logit r m j) (h.hi r m j) (bad m)) : h.BoundsSound full bad := by
  intro _ hbad r hr m hm j hj
  obtain ⟨s, w, bf16, t, row, acc, bnd, stock, bounds, hbf, hrange, hstock, hscreen, hbnd, hbounds,
    hflag, hlo, hl, hhi⟩ := hs r hr m hm j hj
  have hrow : ¬row.Bad := fun hb => by
    rw [hbad m hm] at hflag
    exact nomatch hflag hb
  obtain ⟨hlow, hupp⟩ := bounds_of_not_bad hbf t row hrow hrange hstock hscreen hbnd hbounds
  rw [hlo, hl, hhi]
  exact ⟨toEReal_le hlow, toEReal_le hupp⟩

/-! ## An instance

One group of 32 columns, an input row with a single one, and a weight row of zeros. -/

theorem abs_le_max_of_le_two {v : ℝ} (h : |v| ≤ 2) : |v| ≤ fp32.max ∧ |v| ≤ fp64.max := by
  have h32 : (2 : ℝ) ≤ fp32.max := by
    show (2 : ℝ) ≤ 2 ^ 128 - 2 ^ 104
    norm_num
  have h64 : (2 : ℝ) ≤ fp64.max := by
    show (2 : ℝ) ≤ 2 ^ 1024 - 2 ^ 971
    have h1 : (2 : ℝ) ^ 1024 = 2 ^ 53 * 2 ^ 971 := by rw [← pow_add]
    have h2 : (1 : ℝ) ≤ 2 ^ 971 := one_le_pow₀ one_le_two
    rw [h1]
    generalize (2 : ℝ) ^ 971 = top at h2 ⊢
    norm_num
    linarith
  exact ⟨h.trans h32, h.trans h64⟩

theorem zero_mem_mul {M : FloatModel} : Extended.fin 0 ∈ (M.mul (.fin 0) (.fin b)).run := by
  have h := fin_mem_mul (M := M) (a := 0) (b := b) (by rw [zero_mul, abs_zero]; exact M.max_nonneg)
  rwa [zero_mul] at h

theorem mul_zero_mem {M : FloatModel} : Extended.fin 0 ∈ (M.mul (.fin b) (.fin 0)).run := by
  rw [FloatModel.mul_comm]
  exact zero_mem_mul

theorem zero_mem_add {M : FloatModel} : Extended.fin 0 ∈ (M.add (.fin 0) (.fin 0)).run := by
  have h := fin_mem_add (M := M) (a := 0) (b := 0) (by rw [add_zero, abs_zero]; exact M.max_nonneg)
  rwa [add_zero] at h

theorem zero_mem_sqrt {M : FloatModel} : Extended.fin 0 ∈ (M.sqrt (.fin 0)).run := by
  have h := fin_mem_sqrt (M := M) le_rfl (by rw [Real.sqrt_zero, abs_zero]; exact M.max_nonneg)
  rwa [Real.sqrt_zero] at h

theorem zero_mem_sum {M : FloatModel} {f : ℕ → SetM Extended}
    (hf : ∀ i, Extended.fin 0 ∈ (f i).run) : Extended.fin 0 ∈ (order.sum M f).run := by
  have hzero : (order.leaves.map fun _ => (0 : ℝ)).sum = 0 := by simp
  have h := SumTree.fin_mem_sum (M := M) (z := fun _ => 0) (fun _ _ => le_rfl)
    (fun i _ => hf i) (hzero.trans_le M.max_nonneg)
  rwa [hzero] at h

theorem zero_mem_roundUp (F : BinaryFormat) {infinity : ℕ} (h : 0 < infinity) :
    Extended.fin 0 ∈ (roundUp F infinity (.fin 0)).run := by
  have hzero : (F.value 0 : ℝ) = 0 := by rw [value_zero, Rat.cast_zero]
  refine ⟨0, fun c' => ?_, ?_⟩
  · rw [hzero, sub_self, abs_zero]
    exact abs_nonneg _
  · rw [hzero, if_neg (lt_irrefl _), decode, if_pos h, hzero]

def oneGroup : Shape where
  group := 32
  groups := 1
  group_pos := by norm_num
  group_le := by norm_num
  groups_pos := by norm_num
  groups_le := by norm_num

def zeroCopy : Copy where
  q _ := 0
  e _ := 127
  q_le _ := by norm_num
  e_pos _ := by norm_num
  e_le _ := by norm_num

noncomputable def zeroTables : Tables oneGroup (fun _ => 0) id where
  copy := zeroCopy
  raw _ := .fin 0
  raw_mem k _ := by
    have hlt : 127 <<< 23 < 0x7F800000 := by decide
    unfold deqRaw
    show Extended.fin 0 ∈ (fp32.mul (.fin ((0 : ℤ) : ℝ)) (decode binary32 _ (127 <<< 23))).run
    rw [decode, if_pos hlt, Int.cast_zero]
    exact zero_mem_mul
  order _ := SumTree.comb 31
  order_sums _ _ := by
    rw [Sums, SumTree.leaves_comb]
    rfl
  rt _ := .fin 0
  rt_mem g _ := by
    have hsafe : ¬∃ k < oneGroup.K, id (Extended.fin 0) ≠ Extended.fin 0 :=
      fun ⟨_, _, hne⟩ => hne rfl
    have hneg : (Extended.fin 0).neg = .fin 0 := congrArg Extended.fin neg_zero
    unfold residualEntry
    refine SetM.mem_run_bind.mpr ⟨.fin 0, ?_, SetM.mem_run_bind.mpr ⟨.fin 0, ?_, ?_⟩⟩
    · refine SetM.mem_run_bind.mpr ⟨.fin 0, zero_mem_sum fun i => ?_,
        SetM.mem_run_bind.mpr ⟨.fin 0, zero_mem_sqrt, zero_mem_mul⟩⟩
      refine SetM.mem_run_bind.mpr ⟨.fin 0, ?_, zero_mem_mul⟩
      show Extended.fin 0 ∈ (fp64.add (.fin 0) (Extended.fin 0).neg).run
      rw [hneg]
      exact zero_mem_add
    · exact zero_mem_roundUp _ (by norm_num)
    · rw [if_neg hsafe]
      exact zero_mem_roundUp _ (by norm_num)
  normOrder := SumTree.comb 31
  normOrder_sums := by
    rw [Sums, SumTree.leaves_comb]
    rfl
  nv := .fin 0
  nv_mem := by
    have hnorm : Extended.fin 0 ∈ (norm64 (SumTree.comb 31) fun _ => .fin 0).run :=
      SetM.mem_run_bind.mpr ⟨.fin 0, zero_mem_sum fun _ => zero_mem_mul, zero_mem_sqrt⟩
    have hmax : maximum (.fin 0) (.fin 0) = .fin 0 := congrArg Extended.fin (max_self 0)
    unfold normEntry
    refine SetM.mem_run_bind.mpr ⟨.fin 0, hnorm, SetM.mem_run_bind.mpr ⟨.fin 0, hnorm,
      SetM.mem_run_bind.mpr ⟨.fin 0, ?_, zero_mem_roundUp _ (by norm_num)⟩⟩⟩
    rw [hmax]
    exact zero_mem_mul

/-- The norm of the group, before the shift. -/
theorem unit_xg_le : |inflX + xAbs| ≤ 2 := by
  rw [abs_of_nonneg (by norm_num [inflX, xAbs])]
  norm_num [inflX, xAbs]

theorem unit_xn_le : |(inflX + xAbs) * inflX| ≤ 2 := by
  rw [abs_of_nonneg (by norm_num [inflX, xAbs])]
  norm_num [inflX, xAbs]

noncomputable def unitRow : Row oneGroup where
  x k := .fin (if k = 0 then 1 else 0)
  order _ := SumTree.comb 31
  order_sums _ _ := by
    rw [Sums, SumTree.leaves_comb]
    rfl
  xg g := .fin (if g = 0 then inflX + xAbs else 0)
  xg_mem g hg := by
    obtain rfl : g = 0 := Nat.lt_one_iff.mp hg
    have hsum : ((SumTree.comb 31).leaves.map fun j => if 0 * 32 + j = 0 then (1 : ℝ) else 0).sum
        = 1 := by
      rw [SumTree.leaves_comb]
      simp [List.range_succ]
    have hsq := SumTree.fin_mem_sum (M := fp32) (t := SumTree.comb 31)
      (f := fun j => fp32.mul (.fin (if 0 * 32 + j = 0 then 1 else 0))
        (.fin (if 0 * 32 + j = 0 then 1 else 0)))
      (z := fun j => if 0 * 32 + j = 0 then (1 : ℝ) else 0)
      (fun j _ => by split_ifs <;> norm_num)
      (fun j _ => by
        have hmul : ∀ v : ℝ, v * v = v → |v| ≤ 2 → Extended.fin v ∈ (fp32.mul (.fin v) (.fin v)).run :=
          fun v hv hle => by
            have h := fin_mem_mul (M := fp32) (a := v) (b := v)
              (by rw [hv]; exact (abs_le_max_of_le_two hle).1)
            rwa [hv] at h
        refine hmul _ ?_ ?_
        · split_ifs <;> norm_num
        · split_ifs <;> norm_num)
      (by rw [hsum]; exact (le_abs_self 1).trans (abs_le_max_of_le_two (by norm_num)).1)
    rw [hsum] at hsq
    have hroot : Extended.fin 1 ∈ (fp32.sqrt (.fin 1)).run := by
      have h := fin_mem_sqrt (M := fp32) zero_le_one
        (by rw [Real.sqrt_one]; exact (abs_le_max_of_le_two (by norm_num)).1)
      rwa [Real.sqrt_one] at h
    have hscaled : Extended.fin inflX ∈ (fp32.mul (.fin 1) (.fin inflX)).run := by
      have h := fin_mem_mul (M := fp32) (a := 1) (b := inflX)
        (abs_le_max_of_le_two (by norm_num [inflX, abs_of_pos])).1
      rwa [one_mul] at h
    exact SetM.mem_run_bind.mpr ⟨_, hsq, SetM.mem_run_bind.mpr ⟨_, hroot,
      SetM.mem_run_bind.mpr ⟨_, hscaled, fin_mem_add (abs_le_max_of_le_two unit_xg_le).1⟩⟩⟩
  xg_pad g hg := by
    have hne : g ≠ 0 := fun h => absurd hg (by rw [h]; decide)
    rw [if_neg hne]
  rowOrder := .leaf 0
  rowOrder_sums := List.Perm.refl [0]
  xn := .fin ((inflX + xAbs) * inflX)
  xn_mem := by
    have hpos : 0 ≤ inflX + xAbs := by norm_num [inflX, xAbs]
    have hle := unit_xg_le
    have hsq : Extended.fin ((inflX + xAbs) * (inflX + xAbs)) ∈
        (fp32.mul (.fin (inflX + xAbs)) (.fin (inflX + xAbs))).run := by
      refine fin_mem_mul (abs_le_max_of_le_two ?_).1
      norm_num [inflX, xAbs, abs_of_pos]
    have hroot : Extended.fin (inflX + xAbs) ∈
        (fp32.sqrt (.fin ((inflX + xAbs) * (inflX + xAbs)))).run := by
      have h := fin_mem_sqrt (M := fp32) (mul_nonneg hpos hpos)
        (by rw [Real.sqrt_mul_self hpos]; exact (abs_le_max_of_le_two hle).1)
      rwa [Real.sqrt_mul_self hpos] at h
    exact SetM.mem_run_bind.mpr ⟨_, hsq, SetM.mem_run_bind.mpr ⟨_, hroot,
      fin_mem_mul (abs_le_max_of_le_two unit_xn_le).1⟩⟩

/-- With weights of zero the bounds are the slop on either side. -/
theorem head_bounds_sound_unit : unitRow.Bad ∨
    (Extended.fin (-slopAbs)).Le (id (.fin 0)) ∧ (id (Extended.fin 0)).Le (.fin slopAbs) := by
  have hbnd : Extended.fin 0 ∈
      (screenB oneGroup.groups oneGroup.K unitRow.xg zeroTables.rt unitRow.xn zeroTables.nv).run := by
    have hqb : Extended.fin 0 ∈ (residual unitRow.xg zeroTables.rt 1).run :=
      SetM.mem_run_bind.mpr ⟨.fin 0, SetM.mem_run_pure.mpr rfl,
        SetM.mem_run_bind.mpr ⟨.fin 0, mul_zero_mem, zero_mem_add⟩⟩
    exact SetM.mem_run_bind.mpr ⟨.fin 0, hqb, SetM.mem_run_bind.mpr ⟨.fin 0, zero_mem_mul,
      SetM.mem_run_bind.mpr ⟨.fin 0, mul_zero_mem, SetM.mem_run_bind.mpr ⟨.fin 0, mul_zero_mem,
        SetM.mem_run_bind.mpr ⟨.fin 0, zero_mem_add, SetM.mem_run_bind.mpr ⟨.fin 0, zero_mem_mul,
          SetM.mem_run_pure.mpr rfl⟩⟩⟩⟩⟩⟩
  have hslop : |slopAbs| ≤ 2 := by norm_num [slopAbs, abs_of_pos]
  have hneg : (Extended.fin 0).neg = .fin 0 := congrArg Extended.fin neg_zero
  have habs : (Extended.fin 0).abs = .fin 0 := congrArg Extended.fin abs_zero
  have hadd : Extended.fin slopAbs ∈ (fp32.add (.fin 0) (.fin slopAbs)).run := by
    have h := fin_mem_add (M := fp32) (a := 0) (b := slopAbs)
      (by rw [zero_add]; exact (abs_le_max_of_le_two hslop).1)
    rwa [zero_add] at h
  have hsub : Extended.fin (-slopAbs) ∈ (fp32.sub (.fin 0) (.fin slopAbs)).run := by
    have h := fin_mem_add (M := fp32) (a := 0) (b := -slopAbs)
      (by rw [zero_add, abs_neg]; exact (abs_le_max_of_le_two hslop).1)
    rwa [zero_add] at h
  have hbounds : (Extended.fin (-slopAbs), Extended.fin slopAbs) ∈
      (screen id (.fin 0) (.fin 0) false).run := by
    refine SetM.mem_run_bind.mpr ⟨.fin 0, by rw [habs]; exact zero_mem_add,
      SetM.mem_run_bind.mpr ⟨.fin 0, zero_mem_mul, SetM.mem_run_bind.mpr ⟨_, hadd,
        SetM.mem_run_bind.mpr ⟨.fin 0, ?_, SetM.mem_run_bind.mpr ⟨_, hsub,
          SetM.mem_run_bind.mpr ⟨.fin 0, zero_mem_add, SetM.mem_run_bind.mpr ⟨_, hadd,
            SetM.mem_run_pure.mpr rfl⟩⟩⟩⟩⟩⟩⟩
    show Extended.fin 0 ∈ (fp32.add (.fin 0) (Extended.fin 0).neg).run
    rw [hneg]
    exact zero_mem_add
  have hnorms := mul_nonneg (mul_nonneg (cAcc_pos oneGroup).le zeroTables.norm_nonneg)
    unitRow.norm_nonneg
  refine head_bounds_sound ⟨fun _ _ h => h, rfl⟩ zeroTables unitRow (fun v hv => ?_)
    (fun _ => ?_) (fun v hv _ _ => ?_) hbnd hbounds
  · obtain rfl := Extended.fin.inj hv
    rw [abs_zero]
    exact fp32.max_nonneg
  · simpa using hnorms
  · obtain rfl := Extended.fin.inj hv
    simpa [Tables.d, zeroTables, Extended.toReal] using hnorms

end CertBounds
