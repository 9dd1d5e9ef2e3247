import Mathlib.Algebra.BigOperators.Group.Finset.Basic
import Mathlib.Tactic.IntervalCases
import SparkTP4.CertBounds

/-!
# What the rounding of the certified head leaves of its bounds

The norms are inflated by more than their summation may lose, and so are the residual
product and the bound: each computed number is above what it stands for
(`groupNorm_above`, `rowNorm_above`, `screenB_above`). What is left of the inflation
and the absolute terms pay for underflow, and the slop for the last two operations
(`slop_above`).
-/

namespace CertBounds

open BinaryFormat FloatModel Extended

variable {n : ℕ} {order : SumTree} {x : ℕ → Extended} {y p q : Extended} {a b c P Q : ℝ}

/-! ## Rounding down -/

/-- A bound that is rounded in fp32. -/
theorem le_down (hP : 0 ≤ P) (hQ : 0 ≤ Q)
    (h : c ≤ (1 - 1 / 2 ^ 24) * P - (1 + 1 / 2 ^ 24) * Q - 1 / 2 ^ 149) :
    c ≤ fp32.down (P - Q) := by
  have hdown := @down_sub_ge fp32 P Q hP hQ
  rw [fp32_u, fp32_η] at hdown
  exact h.trans hdown

theorem neg_top_lt (h : -1 ≤ a) : -fp32.top < a := by
  have htop : (1 : ℝ) < fp32.top := by
    rw [fp32_top]
    norm_num
  linarith

theorem sub_le_sqrt (hb : 0 ≤ b) : a - b ≤ √(a ^ 2 - b ^ 2) := by
  by_cases hab : a ≤ b
  · exact le_trans (by linarith) (Real.sqrt_nonneg _)
  · refine Real.le_sqrt_of_sq_le ?_
    nlinarith

/-! ## Sums -/

theorem Sums.sum_eq (h : Sums n order) (z : ℕ → ℝ) :
    (order.leaves.map z).sum = ∑ i ∈ Finset.range n, z i :=
  (List.Perm.map z h).sum_eq

theorem Sums.length_eq (h : Sums n order) : order.leaves.length = n :=
  (List.Perm.length_eq h).trans List.length_range

/-- **The sum of at most 128 squares in fp32.** -/
theorem sumSq_above (h : Sums n order) (hn : n ≤ 128)
    (hy : y ∈ (order.sum fp32 fun j => fp32.mul (x j) (x j)).run) :
    Above ((1 - 1 / 2 ^ 17) ^ 2 * (∑ j ∈ Finset.range n, (x j).toReal ^ 2) - (1 / 2 ^ 69) ^ 2) y := by
  have hn' : (n : ℝ) ≤ 128 := by exact_mod_cast hn
  have hn0 : (0 : ℝ) ≤ n := Nat.cast_nonneg n
  have hleaf : ∀ i ∈ order.leaves, ∀ s ∈ (fp32.mul (x i) (x i)).run,
      Above ((1 - 1 / 2 ^ 24) * (x i).toReal ^ 2 - 1 / 2 ^ 149) s := fun i _ s hs => by
    have hsq := above_sq hs
    rwa [down_of_nonneg (sq_nonneg _)] at hsq
  have hsum := SumTree.above_sum (z := fun i => (1 - 1 / 2 ^ 24) * (x i).toReal ^ 2)
    (fun i _ => mul_nonneg (by norm_num) (sq_nonneg _)) (by norm_num) hleaf ?_ ?_ hy
  · refine hsum.mono ?_
    rw [h.length_eq, h.sum_eq, ← Finset.mul_sum, fp32_u, fp32_η]
    have hS : 0 ≤ ∑ j ∈ Finset.range n, (x j).toReal ^ 2 := Finset.sum_nonneg fun _ _ => sq_nonneg _
    have hfactor : (1 - 1 / 2 ^ 17 : ℝ) ^ 2 ≤ (1 - n * (1 / 2 ^ 24)) * (1 - 1 / 2 ^ 24) := by
      norm_num
      linarith
    have hmul := mul_le_mul_of_nonneg_right hfactor hS
    have habs : 4 * n * (1 / 2 ^ 149 + 1 / 2 ^ 149 : ℝ) ≤ (1 / 2 ^ 69) ^ 2 := by
      norm_num
      linarith
    linarith
  · rw [h.length_eq, fp32_u]
    linarith
  · rw [h.length_eq, fp32_η, fp32_top]
    norm_num
    linarith

/-- **The norm of a group is no smaller than it is**, with room to spare. -/
theorem groupNorm_above (h : Sums n order) (hn : n ≤ 128) (hy : y ∈ (groupNorm order x).run) :
    Above ((1 + 1 / 2 ^ 18) * √(∑ j ∈ Finset.range n, (x j).toReal ^ 2) + 1 / 2 ^ 60) y := by
  obtain ⟨s, hs, hrest⟩ := SetM.mem_run_bind.mp hy
  obtain ⟨root, hroot, hrest⟩ := SetM.mem_run_bind.mp hrest
  obtain ⟨scaled, hscaled, hadd⟩ := SetM.mem_run_bind.mp hrest
  have hS : 0 ≤ ∑ j ∈ Finset.range n, (x j).toReal ^ 2 := Finset.sum_nonneg fun _ _ => sq_nonneg _
  have hsq := Real.sq_sqrt hS
  have hρ := Real.sqrt_nonneg (∑ j ∈ Finset.range n, (x j).toReal ^ 2)
  have habove := sumSq_above h hn hs
  rw [← hsq, ← mul_pow] at habove
  generalize √(∑ j ∈ Finset.range n, (x j).toReal ^ 2) = ρ at hρ habove ⊢
  -- the root
  have h1 : Above ((1 - 1 / 2 ^ 17 - 1 / 2 ^ 24) * ρ - 1 / 2 ^ 68) root := by
    refine (above_sqrt habove hroot).mono
      (le_trans (le_down ?_ ?_ ?_) (down_mono (sub_le_sqrt ?_)))
    · exact mul_nonneg (by norm_num) hρ
    · norm_num
    · norm_num
      linarith
    · norm_num
  -- inflated
  have h2 : Above ((1 + 1 / 2 ^ 18 + 1 / 2 ^ 19) * ρ - 1 / 2 ^ 67) scaled := by
    have hinfl : (0 : ℝ) < inflX := by norm_num [inflX]
    have hsplit : ((1 - 1 / 2 ^ 17 - 1 / 2 ^ 24) * ρ - 1 / 2 ^ 68) * inflX =
        (1 - 1 / 2 ^ 17 - 1 / 2 ^ 24) * inflX * ρ - 1 / 2 ^ 68 * inflX := by ring
    refine (above_mul_const hinfl (neg_top_lt ?_) h1 hscaled).mono ?_
    · norm_num [inflX]
      linarith
    · rw [hsplit]
      refine le_down (by norm_num [inflX]; linarith) (by norm_num [inflX]) ?_
      norm_num [inflX]
      linarith
  -- and shifted
  have hsplit : (1 + 1 / 2 ^ 18 + 1 / 2 ^ 19) * ρ - 1 / 2 ^ 67 + xAbs =
      ((1 + 1 / 2 ^ 18 + 1 / 2 ^ 19) * ρ + xAbs) - 1 / 2 ^ 67 := by ring
  refine (above_add h2 (show Above xAbs (.fin xAbs) from le_rfl) (neg_top_lt ?_) hadd).mono ?_
  · norm_num [xAbs]
    linarith
  · rw [hsplit]
    refine le_down (by norm_num [xAbs]; linarith) (by norm_num) ?_
    norm_num [xAbs]
    linarith

/-- **The norm of a row is no smaller than it is**, when the norms of the groups are far from
underflow. -/
theorem rowNorm_above (h : Sums n order) (hn : n ≤ 64) {L : ℕ → ℝ} (hL : ∀ g, 0 ≤ L g)
    (hx : ∀ g < n, Above (L g) (x g)) (hfloor : 1 / 2 ^ 60 ≤ √(∑ g ∈ Finset.range n, L g ^ 2))
    (hy : y ∈ (rowNorm order x).run) :
    Above ((1 + 1 / 2 ^ 19) * √(∑ g ∈ Finset.range n, L g ^ 2)) y := by
  obtain ⟨t, ht, hrest⟩ := SetM.mem_run_bind.mp hy
  obtain ⟨root, hroot, hmul⟩ := SetM.mem_run_bind.mp hrest
  have hn' : (n : ℝ) ≤ 64 := by exact_mod_cast hn
  have hn0 : (0 : ℝ) ≤ n := Nat.cast_nonneg n
  have hS : 0 ≤ ∑ g ∈ Finset.range n, L g ^ 2 := Finset.sum_nonneg fun _ _ => sq_nonneg _
  have hsq := Real.sq_sqrt hS
  have hleaf : ∀ i ∈ order.leaves, ∀ s ∈ (fp32.mul (x i) (x i)).run,
      Above ((1 - 1 / 2 ^ 24) * L i ^ 2 - 1 / 2 ^ 149) s := fun i hi s hs => by
    have hlt : i < n := List.mem_range.mp (List.Perm.mem_iff h |>.mp hi)
    have hprod := above_mul (hL i) (hL i) (hx i hlt) (hx i hlt) hs
    rwa [← sq, down_of_nonneg (sq_nonneg _)] at hprod
  -- the sum
  have h1 : Above ((1 - 1 / 2 ^ 17) ^ 2 * ∑ g ∈ Finset.range n, L g ^ 2) t := by
    refine (SumTree.above_sum (z := fun i => (1 - 1 / 2 ^ 24) * L i ^ 2)
      (fun i _ => mul_nonneg (by norm_num) (sq_nonneg _)) (by norm_num) hleaf ?_ ?_ ht).mono ?_
    · rw [h.length_eq, fp32_u]
      linarith
    · rw [h.length_eq, fp32_η, fp32_top]
      norm_num
      linarith
    · rw [h.length_eq, h.sum_eq, ← Finset.mul_sum, fp32_u, fp32_η]
      have hsmall : (1 / 2 ^ 60 : ℝ) ^ 2 ≤ ∑ g ∈ Finset.range n, L g ^ 2 := by
        rw [← hsq]
        exact pow_le_pow_left₀ (by norm_num) hfloor 2
      have hfactor : (1 - 1 / 2 ^ 17 : ℝ) ^ 2 + 1 / 2 ^ 20 ≤
          (1 - n * (1 / 2 ^ 24)) * (1 - 1 / 2 ^ 24) := by
        norm_num
        linarith
      have hmul := mul_le_mul_of_nonneg_right hfactor hS
      have habs : 4 * n * (1 / 2 ^ 149 + 1 / 2 ^ 149 : ℝ) ≤ 1 / 2 ^ 20 * (1 / 2 ^ 60) ^ 2 := by
        norm_num
        linarith
      linarith
  rw [← hsq, ← mul_pow] at h1
  generalize √(∑ g ∈ Finset.range n, L g ^ 2) = Y at hfloor h1 ⊢
  have hY : 0 ≤ Y := le_trans (by norm_num) hfloor
  -- its root
  have h2 : Above ((1 - 1 / 2 ^ 17 - 1 / 2 ^ 23) * Y) root := by
    have hroot' := above_sqrt h1 hroot
    rw [Real.sqrt_sq (mul_nonneg (by norm_num) hY),
      down_of_nonneg (mul_nonneg (by norm_num) hY), fp32_u, fp32_η] at hroot'
    refine hroot'.mono ?_
    norm_num at hfloor ⊢
    linarith
  have hinfl : (0 : ℝ) < inflX := by norm_num [inflX]
  have hprod : 0 ≤ (1 - 1 / 2 ^ 17 - 1 / 2 ^ 23) * Y * inflX :=
    mul_nonneg (mul_nonneg (by norm_num) hY) hinfl.le
  refine (above_mul_const hinfl (neg_top_lt (by linarith)) h2 hmul).mono ?_
  rw [down_of_nonneg hprod, fp32_u, fp32_η]
  norm_num [inflX] at hfloor ⊢
  linarith

/-! ## The tables -/

/-- Rounding up keeps lower bounds. -/
theorem above_roundUp {F : BinaryFormat} {infinity : ℕ} (hp : Above a p)
    (hy : y ∈ (roundUp F infinity p).run) : Above a y := by
  cases p with
  | fin r =>
    obtain ⟨c, hnear, rfl⟩ := hy
    have hup : r ≤ F.value (if (F.value c : ℝ) < r then c + 1 else c) := by
      split_ifs with hlt
      · -- were the next code short too, it would be the nearer one
        by_contra! hshort
        have hmono : (F.value c : ℝ) < F.value (c + 1) :=
          Rat.cast_lt.mpr (F.value_strictMono (Nat.lt_succ_self c))
        have hle := hnear (c + 1)
        rw [abs_of_pos (sub_pos.mpr hlt), abs_of_pos (sub_pos.mpr hshort)] at hle
        linarith
      · exact not_lt.mp hlt
    generalize (if (F.value c : ℝ) < r then c + 1 else c) = c' at hup ⊢
    unfold decode
    split_ifs
    · exact le_trans hp hup
    · rfl
  | inf s =>
    obtain rfl := SetM.mem_run_pure.mp hy
    exact hp
  | nan =>
    obtain rfl := SetM.mem_run_pure.mp hy
    trivial

theorem above_maximum_left (hp : Above a p) : Above a (maximum p q) := by
  cases p with
  | fin r =>
    cases q with
    | fin r' => exact le_trans hp (le_max_left r r')
    | inf s => cases s <;> [rfl; exact hp]
    | nan => trivial
  | inf s =>
    have hs : s = false := hp
    subst hs
    cases q <;> [rfl; rfl; trivial]
  | nan => cases q <;> trivial

theorem above_maximum_right (hq : Above a q) : Above a (maximum p q) := by
  cases q with
  | fin r =>
    cases p with
    | fin r' => exact le_trans hq (le_max_right r' r)
    | inf s => cases s <;> [rfl; exact hq]
    | nan => trivial
  | inf s =>
    have hs : s = false := hq
    subst hs
    cases p with
    | fin r => rfl
    | inf s' => cases s' <;> rfl
    | nan => trivial
  | nan => cases p <;> trivial

/-- The square of a residual loses three roundings. -/
theorem residualSq_above {w : ℝ} {d res : Extended} (hres : res ∈ (fp64.sub (.fin w) d).run)
    (hy : y ∈ (fp64.mul res res).run) :
    Above ((1 - 1 / 2 ^ 53) ^ 3 * (w - d.toReal) ^ 2) y := by
  have hsq := above_sq hy
  rw [down_of_nonneg (sq_nonneg _), fp64_u, fp64_η, sub_zero] at hsq
  cases d with
  | fin r =>
    cases res with
    | fin r' =>
      refine hsq.mono ?_
      have hrounds : |r' - (w + -r)| ≤ fp64.u * |w + -r| + fp64.η := And.left hres
      rw [fp64_u, fp64_η, add_zero, ← sub_eq_add_neg, abs_sub_comm] at hrounds
      have habs : (1 - 1 / 2 ^ 53) * |w - r| ≤ |r'| := by
        have htri := abs_sub_abs_le_abs_sub (w - r) r'
        linarith
      have hpow := pow_le_pow_left₀ (mul_nonneg (by norm_num) (abs_nonneg _)) habs 2
      rw [mul_pow, sq_abs, sq_abs] at hpow
      have hmul := mul_le_mul_of_nonneg_left hpow (by norm_num : (0 : ℝ) ≤ 1 - 1 / 2 ^ 53)
      show (1 - 1 / 2 ^ 53) ^ 3 * (w - r) ^ 2 ≤ (1 - 1 / 2 ^ 53) * r' ^ 2
      linarith
    | inf s =>
      obtain rfl := SetM.mem_run_pure.mp hy
      simp [Above]
    | nan =>
      obtain rfl := SetM.mem_run_pure.mp hy
      trivial
  | inf s =>
    obtain rfl := SetM.mem_run_pure.mp hres
    obtain rfl := SetM.mem_run_pure.mp hy
    simp [Above]
  | nan =>
    obtain rfl := SetM.mem_run_pure.mp hres
    obtain rfl := SetM.mem_run_pure.mp hy
    trivial

/-- The root of a sum of squares in fp64, before it is inflated. -/
theorem root64_above (h : Sums n order) (hn : n ≤ 5120) {f : ℕ → SetM Extended} {z : ℕ → ℝ}
    (hz : ∀ i, 0 ≤ z i)
    (hleaf : ∀ i, ∀ s ∈ (f i).run, Above ((1 - 1 / 2 ^ 53) ^ 3 * z i) s) {s : Extended}
    (hs : s ∈ (order.sum fp64 f).run) (hy : y ∈ (fp64.sqrt s).run) :
    Above ((1 - 1 / 2 ^ 41) * √(∑ i ∈ Finset.range n, z i)) y := by
  have hn' : (n : ℝ) ≤ 5120 := by exact_mod_cast hn
  have hn0 : (0 : ℝ) ≤ n := Nat.cast_nonneg n
  have hS : 0 ≤ ∑ i ∈ Finset.range n, z i := Finset.sum_nonneg fun i _ => hz i
  have h1 : Above ((1 - 3 / 2 ^ 43) ^ 2 * ∑ i ∈ Finset.range n, z i) s := by
    refine (SumTree.above_sum (e := 0) (z := fun i => (1 - 1 / 2 ^ 53) ^ 3 * z i)
      (fun i _ => mul_nonneg (by norm_num) (hz i)) le_rfl
      (fun i _ s hs => by simpa using hleaf i s hs) ?_ ?_ hs).mono ?_
    · rw [h.length_eq, fp64_u]
      linarith
    · rw [fp64_η, add_zero, mul_zero]
      exact top_pos
    · rw [h.length_eq, h.sum_eq, ← Finset.mul_sum, fp64_u, fp64_η, add_zero, mul_zero, sub_zero]
      have hfactor : (1 - 3 / 2 ^ 43 : ℝ) ^ 2 ≤ (1 - n * (1 / 2 ^ 53)) * (1 - 1 / 2 ^ 53) ^ 3 := by
        norm_num
        linarith
      have hmul := mul_le_mul_of_nonneg_right hfactor hS
      linarith
  have hsq := Real.sq_sqrt hS
  have hroot := Real.sqrt_nonneg (∑ i ∈ Finset.range n, z i)
  rw [← hsq, ← mul_pow] at h1
  have h2 := above_sqrt h1 hy
  rw [Real.sqrt_sq (mul_nonneg (by norm_num) hroot),
    down_of_nonneg (mul_nonneg (by norm_num) hroot), fp64_u, fp64_η] at h2
  refine h2.mono ?_
  norm_num
  linarith

/-- Inflated, it is no smaller than the exact one. -/
theorem infl64_above (ha : 0 ≤ a) (hp : Above ((1 - 1 / 2 ^ 41) * a) p)
    (hy : y ∈ (fp64.mul p (.fin infl64)).run) : Above a y := by
  have hinfl : (0 : ℝ) < infl64 := by norm_num [infl64]
  have hpos : 0 ≤ (1 - 1 / 2 ^ 41) * a := mul_nonneg (by norm_num) ha
  have hmul := above_mul hpos hinfl.le hp (show Above infl64 (.fin infl64) from le_rfl) hy
  rw [down_of_nonneg (mul_nonneg hpos hinfl.le), fp64_u, fp64_η] at hmul
  refine hmul.mono ?_
  norm_num [infl64]
  linarith

/-- **The entry of `rt` is no smaller than the residual norm** of the group. -/
theorem residualEntry_above (h : Sums n order) (hn : n ≤ 5120) {w : ℕ → ℝ} {d : ℕ → Extended}
    {isUnsafe : Prop} (hy : y ∈ (residualEntry order w d isUnsafe).run) :
    Above (√(∑ k ∈ Finset.range n, (w k - (d k).toReal) ^ 2)) y := by
  unfold residualEntry at hy
  obtain ⟨rg64, hrg64, hrest⟩ := SetM.mem_run_bind.mp hy
  obtain ⟨rg, hrg, hrt⟩ := SetM.mem_run_bind.mp hrest
  obtain ⟨s, hs, hrest⟩ := SetM.mem_run_bind.mp hrg64
  obtain ⟨root, hroot, hmul⟩ := SetM.mem_run_bind.mp hrest
  have h1 := root64_above h hn (z := fun k => (w k - (d k).toReal) ^ 2) (fun k => sq_nonneg _)
    (fun k s hs => by
      obtain ⟨res, hres, hsq⟩ := SetM.mem_run_bind.mp hs
      exact residualSq_above hres hsq) hs hroot
  have h2 := above_roundUp (infl64_above (Real.sqrt_nonneg _) h1 hmul) hrg
  refine above_roundUp ?_ hrt
  split_ifs
  · rfl
  · exact h2

theorem norm64_above (h : Sums n order) (hn : n ≤ 5120) (hy : y ∈ (norm64 order x).run) :
    Above ((1 - 1 / 2 ^ 41) * √(∑ k ∈ Finset.range n, (x k).toReal ^ 2)) y := by
  obtain ⟨s, hs, hroot⟩ := SetM.mem_run_bind.mp hy
  refine root64_above h hn (fun k => sq_nonneg _) (fun k s hs => ?_) hs hroot
  have hsq := above_sq hs
  rw [down_of_nonneg (sq_nonneg _), fp64_u, fp64_η, sub_zero] at hsq
  exact hsq.mono (mul_le_mul_of_nonneg_right (by norm_num) (sq_nonneg _))

/-- **The entry of `nv` is no smaller than either norm.** -/
theorem normEntry_above (h : Sums n order) (hn : n ≤ 5120) {w : ℕ → ℝ} {d : ℕ → Extended}
    (hy : y ∈ (normEntry order w d).run) :
    Above (max √(∑ k ∈ Finset.range n, w k ^ 2) √(∑ k ∈ Finset.range n, (d k).toReal ^ 2)) y := by
  unfold normEntry at hy
  obtain ⟨nw, hnw, hrest⟩ := SetM.mem_run_bind.mp hy
  obtain ⟨nd, hnd, hrest⟩ := SetM.mem_run_bind.mp hrest
  obtain ⟨nrm, hnrm, hup⟩ := SetM.mem_run_bind.mp hrest
  have hw := above_maximum_left (q := nd) (norm64_above h hn hnw)
  have hd := above_maximum_right (p := nw) (norm64_above h hn hnd)
  refine above_roundUp ?_ hup
  obtain hle | hle := le_total √(∑ k ∈ Finset.range n, w k ^ 2)
    √(∑ k ∈ Finset.range n, (d k).toReal ^ 2)
  · rw [max_eq_right hle]
    exact infl64_above (Real.sqrt_nonneg _) hd hnrm
  · rw [max_eq_left hle]
    exact infl64_above (Real.sqrt_nonneg _) hw hnrm

/-! ## The bound -/

section Bound

variable {xg rt : ℕ → Extended} {L R : ℕ → ℝ}

/-- The terms of the residual product, after the zero it starts from. -/
noncomputable def residualTerm (xg rt : ℕ → Extended) : ℕ → SetM Extended
  | 0 => pure (.fin 0)
  | g + 1 => fp32.mul (xg g) (rt g)

theorem residual_eq_comb (n : ℕ) :
    residual xg rt n = (SumTree.comb n).sum fp32 (residualTerm xg rt) := by
  induction n with
  | zero => rfl
  | succ n ih =>
    rw [residual, ih]
    rfl

/-- **The residual product is above the exact one** of lower bounds. -/
theorem residual_above (hn : n ≤ 40) (hL : ∀ g, 0 ≤ L g) (hR : ∀ g, 0 ≤ R g)
    (hx : ∀ g < n, Above (L g) (xg g)) (hr : ∀ g < n, Above (R g) (rt g))
    (hy : y ∈ (residual xg rt n).run) :
    Above ((1 - 3 / 2 ^ 20) * (∑ g ∈ Finset.range n, L g * R g) - 1 / 2 ^ 140) y := by
  have hn' : (n : ℝ) ≤ 40 := by exact_mod_cast hn
  have hn0 : (0 : ℝ) ≤ n := Nat.cast_nonneg n
  have hsums : Sums (n + 1) (SumTree.comb n) := by
    rw [Sums, SumTree.leaves_comb]
  have hLR : ∀ g, 0 ≤ L g * R g := fun g => mul_nonneg (hL g) (hR g)
  have hleaf : ∀ i ∈ (SumTree.comb n).leaves, ∀ s ∈ (residualTerm xg rt i).run,
      Above ((if i = 0 then 0 else (1 - 1 / 2 ^ 24) * (L (i - 1) * R (i - 1))) - 1 / 2 ^ 149) s :=
    fun i hi s hs => by
      cases i with
      | zero =>
        obtain rfl := SetM.mem_run_pure.mp hs
        show (0 : ℝ) - 1 / 2 ^ 149 ≤ 0
        norm_num
      | succ g =>
        rw [SumTree.leaves_comb, List.mem_range] at hi
        have hlt : g < n := Nat.lt_of_succ_lt_succ hi
        have hprod := above_mul (hL g) (hR g) (hx g hlt) (hr g hlt) hs
        rw [down_of_nonneg (hLR g), fp32_u, fp32_η] at hprod
        exact hprod
  rw [residual_eq_comb] at hy
  refine (SumTree.above_sum (fun i _ => ?_) (by norm_num) hleaf ?_ ?_ hy).mono ?_
  · split_ifs
    · exact le_rfl
    · exact mul_nonneg (by norm_num) (hLR _)
  · rw [hsums.length_eq, fp32_u]
    push_cast
    linarith
  · rw [hsums.length_eq, fp32_η, fp32_top]
    push_cast
    norm_num
    linarith
  · rw [hsums.length_eq, hsums.sum_eq, Finset.sum_range_succ', fp32_u, fp32_η]
    simp only [Nat.add_one_ne_zero, if_false, Nat.add_sub_cancel, if_true, add_zero]
    rw [← Finset.mul_sum]
    have hS : 0 ≤ ∑ g ∈ Finset.range n, L g * R g := Finset.sum_nonneg fun g _ => hLR g
    have hfactor : (1 - 3 / 2 ^ 20 : ℝ) ≤ (1 - (n + 1 : ℕ) * (1 / 2 ^ 24)) * (1 - 1 / 2 ^ 24) := by
      push_cast
      norm_num
      linarith
    have hmul := mul_le_mul_of_nonneg_right hfactor hS
    have habs : 4 * ((n + 1 : ℕ) : ℝ) * (1 / 2 ^ 149 + 1 / 2 ^ 149) ≤ 1 / 2 ^ 140 := by
      push_cast
      norm_num
      linarith
    linarith

theorem above_nanToInf (hp : Above a p) : Above a (nanToInf p) := by
  cases p with
  | fin r => exact hp
  | inf s => exact hp
  | nan => rfl

/-- **The bound is above what it stands for**: the residual product and the term of the
accumulations. -/
theorem screenB_above {K : ℕ} {xn nv : Extended} {V N : ℝ} (hn : n ≤ 40) (hK : 0 < cAcc K)
    (hK' : 2 * cAcc K ≤ 1) (hL : ∀ g, 0 ≤ L g) (hR : ∀ g, 0 ≤ R g)
    (hx : ∀ g < n, Above (L g) (xg g)) (hr : ∀ g < n, Above (R g) (rt g)) (hV : 0 ≤ V)
    (hN : 0 ≤ N) (hxn : Above V xn) (hnv : Above N nv)
    (hy : y ∈ (screenB n K xg rt xn nv).run) :
    Above ((∑ g ∈ Finset.range n, L g * R g) + 2 * cAcc K * (V * N) - 1 / 2 ^ 137) y := by
  obtain ⟨qb, hqb, hrest⟩ := SetM.mem_run_bind.mp hy
  obtain ⟨q, hq, hrest⟩ := SetM.mem_run_bind.mp hrest
  obtain ⟨n', hn', hrest⟩ := SetM.mem_run_bind.mp hrest
  obtain ⟨c, hc, hrest⟩ := SetM.mem_run_bind.mp hrest
  obtain ⟨sum, hsum, hrest⟩ := SetM.mem_run_bind.mp hrest
  obtain ⟨b, hb, hpure⟩ := SetM.mem_run_bind.mp hrest
  obtain rfl := SetM.mem_run_pure.mp hpure
  refine above_nanToInf ?_
  have h1 := residual_above hn hL hR hx hr hqb
  have hT : 0 ≤ ∑ g ∈ Finset.range n, L g * R g :=
    Finset.sum_nonneg fun g _ => mul_nonneg (hL g) (hR g)
  generalize ∑ g ∈ Finset.range n, L g * R g = T at h1 hT ⊢
  have hVN : 0 ≤ V * N := mul_nonneg hV hN
  have hk : 0 < 2 * cAcc K := by linarith
  generalize 2 * cAcc K = k at hc hk hK' ⊢
  have hZ : 0 ≤ k * (V * N) := mul_nonneg hk.le hVN
  -- the residual product, inflated
  have h2 : Above ((1 + 1 / 2 ^ 21) * T - 1 / 2 ^ 139) q := by
    have hinfl : (0 : ℝ) < inflQ := by norm_num [inflQ]
    have hsplit : ((1 - 3 / 2 ^ 20) * T - 1 / 2 ^ 140) * inflQ =
        (1 - 3 / 2 ^ 20) * inflQ * T - 1 / 2 ^ 140 * inflQ := by ring
    refine (above_mul_const hinfl (neg_top_lt ?_) h1 hq).mono ?_
    · norm_num [inflQ]
      linarith
    · rw [hsplit]
      refine le_down (mul_nonneg (by norm_num [inflQ]) hT) (by norm_num [inflQ]) ?_
      norm_num [inflQ]
      linarith
  -- the term of the accumulations
  have h3 : Above ((1 - 1 / 2 ^ 22) * (k * (V * N)) - 1 / 2 ^ 147) c := by
    have hprod := above_mul hV hN hxn hnv hn'
    rw [down_of_nonneg hVN, fp32_u, fp32_η] at hprod
    rw [FloatModel.mul_comm] at hc
    have hsplit : ((1 - 1 / 2 ^ 24) * (V * N) - 1 / 2 ^ 149) * k =
        (1 - 1 / 2 ^ 24) * (k * (V * N)) - 1 / 2 ^ 149 * k := by ring
    refine (above_mul_const hk (neg_top_lt ?_) hprod hc).mono ?_
    · rw [hsplit]
      norm_num
      linarith
    · rw [hsplit]
      refine le_down (mul_nonneg (by norm_num) hZ) (mul_nonneg (by norm_num) hk.le) ?_
      norm_num
      linarith
  generalize k * (V * N) = Z at hZ h3 ⊢
  -- their sum, inflated
  have h4 : Above ((1 + 3 / 2 ^ 23) * T + (1 - 3 / 2 ^ 23) * Z - 1 / 2 ^ 138) sum := by
    have hsplit : (1 + 1 / 2 ^ 21) * T - 1 / 2 ^ 139 + ((1 - 1 / 2 ^ 22) * Z - 1 / 2 ^ 147) =
        ((1 + 1 / 2 ^ 21) * T + (1 - 1 / 2 ^ 22) * Z) - (1 / 2 ^ 139 + 1 / 2 ^ 147) := by ring
    refine (above_add h2 h3 (neg_top_lt ?_) hsum).mono ?_
    · norm_num
      linarith
    · rw [hsplit]
      refine le_down (add_nonneg (mul_nonneg (by norm_num) hT) (mul_nonneg (by norm_num) hZ))
        (by norm_num) ?_
      norm_num
      linarith
  have hinfl : (0 : ℝ) < inflB := by norm_num [inflB]
  have hsplit : ((1 + 3 / 2 ^ 23) * T + (1 - 3 / 2 ^ 23) * Z - 1 / 2 ^ 138) * inflB =
      ((1 + 3 / 2 ^ 23) * inflB * T + (1 - 3 / 2 ^ 23) * inflB * Z) - 1 / 2 ^ 138 * inflB := by
    ring
  refine (above_mul_const hinfl (neg_top_lt ?_) h4 hb).mono ?_
  · norm_num [inflB]
    linarith
  · rw [hsplit]
    refine le_down (add_nonneg (mul_nonneg (by norm_num [inflB]) hT)
      (mul_nonneg (by norm_num [inflB]) hZ)) (by norm_num [inflB]) ?_
    norm_num [inflB]
    linarith

end Bound

/-! ## The slop -/

/-- **The slop pays for the last two operations**: a bound that is above `E` up to underflow is
enough to raise the accumulation by `E`. -/
theorem slop_above {E : ℝ} {b mag rel slop s hi : Extended} (hE : 0 ≤ E) (ha : |a| ≤ fp32.max)
    (hb : Above (E - 1 / 2 ^ 137) b) (hmag : mag ∈ (fp32.add (.fin |a|) b).run)
    (hrel : rel ∈ (fp32.mul mag (.fin slopRel)).run)
    (hslop : slop ∈ (fp32.add rel (.fin slopAbs)).run) (hs : s ∈ (fp32.add (.fin a) b).run)
    (hhi : hi ∈ (fp32.add s slop).run) : Above (a + E) hi := by
  have htop := fp32.max_lt_top
  have hmagnitude : (0 : ℝ) ≤ |a| := abs_nonneg a
  have hlow := neg_abs_le a
  have hupp := le_abs_self a
  -- the slop, in terms of the sum of the magnitudes
  have h1 : Above ((1 - 1 / 2 ^ 24) * (|a| + E) - 1 / 2 ^ 136) mag := by
    have hsplit : |a| + (E - 1 / 2 ^ 137) = (|a| + E) - 1 / 2 ^ 137 := by ring
    refine (above_add (show Above |a| (.fin |a|) from le_rfl) hb (neg_top_lt ?_) hmag).mono ?_
    · norm_num
      linarith
    · rw [hsplit]
      refine le_down (by linarith) (by norm_num) ?_
      norm_num
      linarith
  have h2 : Above ((1 - 1 / 2 ^ 23) / 2 ^ 22 * (|a| + E) - 1 / 2 ^ 148) rel := by
    have hpos : (0 : ℝ) < slopRel := by norm_num [slopRel]
    have hsplit : ((1 - 1 / 2 ^ 24) * (|a| + E) - 1 / 2 ^ 136) * slopRel =
        (1 - 1 / 2 ^ 24) * slopRel * (|a| + E) - 1 / 2 ^ 136 * slopRel := by ring
    refine (above_mul_const hpos (neg_top_lt ?_) h1 hrel).mono ?_
    · norm_num [slopRel]
      linarith
    · rw [hsplit]
      refine le_down (mul_nonneg (by norm_num [slopRel]) (by linarith)) (by norm_num [slopRel]) ?_
      norm_num [slopRel]
      linarith
  have h3 : Above ((1 - 1 / 2 ^ 22) / 2 ^ 22 * (|a| + E) + 1 / 2 ^ 127) slop := by
    have hsplit : (1 - 1 / 2 ^ 23) / 2 ^ 22 * (|a| + E) - 1 / 2 ^ 148 + slopAbs =
        ((1 - 1 / 2 ^ 23) / 2 ^ 22 * (|a| + E) + slopAbs) - 1 / 2 ^ 148 := by ring
    refine (above_add h2 (show Above slopAbs (.fin slopAbs) from le_rfl) (neg_top_lt ?_)
      hslop).mono ?_
    · norm_num [slopAbs]
      linarith
    · rw [hsplit]
      refine le_down (by norm_num [slopAbs]; linarith) (by norm_num) ?_
      norm_num [slopAbs]
      linarith
  have hslop0 : 0 ≤ (1 - 1 / 2 ^ 22) / 2 ^ 22 * (|a| + E) + 1 / 2 ^ 127 := by
    norm_num
    linarith
  -- the sum, before the slop
  have h4 : Above (a + E - 1 / 2 ^ 24 * (|a| + E) - 1 / 2 ^ 136) s := by
    have hdom : -fp32.top < a + (E - 1 / 2 ^ 137) := by
      rw [fp32_top]
      have hmax : |a| ≤ 2 ^ 128 - 2 ^ 104 := ha
      norm_num at hmax ⊢
      linarith
    refine (above_add (show Above a (.fin a) from le_rfl) hb hdom hs).mono ?_
    have habs : |a + (E - 1 / 2 ^ 137)| ≤ |a| + E + 1 / 2 ^ 137 := by
      rw [abs_le]
      constructor
      · norm_num
        linarith
      · norm_num
        linarith
    rw [down, fp32_u, fp32_η]
    norm_num at habs ⊢
    linarith
  have hmax := above_neg_max h4 hs
  refine (above_add_of_nonneg h4 hmax hslop0 h3 hhi).mono ?_
  have habs : |a + E - 1 / 2 ^ 24 * (|a| + E) - 1 / 2 ^ 136 +
      ((1 - 1 / 2 ^ 22) / 2 ^ 22 * (|a| + E) + 1 / 2 ^ 127)| ≤
      (1 + 1 / 2 ^ 21) * (|a| + E) + 1 / 2 ^ 126 := by
    rw [abs_le]
    constructor
    · norm_num
      linarith
    · norm_num
      linarith
  rw [down, fp32_u, fp32_η]
  norm_num at habs ⊢
  linarith

end CertBounds
