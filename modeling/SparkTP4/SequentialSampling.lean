import Mathlib.Algebra.BigOperators.Field
import Mathlib.Algebra.Order.BigOperators.Ring.Finset
import Mathlib.Data.Real.Basic
import Mathlib.Tactic.Linarith

/-!
# Sequences sampled token by token

A *conditional* gives, for every sequence of tokens so far, a weight for each
next token. Sampling `n` tokens one after another from it turns a function of
the sequence into its expectation, and gives every sequence the product of
the conditional weights along it. The laws collected here are those of
expectations over such runs: constants, linearity, and the rule that fixing
the first tokens of the run multiplies by their weight and leaves the
expectation over the rest.
-/

namespace SequentialSampling

variable {V : Type} [Fintype V]

/-- A family of conditional distributions. -/
structure IsConditional (q : List V → V → ℝ) : Prop where
  nonneg : ∀ x v, 0 ≤ q x v
  sum_one : ∀ x, ∑ v, q x v = 1

/-- The expectation of `f` over the sequence that continues `x` by `n` tokens
sampled from `q`. -/
def expect (q : List V → V → ℝ) : ℕ → List V → (List V → ℝ) → ℝ
  | 0, x, f => f x
  | n + 1, x, f => ∑ v, q x v * expect q n (x ++ [v]) f

omit [Fintype V] in
/-- The weight of the continuation `y` of `x`. -/
def pathProb (q : List V → V → ℝ) : List V → List V → ℝ
  | _, [] => 1
  | x, v :: y => q x v * pathProb q (x ++ [v]) y

variable {q : List V → V → ℝ}

omit [Fintype V] in
/-- The weights of adjacent stretches multiply. -/
theorem pathProb_append (x y z : List V) :
    pathProb q x (y ++ z) = pathProb q x y * pathProb q (x ++ y) z := by
  induction y generalizing x with
  | nil => rw [List.nil_append, pathProb, one_mul, List.append_nil]
  | cons v y ih =>
    rw [List.cons_append, pathProb, ih, pathProb, List.append_assoc, List.singleton_append,
      mul_assoc]

omit [Fintype V] in
/-- One more token multiplies by its weight. -/
theorem pathProb_append_singleton (x y : List V) (v : V) :
    pathProb q x (y ++ [v]) = pathProb q x y * q (x ++ y) v := by
  rw [pathProb_append, pathProb, pathProb, mul_one]

/-- Weights are not negative. -/
theorem IsConditional.pathProb_nonneg (hq : IsConditional q) (x y : List V) :
    0 ≤ pathProb q x y := by
  induction y generalizing x with
  | nil => exact zero_le_one
  | cons v y ih => exact mul_nonneg (hq.nonneg x v) (ih _)

/-- Some next token has positive weight. -/
theorem IsConditional.exists_pos (hq : IsConditional q) (x : List V) : ∃ v, 0 < q x v := by
  by_contra hnone
  push Not at hnone
  have hsum : ∑ v, q x v ≤ 0 := Finset.sum_nonpos fun v _ => hnone v
  linarith [hq.sum_one x]

/-- Every run can be continued with positive weight. -/
theorem IsConditional.exists_path (hq : IsConditional q) (n : ℕ) (x : List V) :
    ∃ z, z.length = n ∧ 0 < pathProb q x z := by
  induction n generalizing x with
  | zero => exact ⟨[], rfl, zero_lt_one⟩
  | succ n ih =>
    obtain ⟨v, hv⟩ := hq.exists_pos x
    obtain ⟨z, hz, hpos⟩ := ih (x ++ [v])
    exact ⟨v :: z, by rw [List.length_cons, hz], mul_pos hv hpos⟩

/-- The expectation depends on the function at the runs' ends alone. -/
theorem expect_congr {n : ℕ} {x : List V} {f g : List V → ℝ}
    (h : ∀ z, z.length = n → f (x ++ z) = g (x ++ z)) : expect q n x f = expect q n x g := by
  induction n generalizing x with
  | zero =>
    have hnil := h [] rfl
    rwa [List.append_nil] at hnil
  | succ n ih =>
    refine Finset.sum_congr rfl fun v _ => ?_
    rw [ih fun z hz => ?_]
    rw [List.append_assoc]
    exact h (v :: z) (by rw [List.length_cons, hz])

/-- Runs of weight zero do not matter to the expectation. -/
theorem IsConditional.expect_congr_of_pos (hq : IsConditional q) {n : ℕ} {x : List V}
    {f g : List V → ℝ}
    (h : ∀ z, z.length = n → 0 < pathProb q x z → f (x ++ z) = g (x ++ z)) :
    expect q n x f = expect q n x g := by
  induction n generalizing x with
  | zero =>
    have hnil := h [] rfl zero_lt_one
    rwa [List.append_nil] at hnil
  | succ n ih =>
    refine Finset.sum_congr rfl fun v _ => ?_
    obtain hzero | hpos := (hq.nonneg x v).eq_or_lt
    · rw [← hzero, zero_mul, zero_mul]
    · rw [ih fun z hz hz' => ?_]
      rw [List.append_assoc]
      exact h (v :: z) (by rw [List.length_cons, hz]) (mul_pos hpos hz')

/-- A factor comes out of the expectation. -/
theorem expect_mul_left (n : ℕ) (x : List V) (c : ℝ) (f : List V → ℝ) :
    expect q n x (fun X => c * f X) = c * expect q n x f := by
  induction n generalizing x with
  | zero => rfl
  | succ n ih =>
    rw [expect, expect, Finset.mul_sum]
    refine Finset.sum_congr rfl fun v _ => ?_
    rw [ih, mul_left_comm]

/-- A sum comes out of the expectation. -/
theorem expect_sum {ι : Type} (s : Finset ι) (n : ℕ) (x : List V) (f : ι → List V → ℝ) :
    expect q n x (fun X => ∑ t ∈ s, f t X) = ∑ t ∈ s, expect q n x (f t) := by
  induction n generalizing x with
  | zero => rfl
  | succ n ih =>
    simp only [expect, ih, Finset.mul_sum]
    rw [Finset.sum_comm]

/-- The expectation of zero. -/
theorem expect_zero (n : ℕ) (x : List V) : expect q n x (fun _ => 0) = 0 := by
  have h := expect_mul_left (q := q) n x 0 (fun _ => 0)
  simpa only [zero_mul] using h

/-- **Fixing the first tokens of the run** multiplies by their weight, and
leaves the expectation over the rest. -/
theorem expect_prefix [DecidableEq V] (f : List V → ℝ) {n : ℕ} {x y : List V}
    (hy : y.length ≤ n) :
    expect q n x (fun X => if X.take (x.length + y.length) = x ++ y then f X else 0)
      = pathProb q x y * expect q (n - y.length) (x ++ y) f := by
  induction y generalizing n x with
  | nil =>
    rw [pathProb, one_mul, List.append_nil]
    exact expect_congr fun z _ => if_pos (by simp)
  | cons v y ih =>
    obtain ⟨n, rfl⟩ : ∃ m, n = m + 1 := ⟨n - 1, by rw [List.length_cons] at hy; omega⟩
    rw [List.length_cons] at hy
    have hlen : x.length + (v :: y).length = (x ++ [v]).length + y.length := by
      simp only [List.length_cons, List.length_append, List.length_nil]
      omega
    have happ : x ++ v :: y = (x ++ [v]) ++ y := by
      rw [List.append_assoc, List.singleton_append]
    rw [expect, Finset.sum_eq_single v, hlen, happ, ih (by omega), pathProb, mul_assoc,
      List.length_cons, Nat.add_sub_add_right]
    · -- a run that starts with another token never has the prefix
      intro u _ hu
      have hzero : ∀ z, z.length = n →
          (if (x ++ [u] ++ z).take (x.length + (v :: y).length) = x ++ v :: y
            then f (x ++ [u] ++ z) else 0) = 0 := by
        intro z _
        refine if_neg fun htake => hu ?_
        have hhead := congrArg (fun l => l[x.length]?) htake
        simpa using hhead
      have hvanish : expect q n (x ++ [u]) (fun X =>
          if X.take (x.length + (v :: y).length) = x ++ v :: y then f X else 0)
            = expect q n (x ++ [u]) (fun _ => 0) :=
        expect_congr hzero
      rw [hvanish, expect_zero, mul_zero]
    · exact fun h => absurd (Finset.mem_univ v) h

/-- A constant is its own expectation. -/
theorem IsConditional.expect_const (hq : IsConditional q) (n : ℕ) (x : List V) (c : ℝ) :
    expect q n x (fun _ => c) = c := by
  induction n generalizing x with
  | zero => rfl
  | succ n ih => simp only [expect, ih, ← Finset.sum_mul, hq.sum_one, one_mul]

end SequentialSampling
