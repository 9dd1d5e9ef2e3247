import Mathlib.Algebra.BigOperators.Group.List.Basic
import Mathlib.Algebra.Order.Ring.Pow
import Mathlib.Analysis.Real.Sqrt
import Mathlib.Data.Set.Functor
import Mathlib.Tactic.Linarith
import Mathlib.Tactic.NormNum
import Mathlib.Tactic.Positivity

/-!
# The standard model of floating-point arithmetic

An operation returns any number within a relative error `u` and an underflow error `η`
of the exact result, or an infinity of its sign where that is out of range. So an
operation is a set of results, a program a `SetM` block, and a theorem about all its
results holds however the operations round. Infinities and NaN follow IEEE 754.

A result is *above* a number if it is no smaller, `+∞` or NaN: everything but a smaller
number and `-∞`. Lower bounds pass through the operations in this form, whatever
overflowed on the way; `IsFinite` tells afterwards that nothing did.
-/

/-- A result of a `SetM` block, step by step. -/
theorem SetM.mem_run_bind {α β : Type} {s : SetM α} {f : α → SetM β} {b : β} :
    b ∈ (s >>= f).run ↔ ∃ a ∈ s.run, b ∈ (f a).run := by
  show b ∈ ⋃ a ∈ s.run, (f a).run ↔ _
  simp only [Set.mem_iUnion, exists_prop]

theorem SetM.mem_run_pure {α : Type} {a b : α} : b ∈ (pure a : SetM α).run ↔ b = a := Iff.rfl

/-- A floating-point number: a real one, an infinity or NaN. -/
inductive Extended where
  | fin (r : ℝ)
  | inf (neg : Bool)
  | nan

namespace Extended

def IsFinite : Extended → Prop
  | fin _ => True
  | _ => False

def toReal : Extended → ℝ
  | fin r => r
  | _ => 0

def neg : Extended → Extended
  | fin r => fin (-r)
  | inf s => inf !s
  | nan => nan

def abs : Extended → Extended
  | fin r => fin |r|
  | inf _ => inf false
  | nan => nan

/-- The comparison of IEEE 754, false with a NaN. -/
def Le : Extended → Extended → Prop
  | fin a, fin b => a ≤ b
  | fin _, inf s => s = false
  | inf s, fin _ => s = true
  | inf s, inf s' => s = true ∨ s' = false
  | _, _ => False

/-- No smaller than a number, or NaN. -/
def Above (b : ℝ) : Extended → Prop
  | fin r => b ≤ r
  | inf s => s = false
  | nan => True

variable {p : Extended} {a b : ℝ}

theorem isFinite_iff : p.IsFinite ↔ p = fin p.toReal := by
  cases p with
  | fin r => exact ⟨fun _ => rfl, fun _ => trivial⟩
  | inf s => exact ⟨fun h => h.elim, fun h => nomatch h⟩
  | nan => exact ⟨fun h => h.elim, fun h => nomatch h⟩

theorem Above.mono (h : Above b p) (hab : a ≤ b) : Above a p := by
  cases p with
  | fin r => exact le_trans hab h
  | inf s => exact h
  | nan => trivial

theorem Above.max (ha : Above a p) (hb : Above b p) : Above (Max.max a b) p := by
  obtain h | h := le_total a b
  · rwa [max_eq_right h]
  · rwa [max_eq_left h]

theorem Le.le_posInf {q : Extended} (h : p.Le q) : p.Le (inf false) := by
  cases p with
  | fin r => rfl
  | inf s => exact .inr rfl
  | nan => exact h.elim

theorem Le.negInf_le {q : Extended} (h : p.Le q) : (inf true).Le q := by
  cases q with
  | fin r => rfl
  | inf s => exact .inl rfl
  | nan => cases p <;> exact h.elim

protected theorem neg_neg (p : Extended) : p.neg.neg = p := by
  cases p with
  | fin r => exact congrArg fin (by ring)
  | inf s => exact congrArg inf (Bool.not_not s)
  | nan => rfl

end Extended

open Extended

/-- A format: the relative error, the underflow error, the largest number and the one from which
on results overflow. -/
structure FloatModel where
  u : ℝ
  η : ℝ
  max : ℝ
  top : ℝ
  u_nonneg : 0 ≤ u
  u_le : u ≤ 1 / 2
  η_nonneg : 0 ≤ η
  max_nonneg : 0 ≤ max
  max_lt_top : max < top

namespace FloatModel

variable (M : FloatModel)

/-! ## Operations -/

/-- What the exact result `z` may be rounded to. -/
def Rounds (z : ℝ) : Extended → Prop
  | .fin r => |r - z| ≤ M.u * |z| + M.η ∧ |r| ≤ M.max
  | .inf false => M.top ≤ z
  | .inf true => M.top ≤ -z
  | .nan => False

def round (z : ℝ) : SetM Extended := {y | M.Rounds z y}

def add : Extended → Extended → SetM Extended
  | .fin p, .fin q => M.round (p + q)
  | .fin _, .inf s => pure (.inf s)
  | .inf s, .fin _ => pure (.inf s)
  | .inf s, .inf s' => pure (if s = s' then .inf s else .nan)
  | _, _ => pure .nan

def sub (p q : Extended) : SetM Extended := M.add p q.neg

/-- An infinity times a number. -/
noncomputable def scaleInf (s : Bool) (q : ℝ) : Extended :=
  if q = 0 then .nan else .inf (s ^^ decide (q < 0))

noncomputable def mul : Extended → Extended → SetM Extended
  | .fin p, .fin q => M.round (p * q)
  | .fin p, .inf s => pure (scaleInf s p)
  | .inf s, .fin q => pure (scaleInf s q)
  | .inf s, .inf s' => pure (.inf (s ^^ s'))
  | _, _ => pure .nan

noncomputable def sqrt : Extended → SetM Extended
  | .fin p => if p < 0 then pure .nan else M.round √p
  | .inf s => pure (if s then .nan else .inf false)
  | .nan => pure .nan

variable {M} {p q y : Extended} {a b z w : ℝ}

/-! ## Exact results

An exact result in range is one of those an operation may have. -/

theorem fin_mem_round (h : |z| ≤ M.max) : Extended.fin z ∈ (M.round z).run := by
  refine ⟨?_, h⟩
  rw [sub_self, abs_zero]
  exact add_nonneg (mul_nonneg M.u_nonneg (abs_nonneg z)) M.η_nonneg

theorem fin_mem_add (h : |a + b| ≤ M.max) : Extended.fin (a + b) ∈ (M.add (.fin a) (.fin b)).run :=
  fin_mem_round h

theorem fin_mem_mul (h : |a * b| ≤ M.max) : Extended.fin (a * b) ∈ (M.mul (.fin a) (.fin b)).run :=
  fin_mem_round h

theorem fin_mem_sqrt (ha : 0 ≤ a) (h : |√a| ≤ M.max) :
    Extended.fin √a ∈ (M.sqrt (.fin a)).run := by
  show Extended.fin √a ∈ (if a < 0 then pure .nan else M.round √a : SetM Extended).run
  rw [if_neg (not_lt.mpr ha)]
  exact fin_mem_round h

/-! ## Lower bounds -/

/-- The least number `z` is rounded to. -/
def down (M : FloatModel) (z : ℝ) : ℝ := z - M.u * |z| - M.η

theorem top_pos : 0 < M.top := M.max_nonneg.trans_lt M.max_lt_top

theorem down_of_nonneg (hz : 0 ≤ z) : M.down z = (1 - M.u) * z - M.η := by
  rw [down, abs_of_nonneg hz]
  ring

theorem down_mono (h : w ≤ z) : M.down w ≤ M.down z := by
  have hu := M.u_nonneg
  have hle := M.u_le
  have habs : |z| ≤ |w| + (z - w) := by
    have := abs_sub_abs_le_abs_sub z w
    rw [abs_of_nonneg (by linarith : 0 ≤ z - w)] at this
    linarith
  have hmul := mul_le_mul_of_nonneg_left habs hu
  unfold down
  nlinarith

/-- A difference of positive parts is rounded down part by part. -/
theorem down_sub_ge (ha : 0 ≤ a) (hb : 0 ≤ b) :
    (1 - M.u) * a - (1 + M.u) * b - M.η ≤ M.down (a - b) := by
  have habs : |a - b| ≤ a + b := by
    rw [abs_le]
    constructor
    · linarith
    · linarith
  have hmul := mul_le_mul_of_nonneg_left habs M.u_nonneg
  unfold down
  linarith

theorem above_round (hwz : w ≤ z) (hw : -M.top < w) (hy : y ∈ (M.round z).run) :
    Above (M.down w) y := by
  have hrounds : M.Rounds z y := hy
  cases y with
  | fin r =>
    have herr := abs_le.mp hrounds.1
    refine (down_mono hwz).trans ?_
    show z - M.u * |z| - M.η ≤ r
    linarith
  | inf s =>
    cases s with
    | false => rfl
    | true =>
      have hover : M.top ≤ -z := hrounds
      linarith
  | nan => trivial

/-- **A sum is above the sum of the bounds**, rounded. -/
theorem above_add (hp : Above a p) (hq : Above b q) (htop : -M.top < a + b)
    (hy : y ∈ (M.add p q).run) : Above (M.down (a + b)) y := by
  cases p with
  | fin r =>
    cases q with
    | fin r' => exact above_round (add_le_add hp hq) htop hy
    | inf s =>
      obtain rfl := SetM.mem_run_pure.mp hy
      exact hq
    | nan =>
      obtain rfl := SetM.mem_run_pure.mp hy
      trivial
  | inf s =>
    have hs : s = false := hp
    subst hs
    cases q with
    | fin r' =>
      obtain rfl := SetM.mem_run_pure.mp hy
      rfl
    | inf s =>
      have hs : s = false := hq
      subst hs
      obtain rfl := SetM.mem_run_pure.mp hy
      rfl
    | nan =>
      obtain rfl := SetM.mem_run_pure.mp hy
      trivial
  | nan =>
    obtain rfl : y = .nan := by cases q <;> exact SetM.mem_run_pure.mp hy
    trivial

/-- A sum that is not `-∞` is no smaller than the least number. -/
theorem above_neg_max (hp : Above a y) (hy : y ∈ (M.add p q).run) : Above (-M.max) y := by
  cases y with
  | fin r =>
    cases p <;> cases q
    case fin.fin r' r'' =>
      have hrounds : M.Rounds (r' + r'') (.fin r) := hy
      exact (abs_le.mp hrounds.2).1
    case inf.inf s s' =>
      have hpure := SetM.mem_run_pure.mp hy
      split_ifs at hpure
    all_goals exact nomatch SetM.mem_run_pure.mp hy
  | inf s => exact hp
  | nan => trivial

/-- A sum with a nonnegative number: only a number is rounded down. -/
theorem above_add_of_nonneg (hp : Above a p) (hmax : Above (-M.max) p) (hb : 0 ≤ b)
    (hq : Above b q) (hy : y ∈ (M.add p q).run) : Above (M.down (a + b)) y := by
  have htop := M.max_lt_top
  have hle := le_max_right a (-M.max)
  refine (above_add (hp.max hmax) hq (by linarith) hy).mono (down_mono ?_)
  exact add_le_add_left (le_max_left a _) b

theorem above_scaleInf (hq : 0 ≤ b) : Above w (scaleInf false b) := by
  unfold scaleInf
  split_ifs with hzero
  · trivial
  · simp [Above, not_lt.mpr hq]

/-- **A product is above the product of the bounds**, rounded. -/
theorem above_mul (ha : 0 ≤ a) (hb : 0 ≤ b) (hp : Above a p) (hq : Above b q)
    (hy : y ∈ (M.mul p q).run) : Above (M.down (a * b)) y := by
  have hab := mul_nonneg ha hb
  have htop := top_pos (M := M)
  cases p with
  | fin r =>
    have hr : a ≤ r := hp
    cases q with
    | fin r' =>
      have hr' : b ≤ r' := hq
      exact above_round (mul_le_mul hr hr' hb (ha.trans hr)) (by linarith) hy
    | inf s =>
      have hs : s = false := hq
      subst hs
      obtain rfl := SetM.mem_run_pure.mp hy
      exact above_scaleInf (ha.trans hr)
    | nan =>
      obtain rfl := SetM.mem_run_pure.mp hy
      trivial
  | inf s =>
    have hs : s = false := hp
    subst hs
    cases q with
    | fin r' =>
      obtain rfl := SetM.mem_run_pure.mp hy
      exact above_scaleInf (hb.trans hq)
    | inf s =>
      have hs : s = false := hq
      subst hs
      obtain rfl := SetM.mem_run_pure.mp hy
      rfl
    | nan =>
      obtain rfl := SetM.mem_run_pure.mp hy
      trivial
  | nan =>
    obtain rfl : y = .nan := by cases q <;> exact SetM.mem_run_pure.mp hy
    trivial

/-- The product with a positive number, whatever the sign of the bound. -/
theorem above_mul_const (hb : 0 < b) (htop : -M.top < a * b) (hp : Above a p)
    (hy : y ∈ (M.mul p (.fin b)).run) : Above (M.down (a * b)) y := by
  cases p with
  | fin r => exact above_round (mul_le_mul_of_nonneg_right hp hb.le) htop hy
  | inf s =>
    have hs : s = false := hp
    subst hs
    obtain rfl := SetM.mem_run_pure.mp hy
    exact above_scaleInf hb.le
  | nan =>
    obtain rfl := SetM.mem_run_pure.mp hy
    trivial

/-- A square. -/
theorem above_sq (hy : y ∈ (M.mul p p).run) : Above (M.down (p.toReal ^ 2)) y := by
  have htop := top_pos (M := M)
  cases p with
  | fin r =>
    refine above_round (le_of_eq (sq r)) ?_ hy
    have := sq_nonneg r
    show -M.top < r ^ 2
    linarith
  | inf s =>
    obtain rfl := SetM.mem_run_pure.mp hy
    simp [Above]
  | nan =>
    obtain rfl := SetM.mem_run_pure.mp hy
    trivial

theorem above_sqrt (hp : Above a p) (hy : y ∈ (M.sqrt p).run) : Above (M.down √a) y := by
  have htop := top_pos (M := M)
  have hroot := Real.sqrt_nonneg a
  cases p with
  | fin r =>
    have hroot' : y ∈ (if r < 0 then pure .nan else M.round √r : SetM Extended).run := hy
    split_ifs at hroot' with hneg
    · obtain rfl := SetM.mem_run_pure.mp hroot'
      trivial
    · exact above_round (Real.sqrt_le_sqrt hp) (by linarith) hroot'
  | inf s =>
    have hs : s = false := hp
    subst hs
    obtain rfl := SetM.mem_run_pure.mp hy
    rfl
  | nan =>
    obtain rfl := SetM.mem_run_pure.mp hy
    trivial

/-! ## Finite results

An operation whose result is finite had finite operands. -/

theorem isFinite_of_add (h : y.IsFinite) (hy : y ∈ (M.add p q).run) :
    p.IsFinite ∧ q.IsFinite := by
  cases p <;> cases q
  case fin.fin => exact ⟨trivial, trivial⟩
  case inf.inf s s' =>
    obtain rfl := SetM.mem_run_pure.mp hy
    by_cases hs : s = s'
    · rw [if_pos hs] at h
      exact h.elim
    · rw [if_neg hs] at h
      exact h.elim
  all_goals
    obtain rfl := SetM.mem_run_pure.mp hy
    exact h.elim

theorem not_isFinite_scaleInf (s : Bool) (r : ℝ) : ¬(scaleInf s r).IsFinite := by
  unfold scaleInf
  split_ifs
  · exact id
  · exact id

theorem isFinite_of_mul (h : y.IsFinite) (hy : y ∈ (M.mul p q).run) :
    p.IsFinite ∧ q.IsFinite := by
  cases p <;> cases q
  case fin.fin => exact ⟨trivial, trivial⟩
  case fin.inf =>
    obtain rfl := SetM.mem_run_pure.mp hy
    exact absurd h (not_isFinite_scaleInf _ _)
  case inf.fin =>
    obtain rfl := SetM.mem_run_pure.mp hy
    exact absurd h (not_isFinite_scaleInf _ _)
  all_goals
    obtain rfl := SetM.mem_run_pure.mp hy
    exact h.elim

theorem isFinite_of_sqrt (h : y.IsFinite) (hy : y ∈ (M.sqrt p).run) : p.IsFinite := by
  cases p with
  | fin r => trivial
  | inf s =>
    obtain rfl := SetM.mem_run_pure.mp hy
    cases s <;> exact h
  | nan =>
    obtain rfl := SetM.mem_run_pure.mp hy
    exact h

theorem isFinite_of_neg (h : p.neg.IsFinite) : p.IsFinite := by
  cases p <;> exact h

/-! ## Symmetries -/

protected theorem mul_comm (p q : Extended) : M.mul p q = M.mul q p := by
  cases p <;> cases q
  case fin.fin r r' =>
    show M.round (r * r') = M.round (r' * r)
    rw [show r * r' = r' * r by ring]
  case inf.inf s s' =>
    show (pure (Extended.inf (s ^^ s')) : SetM Extended) = pure (Extended.inf (s' ^^ s))
    rw [Bool.xor_comm]
  all_goals rfl

theorem neg_mem_round (hy : y ∈ (M.round z).run) : y.neg ∈ (M.round (-z)).run := by
  have hrounds : M.Rounds z y := hy
  show M.Rounds (-z) y.neg
  cases y with
  | fin r =>
    obtain ⟨herr, hmax⟩ := hrounds
    refine ⟨?_, by rwa [abs_neg]⟩
    rwa [abs_neg, neg_sub_neg, abs_sub_comm]
  | inf s =>
    cases s with
    | false =>
      show M.top ≤ - -z
      rwa [neg_neg]
    | true => exact hrounds
  | nan => exact hrounds

/-- The sum of the negated numbers. -/
theorem neg_mem_add (hy : y ∈ (M.add p q).run) : y.neg ∈ (M.add p.neg q.neg).run := by
  cases p <;> cases q
  case fin.fin r r' =>
    have hneg := neg_mem_round (M := M) (z := r + r') hy
    rwa [neg_add] at hneg
  case inf.inf s s' =>
    obtain rfl := SetM.mem_run_pure.mp hy
    cases s <;> cases s' <;> rfl
  all_goals
    obtain rfl := SetM.mem_run_pure.mp hy
    rfl

/-- With `+∞` for one summand. -/
theorem above_inf_add (hq : Above b q) (hy : y ∈ (M.add (.inf false) q).run) (a : ℝ) :
    Above a y := by
  cases q with
  | fin r =>
    obtain rfl := SetM.mem_run_pure.mp hy
    rfl
  | inf s =>
    have hs : s = false := hq
    subst hs
    obtain rfl := SetM.mem_run_pure.mp hy
    rfl
  | nan =>
    obtain rfl := SetM.mem_run_pure.mp hy
    trivial

/-! ## Formats -/

/-- The literal `2` of the formats and of the bounds. -/
theorem two_atLeastTwo : Nat.AtLeastTwo 2 := inferInstance

attribute [local instance] two_atLeastTwo

theorem two_pow_24_le : (1 : ℝ) / 2 ^ 24 ≤ 1 / 2 := by norm_num

theorem two_pow_53_le : (1 : ℝ) / 2 ^ 53 ≤ 1 / 2 := by norm_num

/-- IEEE binary32. -/
noncomputable def fp32 : FloatModel where
  u := 1 / 2 ^ 24
  η := 1 / 2 ^ 149
  max := 2 ^ 128 - 2 ^ 104
  top := 2 ^ 128 - 2 ^ 103
  u_nonneg := by norm_num
  u_le := two_pow_24_le
  η_nonneg := by norm_num
  max_nonneg := sub_nonneg.mpr (pow_le_pow_right₀ one_le_two (by norm_num))
  max_lt_top := sub_lt_sub_left (pow_lt_pow_right₀ one_lt_two (by norm_num)) _

@[simp] theorem fp32_u : fp32.u = 1 / 2 ^ 24 := rfl

@[simp] theorem fp32_η : fp32.η = 1 / 2 ^ 149 := rfl

@[simp] theorem fp32_top : fp32.top = 2 ^ 128 - 2 ^ 103 := rfl

/-- IEEE binary64, for numbers far from its underflow. -/
noncomputable def fp64 : FloatModel where
  u := 1 / 2 ^ 53
  η := 0
  max := 2 ^ 1024 - 2 ^ 971
  top := 2 ^ 1024 - 2 ^ 970
  u_nonneg := by norm_num
  u_le := two_pow_53_le
  η_nonneg := le_rfl
  max_nonneg := sub_nonneg.mpr (pow_le_pow_right₀ one_le_two (by norm_num))
  max_lt_top := sub_lt_sub_left (pow_lt_pow_right₀ one_lt_two (by norm_num)) _

@[simp] theorem fp64_u : fp64.u = 1 / 2 ^ 53 := rfl

@[simp] theorem fp64_η : fp64.η = 0 := rfl

end FloatModel

/-- An order of summation. -/
inductive SumTree where
  | leaf (i : ℕ)
  | node (l r : SumTree)

namespace SumTree

def leaves : SumTree → List ℕ
  | leaf i => [i]
  | node l r => l.leaves ++ r.leaves

/-- The sum of the terms `f`. -/
def sum (M : FloatModel) (f : ℕ → SetM Extended) : SumTree → SetM Extended
  | leaf i => f i
  | node l r => do
    let a ← l.sum M f
    let b ← r.sum M f
    M.add a b

/-- From the left, `n` terms after the first. -/
def comb : ℕ → SumTree
  | 0 => leaf 0
  | n + 1 => node (comb n) (leaf (n + 1))

theorem leaves_comb (n : ℕ) : (comb n).leaves = List.range (n + 1) := by
  induction n with
  | zero => rfl
  | succ n ih => rw [comb, leaves, ih, leaves, List.range_succ (n := n + 1)]

variable {M : FloatModel} {f : ℕ → SetM Extended} {t : SumTree} {z : ℕ → ℝ} {e : ℝ} {y : Extended}

theorem length_leaves_pos (t : SumTree) : 0 < t.leaves.length := by
  induction t with
  | leaf i => exact Nat.one_pos
  | node l r hl _ =>
    rw [leaves, List.length_append]
    exact Nat.add_pos_left hl _

theorem isFinite_leaf (h : y.IsFinite) (hy : y ∈ (t.sum M f).run) :
    ∀ i ∈ t.leaves, ∃ x ∈ (f i).run, x.IsFinite := by
  induction t generalizing y with
  | leaf i =>
    intro j hj
    obtain rfl := List.mem_singleton.mp hj
    exact ⟨y, hy, h⟩
  | node l r hl hr =>
    obtain ⟨a, ha, b, hb, hadd⟩ : ∃ a ∈ (l.sum M f).run, ∃ b ∈ (r.sum M f).run,
        y ∈ (M.add a b).run := by
      obtain ⟨a, ha, hrest⟩ := SetM.mem_run_bind.mp hy
      obtain ⟨b, hb, hadd⟩ := SetM.mem_run_bind.mp hrest
      exact ⟨a, ha, b, hb, hadd⟩
    obtain ⟨hfa, hfb⟩ := FloatModel.isFinite_of_add h hadd
    intro i hi
    obtain hi | hi := List.mem_append.mp hi
    · exact hl hfa ha i hi
    · exact hr hfb hb i hi

theorem one_add_pow_le_two {u : ℝ} (hu : 0 ≤ u) (hle : u ≤ 1 / 2) {n : ℕ} (hn : n * u ≤ 1 / 2) :
    (1 + u) ^ n ≤ 2 := by
  have hlow : 1 / 2 ≤ (1 - u) ^ n := by
    have hbern := one_add_mul_le_pow (show (-2 : ℝ) ≤ -u by linarith) n
    rw [← sub_eq_add_neg] at hbern
    linarith
  have hprod : (1 + u) ^ n * (1 - u) ^ n ≤ 1 := by
    rw [← mul_pow]
    exact pow_le_one₀ (by nlinarith) (by nlinarith)
  have hpos : 0 ≤ (1 + u) ^ n := by positivity
  nlinarith

attribute [local instance] FloatModel.two_atLeastTwo

/-- What `n` terms with sum `S` and error `e` each are at least added up to. -/
def sumLow (M : FloatModel) (e : ℝ) (n : ℕ) (S : ℝ) : ℝ :=
  (1 - M.u) ^ n * S - (2 * n - 1) * (1 + M.u) ^ n * (e + M.η)

/-- Two partial sums. -/
theorem sumLow_add_le {a b : ℕ} (ha : 0 < a) (hb : 0 < b) {S S' : ℝ} (hS : 0 ≤ S) (hS' : 0 ≤ S')
    (he : 0 ≤ e) :
    sumLow M e (a + b) (S + S') ≤ M.down (sumLow M e a S + sumLow M e b S') := by
  have hu := M.u_nonneg
  have hle := M.u_le
  have hη := M.η_nonneg
  have ha' : (1 : ℝ) ≤ a := Nat.one_le_cast.mpr ha
  have hb' : (1 : ℝ) ≤ b := Nat.one_le_cast.mpr hb
  -- the factors of `a + b` terms are the weaker ones
  have hdown : ∀ {m : ℕ}, m + 1 ≤ a + b → (1 - M.u) ^ (a + b) ≤ (1 - M.u) * (1 - M.u) ^ m :=
    fun hm => by
      rw [← pow_succ']
      exact pow_le_pow_of_le_one (by linarith) (by linarith) hm
  have hup : ∀ {m : ℕ}, m + 1 ≤ a + b → (1 + M.u) * (1 + M.u) ^ m ≤ (1 + M.u) ^ (a + b) :=
    fun hm => by
      rw [← pow_succ']
      exact pow_le_pow_right₀ (by linarith) hm
  have hone : 1 ≤ (1 + M.u) ^ (a + b) := one_le_pow₀ (by linarith)
  have hA := mul_le_mul_of_nonneg_right (hdown (m := a) (by omega)) hS
  have hB := mul_le_mul_of_nonneg_right (hdown (m := b) (by omega)) hS'
  have hα : 0 ≤ (1 - M.u) ^ a * S + (1 - M.u) ^ b * S' := by
    have h1 : 0 ≤ 1 - M.u := by linarith
    positivity
  have hβ : 0 ≤ (2 * a - 1) * (1 + M.u) ^ a * (e + M.η) +
      (2 * b - 1) * (1 + M.u) ^ b * (e + M.η) := by
    have h1 : (0 : ℝ) ≤ 2 * a - 1 := by linarith
    have h2 : (0 : ℝ) ≤ 2 * b - 1 := by linarith
    positivity
  have hE := mul_le_mul_of_nonneg_right (mul_le_mul_of_nonneg_left (hup (m := a) (by omega))
    (by linarith : (0 : ℝ) ≤ 2 * a - 1)) (by linarith : 0 ≤ e + M.η)
  have hF := mul_le_mul_of_nonneg_right (mul_le_mul_of_nonneg_left (hup (m := b) (by omega))
    (by linarith : (0 : ℝ) ≤ 2 * b - 1)) (by linarith : 0 ≤ e + M.η)
  have hG : M.η ≤ (1 + M.u) ^ (a + b) * (e + M.η) := by nlinarith
  have hsplit : sumLow M e a S + sumLow M e b S' =
      ((1 - M.u) ^ a * S + (1 - M.u) ^ b * S') - ((2 * a - 1) * (1 + M.u) ^ a * (e + M.η) +
        (2 * b - 1) * (1 + M.u) ^ b * (e + M.η)) := by
    unfold sumLow
    ring
  rw [hsplit]
  refine le_trans ?_ (FloatModel.down_sub_ge hα hβ)
  unfold sumLow
  push_cast
  linarith

/-- **A sum in any order**: the terms may each be too small by `e`. -/
theorem above_sumLow (hz : ∀ i ∈ t.leaves, 0 ≤ z i) (he : 0 ≤ e)
    (hleaf : ∀ i ∈ t.leaves, ∀ x ∈ (f i).run, Above (z i - e) x)
    (hu : t.leaves.length * M.u ≤ 1 / 2) (htop : 4 * t.leaves.length * (e + M.η) < M.top)
    (hy : y ∈ (t.sum M f).run) :
    Above (sumLow M e t.leaves.length (t.leaves.map z).sum) y := by
  have hu0 := M.u_nonneg
  have hη := M.η_nonneg
  induction t generalizing y with
  | leaf i =>
    refine (hleaf i List.mem_cons_self y hy).mono ?_
    have hzi := hz i List.mem_cons_self
    show (1 - M.u) ^ 1 * (z i + 0) - (2 * (1 : ℕ) - 1) * (1 + M.u) ^ 1 * (e + M.η) ≤ z i - e
    have h1 := mul_nonneg hu0 hzi
    have h2 := mul_nonneg hu0 (add_nonneg he hη)
    push_cast
    linarith
  | node l r hl hr =>
    obtain ⟨a, ha, hrest⟩ := SetM.mem_run_bind.mp hy
    obtain ⟨b, hb, hadd⟩ := SetM.mem_run_bind.mp hrest
    have hlen : (l.leaves ++ r.leaves).length = l.leaves.length + r.leaves.length :=
      List.length_append
    have hzl : ∀ i ∈ l.leaves, 0 ≤ z i := fun i hi => hz i (List.mem_append_left _ hi)
    have hzr : ∀ i ∈ r.leaves, 0 ≤ z i := fun i hi => hz i (List.mem_append_right _ hi)
    have hnl := l.length_leaves_pos
    have hnr := r.length_leaves_pos
    rw [leaves, hlen] at hu htop ⊢
    push_cast at hu htop
    have hnl' : (0 : ℝ) ≤ l.leaves.length := Nat.cast_nonneg _
    have hnr' : (0 : ℝ) ≤ r.leaves.length := Nat.cast_nonneg _
    have hul : l.leaves.length * M.u ≤ 1 / 2 := by nlinarith
    have hur : r.leaves.length * M.u ≤ 1 / 2 := by nlinarith
    have htl : 4 * l.leaves.length * (e + M.η) < M.top := by nlinarith
    have htr : 4 * r.leaves.length * (e + M.η) < M.top := by nlinarith
    have hlow := hl hzl (fun i hi => hleaf i (List.mem_append_left _ hi)) hul htl ha
    have hlow' := hr hzr (fun i hi => hleaf i (List.mem_append_right _ hi)) hur htr hb
    have hS : 0 ≤ (l.leaves.map z).sum := List.sum_nonneg (by simpa using hzl)
    have hS' : 0 ≤ (r.leaves.map z).sum := List.sum_nonneg (by simpa using hzr)
    rw [List.map_append, List.sum_append]
    refine (FloatModel.above_add hlow hlow' ?_ hadd).mono (sumLow_add_le hnl hnr hS hS' he)
    have hbound : ∀ {n : ℕ} {S : ℝ}, n * M.u ≤ 1 / 2 → 0 ≤ S →
        -(4 * n * (e + M.η)) ≤ sumLow M e n S := fun {n S} hn hS => by
      have hpow := one_add_pow_le_two hu0 M.u_le hn
      have hpos : 0 ≤ (1 + M.u) ^ n := by positivity
      have h1 : 0 ≤ (1 - M.u) ^ n * S := mul_nonneg (pow_nonneg (by linarith [M.u_le]) n) hS
      have hn' : (0 : ℝ) ≤ n := Nat.cast_nonneg n
      have h2 : (2 * n - 1) * (1 + M.u) ^ n ≤ 4 * n := by nlinarith
      have h3 := mul_le_mul_of_nonneg_right h2 (add_nonneg he hη)
      unfold sumLow
      linarith
    have h1 := hbound hul hS
    have h2 := hbound hur hS'
    linarith

/-- The same with the factors multiplied out. -/
theorem above_sum (hz : ∀ i ∈ t.leaves, 0 ≤ z i) (he : 0 ≤ e)
    (hleaf : ∀ i ∈ t.leaves, ∀ x ∈ (f i).run, Above (z i - e) x)
    (hu : t.leaves.length * M.u ≤ 1 / 2) (htop : 4 * t.leaves.length * (e + M.η) < M.top)
    (hy : y ∈ (t.sum M f).run) :
    Above ((1 - t.leaves.length * M.u) * (t.leaves.map z).sum -
      4 * t.leaves.length * (e + M.η)) y := by
  refine (above_sumLow hz he hleaf hu htop hy).mono ?_
  have hu0 := M.u_nonneg
  have hS : 0 ≤ (t.leaves.map z).sum := List.sum_nonneg (by simpa using hz)
  have hbern := one_add_mul_le_pow (show (-2 : ℝ) ≤ -M.u by linarith [M.u_le]) t.leaves.length
  rw [← sub_eq_add_neg, mul_neg, ← sub_eq_add_neg] at hbern
  have hpow := one_add_pow_le_two hu0 M.u_le hu
  have hpos : 0 ≤ (1 + M.u) ^ t.leaves.length := by positivity
  have hn : (0 : ℝ) ≤ t.leaves.length := Nat.cast_nonneg _
  have h1 := mul_le_mul_of_nonneg_right hbern hS
  have h2 : (2 * t.leaves.length - 1) * (1 + M.u) ^ t.leaves.length ≤
      4 * (t.leaves.length : ℝ) := by nlinarith
  have h3 := mul_le_mul_of_nonneg_right h2 (add_nonneg he M.η_nonneg)
  unfold sumLow
  linarith

/-- The exact sum of numbers that are not negative is one of the results. -/
theorem fin_mem_sum (hz : ∀ i ∈ t.leaves, 0 ≤ z i)
    (hleaf : ∀ i ∈ t.leaves, Extended.fin (z i) ∈ (f i).run)
    (hmax : (t.leaves.map z).sum ≤ M.max) :
    Extended.fin (t.leaves.map z).sum ∈ (t.sum M f).run := by
  induction t with
  | leaf i =>
    have hi := hleaf i List.mem_cons_self
    show Extended.fin (z i + 0) ∈ (f i).run
    rwa [add_zero]
  | node l r hl hr =>
    have hzl : ∀ i ∈ l.leaves, 0 ≤ z i := fun i hi => hz i (List.mem_append_left _ hi)
    have hzr : ∀ i ∈ r.leaves, 0 ≤ z i := fun i hi => hz i (List.mem_append_right _ hi)
    have hS : 0 ≤ (l.leaves.map z).sum := List.sum_nonneg (by simpa using hzl)
    have hS' : 0 ≤ (r.leaves.map z).sum := List.sum_nonneg (by simpa using hzr)
    rw [leaves, List.map_append, List.sum_append] at hmax ⊢
    have hleft := hl hzl (fun i hi => hleaf i (List.mem_append_left _ hi)) (by linarith)
    have hright := hr hzr (fun i hi => hleaf i (List.mem_append_right _ hi)) (by linarith)
    refine SetM.mem_run_bind.mpr ⟨_, hleft, SetM.mem_run_bind.mpr ⟨_, hright, ?_⟩⟩
    refine FloatModel.fin_mem_add ?_
    rwa [abs_of_nonneg (add_nonneg hS hS')]

end SumTree
