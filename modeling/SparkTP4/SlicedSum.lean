import Mathlib.Data.List.Basic
import Mathlib.Data.Nat.Bitwise

/-!
# Sums in slices, and butterflies

Addition here is any operation: nothing but the order of the terms decides a sum. A sum in
slices adds the terms of each slice from zero, and then the slices from zero. One walk over
all the terms that starts anew at the end of each slice adds the same values in the same
order (`oneWalk_eq`).

A butterfly adds lane `l` and lane `l xor o`, for `o` half as large each time. Where addition
is commutative every lane ends with the sum that halves the lanes (`butterfly_eq`).
-/

namespace SlicedSum

variable {G : Type} (add : G → G → G) (zero : G)

/-- A list of terms, from zero. -/
def sum (n : ℕ) (c : ℕ → G) : G := (List.range n).foldl (fun t i => add t (c i)) zero

/-- The slices one after the other, each from zero. -/
def sliced (n m : ℕ) (c : ℕ → G) : G :=
  sum add zero n fun i => sum add zero m fun j => c (i * m + j)

/-- One step of the walk: the running slice and the total. -/
def walkStep (m : ℕ) (c : ℕ → G) (s : G × G) (i : ℕ) : G × G :=
  let acc := add s.1 (c i)
  let last := i % m = m - 1
  (if last then zero else acc, if last then add s.2 acc else s.2)

/-- One walk over all terms. -/
def oneWalk (n m : ℕ) (c : ℕ → G) : G × G :=
  (List.range (n * m)).foldl (walkStep add zero m c) (zero, zero)

/-! ## The walk -/

theorem sum_succ (n : ℕ) (c : ℕ → G) : sum add zero (n + 1) c = add (sum add zero n c) (c n) := by
  rw [sum, List.range_succ, List.foldl_append]
  rfl

/-- A fold over a range in blocks. -/
theorem foldl_range_mul {β : Type} (f : β → ℕ → β) (n m : ℕ) (z : β) :
    (List.range (n * m)).foldl f z =
      (List.range n).foldl (fun z i => (List.range m).foldl (fun z j => f z (i * m + j)) z) z := by
  induction n with
  | zero => rw [Nat.zero_mul]; rfl
  | succ n ih =>
    rw [Nat.succ_mul, List.range_add, List.foldl_append, ih, List.range_succ, List.foldl_append,
      List.foldl_map]
    rfl

/-- Inside a slice the total stays. -/
theorem walk_inside {m k : ℕ} (hk : k < m) (i : ℕ) (c : ℕ → G) (t : G) :
    (List.range k).foldl (fun s j => walkStep add zero m c s (i * m + j)) (zero, t) =
      (sum add zero k fun j => c (i * m + j), t) := by
  induction k with
  | zero => rfl
  | succ k ih =>
    have hne : ¬ (i * m + k) % m = m - 1 := by
      rw [Nat.mul_add_mod_of_lt (Nat.lt_of_succ_lt hk)]
      omega
    rw [List.range_succ, List.foldl_append, ih (Nat.lt_of_succ_lt hk), sum_succ]
    show walkStep add zero m c _ _ = _
    rw [walkStep]
    dsimp only
    rw [if_neg hne, if_neg hne]

/-- The last term of a slice closes it. -/
theorem walk_slice (m i : ℕ) (c : ℕ → G) (t : G) :
    (List.range (m + 1)).foldl (fun s j => walkStep add zero (m + 1) c s (i * (m + 1) + j))
        (zero, t) =
      (zero, add t (sum add zero (m + 1) fun j => c (i * (m + 1) + j))) := by
  have hlast : (i * (m + 1) + m) % (m + 1) = m + 1 - 1 := by
    rw [Nat.mul_add_mod_of_lt (Nat.lt_succ_self m)]
    rfl
  rw [List.range_succ, List.foldl_append, walk_inside add zero (Nat.lt_succ_self m), sum_succ]
  show walkStep add zero (m + 1) c _ _ = _
  rw [walkStep]
  dsimp only
  rw [if_pos hlast, if_pos hlast]

/-- **One walk is the sum in slices.** -/
theorem oneWalk_eq (hzero : add zero zero = zero) (n m : ℕ) (c : ℕ → G) :
    oneWalk add zero n m c = (zero, sliced add zero n m c) := by
  rw [oneWalk, foldl_range_mul, sliced]
  induction n with
  | zero => rfl
  | succ n ih =>
    rw [List.range_succ, List.foldl_append, ih, sum_succ]
    cases m with
    | zero =>
      -- slices without terms
      have hsum : sum add zero n (fun _ => zero) = zero := by
        clear ih
        induction n with
        | zero => rfl
        | succ n ihn => rw [sum_succ, ihn, hzero]
      show (zero, sum add zero n fun _ => zero) = (zero, add (sum add zero n fun _ => zero) zero)
      rw [hsum, hzero]
    | succ m => exact walk_slice add zero m n c _

/-! ## Butterflies -/

/-- One exchange. -/
def exchange (v : ℕ → G) (o : ℕ) : ℕ → G := fun l => add (v l) (v (l ^^^ o))

/-- One halving: a value and the one `o` further on. -/
def halve (v : ℕ → G) (o : ℕ) : ℕ → G := fun l => add (v l) (v (l + o))

theorem xor_two_pow_of_lt {r p : ℕ} (h : r < 2 ^ p) : r ^^^ 2 ^ p = r + 2 ^ p := by
  have hor := Nat.two_pow_add_eq_or_of_lt h 1
  rw [Nat.mul_one] at hor
  rw [Nat.add_comm, hor]
  refine Nat.eq_of_testBit_eq fun i => ?_
  rw [Nat.testBit_xor, Nat.testBit_or, Nat.testBit_two_pow]
  by_cases hi : p = i
  · rw [← hi, Nat.testBit_lt_two_pow h]
    simp
  · simp [hi]

/-- An exchange of values that are the same modulo `2 * o` is a halving, modulo `o`. -/
theorem exchange_eq (hcomm : ∀ x y, add x y = add y x) {v u : ℕ → G} {p : ℕ}
    (h : ∀ l, v l = u (l % 2 ^ (p + 1))) (l : ℕ) :
    exchange add v (2 ^ p) l = halve add u (2 ^ p) (l % 2 ^ p) := by
  have hp : 0 < 2 ^ p := Nat.two_pow_pos p
  have hr : l % 2 ^ p < 2 ^ p := Nat.mod_lt l hp
  have hxor : (l ^^^ 2 ^ p) % 2 ^ (p + 1) = l % 2 ^ (p + 1) ^^^ 2 ^ p := by
    rw [Nat.xor_mod_two_pow, Nat.mod_eq_of_lt (Nat.pow_lt_pow_succ (Nat.lt_succ_self 1))]
  rw [exchange, halve, h l, h (l ^^^ 2 ^ p), hxor, Nat.pow_succ, Nat.mod_mul]
  -- the lane is in the lower half or in the upper one
  rcases Nat.mod_two_eq_zero_or_one (l / 2 ^ p) with hbit | hbit
  · rw [hbit, Nat.mul_zero, Nat.add_zero, xor_two_pow_of_lt hr]
  · rw [hbit, Nat.mul_one, ← xor_two_pow_of_lt hr, Nat.xor_assoc, Nat.xor_self, Nat.xor_zero]
    exact hcomm _ _

/-- The exchanges of a warp. -/
def butterfly (v : ℕ → G) : ℕ → ℕ → G
  | 0 => v
  | p + 1 => butterfly (exchange add v (2 ^ p)) p

/-- The halvings of a row. -/
def halvings (v : ℕ → G) : ℕ → ℕ → G
  | 0 => v
  | p + 1 => halvings (halve add v (2 ^ p)) p

/-- **Every lane of a butterfly ends with the sum that halves the lanes.** -/
theorem butterfly_eq (hcomm : ∀ x y, add x y = add y x) {p : ℕ} {v u : ℕ → G}
    (h : ∀ l, v l = u (l % 2 ^ p)) (l : ℕ) : butterfly add v p l = halvings add u p 0 := by
  induction p generalizing v u with
  | zero =>
    rw [butterfly, halvings, h l, Nat.pow_zero, Nat.mod_one]
  | succ p ih => exact ih (exchange_eq add hcomm h)

end SlicedSum
