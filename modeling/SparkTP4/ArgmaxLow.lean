import Mathlib.Order.BoundedOrder.Basic
import Mathlib.Order.Lattice

/-!
# The argmax with ties broken to the lowest index

The greedy choice over a row of scores is the position of its maximum, and
among equal maxima the first. `argmaxLow` computes it by the scan every
implementation makes – a later position replaces the current one only if it
is strictly larger – and `IsArgmaxLow` says what it computes.

`argmaxLow_eq_of_dominated` is the comparison the module is for: lowering
scores that are strictly below some other score changes neither the position
of the maximum nor its value. It needs no assumption on the lowered scores
other than that they were lowered, so that it covers dropping a score to the
bottom element.
-/

variable {α : Type} [LinearOrder α]

/-- **The scan for the first maximum** over the positions `0, …, n - 1`. -/
def argmaxLow (f : ℕ → α) : ℕ → ℕ
  | 0 => 0
  | n + 1 => if f (argmaxLow f n) < f n then n else argmaxLow f n

/-- `i` is the first position of the maximum over `0, …, n - 1`. -/
structure IsArgmaxLow (f : ℕ → α) (n i : ℕ) : Prop where
  /-- It is one of the positions. -/
  lt : i < n
  /-- No score is larger. -/
  le : ∀ j, j < n → f j ≤ f i
  /-- Every earlier score is smaller. -/
  first : ∀ j, j < i → f j < f i

/-- The scan finds the first maximum. -/
theorem isArgmaxLow_argmaxLow (f : ℕ → α) (n : ℕ) :
    IsArgmaxLow f (n + 1) (argmaxLow f (n + 1)) := by
  induction n with
  | zero =>
    have h0 : argmaxLow f 1 = 0 := by simp [argmaxLow]
    rw [h0]
    refine ⟨Nat.one_pos, fun j hj => ?_, fun j hj => absurd hj (Nat.not_lt_zero j)⟩
    rw [Nat.lt_one_iff.mp hj]
  | succ n ih =>
    rw [argmaxLow]
    split_ifs with hlt
    · refine ⟨Nat.lt_succ_self _, fun j hj => ?_, fun j hj => ?_⟩
      · rcases Nat.lt_succ_iff_lt_or_eq.mp hj with hj | rfl
        · exact le_trans (ih.le j hj) hlt.le
        · exact le_rfl
      · exact lt_of_le_of_lt (ih.le j hj) hlt
    · refine ⟨Nat.lt_succ_of_lt ih.lt, fun j hj => ?_, ih.first⟩
      rcases Nat.lt_succ_iff_lt_or_eq.mp hj with hj | rfl
      · exact ih.le j hj
      · exact not_lt.mp hlt

/-- There is only one first maximum. -/
theorem IsArgmaxLow.unique {f : ℕ → α} {n i k : ℕ} (hi : IsArgmaxLow f n i)
    (hk : IsArgmaxLow f n k) : i = k := by
  rcases lt_trichotomy i k with h | h | h
  · exact absurd (hi.le k hk.lt) (not_le.mpr (hk.first i h))
  · exact h
  · exact absurd (hk.le i hi.lt) (not_le.mpr (hi.first k h))

/-- The first maximum is where the scan stops. -/
theorem IsArgmaxLow.eq_argmaxLow {f : ℕ → α} {n i : ℕ} (h : IsArgmaxLow f n i) :
    i = argmaxLow f n := by
  cases n with
  | zero => exact absurd h.lt (Nat.not_lt_zero i)
  | succ n => exact h.unique (isArgmaxLow_argmaxLow f n)

/-- A first maximum keeps its place when the scores that are not maximal are
lowered. -/
theorem IsArgmaxLow.of_dominated {f g : ℕ → α} {n i : ℕ} (hg : IsArgmaxLow g n i)
    (h : ∀ v, v < n → f v = g v ∨ (f v ≤ g v ∧ ∃ u, u < n ∧ g v < g u)) :
    f i = g i ∧ IsArgmaxLow f n i := by
  have hle : ∀ v, v < n → f v ≤ g v := fun v hv => by
    rcases h v hv with he | ⟨hlow, -⟩
    · exact he.le
    · exact hlow
  have hi : f i = g i := by
    rcases h i hg.lt with he | ⟨-, u, hu, hlt⟩
    · exact he
    · exact absurd (hg.le u hu) (not_le.mpr hlt)
  refine ⟨hi, hg.lt, fun j hj => ?_, fun j hj => ?_⟩
  · rw [hi]
    exact le_trans (hle j hj) (hg.le j hj)
  · rw [hi]
    exact lt_of_le_of_lt (hle j (lt_trans hj hg.lt)) (hg.first j hj)

/-- **Lowering dominated scores changes nothing**: neither where the first
maximum is nor its value. -/
theorem argmaxLow_eq_of_dominated {f g : ℕ → α} {n : ℕ} (hn : 0 < n)
    (h : ∀ v, v < n → f v = g v ∨ (f v ≤ g v ∧ ∃ u, u < n ∧ g v < g u)) :
    argmaxLow f n = argmaxLow g n ∧ f (argmaxLow f n) = g (argmaxLow g n) := by
  obtain ⟨k, rfl⟩ := Nat.exists_eq_succ_of_ne_zero hn.ne'
  obtain ⟨hval, hf⟩ := (isArgmaxLow_argmaxLow g k).of_dominated h
  have hpos : argmaxLow f (k + 1) = argmaxLow g (k + 1) := hf.eq_argmaxLow.symm
  exact ⟨hpos, by rw [hpos]; exact hval⟩
