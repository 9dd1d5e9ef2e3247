import Mathlib.Data.List.Basic
import Mathlib.Tactic.Ring

/-!
# Lists that end in copies of a block

A list *ends in* `k` copies of a block when its last `k * p` entries, for `p` the
length of the block, are that block written `k` times. The windows of length `p`
counted from the end then all equal the last one, and conversely: this is how a
scan from the end finds the copies. A sequence that has become periodic ends in as
many copies of a block as its periodic part is long.
-/

namespace TailCopies

variable {α : Type*}

/-- **The last `k * p` entries are `k` copies of one block** of length `p`. -/
def EndsIn (l : List α) (k p : ℕ) : Prop :=
  k * p ≤ l.length ∧ ∃ block : List α, block.length = p ∧
    l.drop (l.length - k * p) = (List.replicate k block).flatten

/-- The window of length `p` that `r` windows follow. -/
def window (l : List α) (p r : ℕ) : List α :=
  (l.drop (l.length - (r + 1) * p)).take (l.length - r * p - (l.length - (r + 1) * p))

theorem window_zero {l : List α} {p : ℕ} : window l p 0 = l.drop (l.length - p) := by
  rw [window, Nat.zero_add, Nat.one_mul, Nat.zero_mul, Nat.sub_zero]
  exact List.take_of_length_le (by rw [List.length_drop])

theorem getElem?_window {l : List α} {p r : ℕ} (h : (r + 1) * p ≤ l.length) (i : ℕ) :
    (window l p r)[i]? = if i < p then l[l.length - (r + 1) * p + i]? else none := by
  have hmul : (r + 1) * p = r * p + p := by ring
  have hlen : l.length - r * p - (l.length - (r + 1) * p) = p := by omega
  rw [window, hlen, List.getElem?_take, List.getElem?_drop]

/-- Dropping one window less. -/
theorem drop_eq_window_append {l : List α} {p r : ℕ} :
    l.drop (l.length - (r + 1) * p) = window l p r ++ l.drop (l.length - r * p) := by
  have hmul : (r + 1) * p = r * p + p := by ring
  have hle : l.length - (r + 1) * p ≤ l.length - r * p := by omega
  conv_lhs => rw [← List.take_append_drop (l.length - r * p - (l.length - (r + 1) * p))
    (l.drop (l.length - (r + 1) * p))]
  rw [List.drop_drop, Nat.add_sub_cancel' hle]
  rfl

theorem length_window {l : List α} {p r : ℕ} (h : (r + 1) * p ≤ l.length) :
    (window l p r).length = p := by
  have hmul : (r + 1) * p = r * p + p := by ring
  rw [window, List.length_take, List.length_drop]
  omega

/-- **The end is copies of a block** exactly when every window counted from the end is the
block. -/
theorem drop_eq_flatten_iff {l block : List α} {k : ℕ} (h : k * block.length ≤ l.length) :
    l.drop (l.length - k * block.length) = (List.replicate k block).flatten ↔
      ∀ r < k, window l block.length r = block := by
  induction k with
  | zero => simp
  | succ k ih =>
    have hmul : (k + 1) * block.length = k * block.length + block.length := by ring
    -- the window farthest from the end comes first
    rw [drop_eq_window_append, List.replicate_succ, List.flatten_cons]
    constructor
    · intro heq r hr
      obtain ⟨hw, hrest⟩ := List.append_inj heq (length_window h)
      cases Nat.lt_succ_iff_lt_or_eq.mp hr with
      | inl hlt => exact (ih (by omega)).mp hrest r hlt
      | inr heq => exact heq ▸ hw
    · intro hall
      rw [hall k (Nat.lt_succ_self k),
        (ih (by omega)).mpr fun r hr => hall r (Nat.lt_succ_of_lt hr)]

/-- The block of the copies is the last window. -/
theorem endsIn_iff {l : List α} {k p : ℕ} (hk : 0 < k) (h : k * p ≤ l.length) :
    EndsIn l k p ↔ ∀ r < k, window l p r = window l p 0 := by
  have hp : 1 * p ≤ l.length := le_trans (Nat.mul_le_mul_right p hk) h
  constructor
  · rintro ⟨-, block, rfl, heq⟩ r hr
    have hall := (drop_eq_flatten_iff h).mp heq
    rw [hall r hr, hall 0 hk]
  · intro hall
    have hlen : (window l p 0).length = p := length_window (by simpa using hp)
    refine ⟨h, window l p 0, hlen, ?_⟩
    have := (@drop_eq_flatten_iff _ l (window l p 0) k (by rwa [hlen])).mpr (by rwa [hlen])
    rwa [hlen] at this

/-- **Cutting all copies but one** loses nothing: the list is the part kept, followed by the
copies of its own last block. -/
theorem EndsIn.eq_take_append {l : List α} {k p : ℕ} (h : EndsIn l (k + 1) p) :
    l = l.take (l.length - k * p) ++
      (List.replicate k ((l.take (l.length - k * p)).drop (l.length - k * p - p))).flatten := by
  obtain ⟨hle, block, rfl, heq⟩ := h
  have hmul : (k + 1) * block.length = k * block.length + block.length := by ring
  have hall := (drop_eq_flatten_iff hle).mp heq
  have hrest : l.drop (l.length - k * block.length) = (List.replicate k block).flatten :=
    (drop_eq_flatten_iff (by omega)).mpr fun r hr => hall r (Nat.lt_succ_of_lt hr)
  have hlast : (l.take (l.length - k * block.length)).drop
      (l.length - k * block.length - block.length) = block := by
    refine Eq.trans ?_ (hall k (Nat.lt_succ_self k))
    rw [window, List.drop_take, hmul, Nat.sub_add_eq]
  rw [hlast, ← hrest, List.take_append_drop]

theorem EndsIn.le_kept {l : List α} {k p : ℕ} (h : EndsIn l (k + 1) p) :
    p ≤ l.length - k * p := by
  have hmul : (k + 1) * p = k * p + p := by ring
  have := h.1
  omega

/-! ## Periodic sequences -/

/-- A sequence that repeats with period `d` from an index on repeats with every multiple
of `d`. -/
theorem eq_add_of_dvd {s : ℕ → α} {a d P : ℕ} (hs : ∀ i, a ≤ i → s (i + d) = s i) (hd : d ∣ P)
    {i : ℕ} (hi : a ≤ i) : s (i + P) = s i := by
  obtain ⟨m, rfl⟩ := hd
  induction m with
  | zero => rfl
  | succ m ih =>
    rw [show i + d * (m + 1) = i + d * m + d by ring, hs _ (by omega), ih]

/-- **A periodic sequence ends in copies**, once `k` periods have gone by. -/
theorem endsIn_of_periodic {s : ℕ → α} {a P k n : ℕ} (hs : ∀ i, a ≤ i → s (i + P) = s i)
    (hk : 0 < k) (hn : a + k * P ≤ n) : EndsIn ((List.range n).map s) k P := by
  have hlen : ((List.range n).map s).length = n := by simp
  have hle : k * P ≤ ((List.range n).map s).length := by rw [hlen]; omega
  refine (endsIn_iff hk hle).mpr fun r hr => ?_
  have hr1 : (r + 1) * P ≤ k * P := Nat.mul_le_mul_right P hr
  have h1 : (0 + 1) * P ≤ k * P := Nat.mul_le_mul_right P hk
  -- entry by entry, the windows are `r` periods apart
  ext1 i
  rw [getElem?_window (hr1.trans hle), getElem?_window (h1.trans hle), hlen]
  by_cases hi : i < P
  · have hmul : (r + 1) * P = r * P + P := by ring
    have hshift : n - (0 + 1) * P + i = n - (r + 1) * P + i + r * P := by omega
    have hsame : s (n - (r + 1) * P + i + r * P) = s (n - (r + 1) * P + i) :=
      eq_add_of_dvd hs (dvd_mul_left P r) (by omega)
    rw [if_pos hi, if_pos hi, hshift, List.getElem?_map, List.getElem?_map,
      List.getElem?_range (by omega), List.getElem?_range (by omega)]
    exact congrArg some hsame.symm
  · rw [if_neg hi, if_neg hi]

/-! ## Runs of one entry -/

/-- **A maximal run** at the end is at least as long as any other run there. -/
theorem le_of_maximal_run {l xs : List α} {t : α} {run k : ℕ}
    (hrun : l = xs ++ List.replicate run t) (hmax : xs.getLast? ≠ some t)
    (hend : l.drop (l.length - k) = List.replicate k t) : k ≤ run := by
  by_contra hlt
  push Not at hlt
  have hsplit : l.take (l.length - k) ++ List.replicate k t = xs ++ List.replicate run t := by
    rw [← hend, List.take_append_drop, hrun]
  rw [show k = (k - run) + run by omega, List.replicate_add, ← List.append_assoc] at hsplit
  have hxs := List.append_cancel_right hsplit
  refine hmax ?_
  rw [← hxs, List.getLast?_append, show k - run = (k - run - 1) + 1 by omega]
  simp [List.getLast?_replicate]

/-- The end of a run is a run. -/
theorem drop_of_le_run {xs : List α} {t : α} {run k : ℕ} (h : k ≤ run) :
    (xs ++ List.replicate run t).drop ((xs ++ List.replicate run t).length - k) =
      List.replicate k t := by
  have hskip : xs.length ≤ (xs ++ List.replicate run t).length - k := by simp; omega
  have hlast : run - ((xs ++ List.replicate run t).length - k - xs.length) = k := by simp; omega
  rw [List.drop_append, List.drop_eq_nil_of_le hskip, List.nil_append, List.drop_replicate, hlast]

end TailCopies
