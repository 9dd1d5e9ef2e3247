import Mathlib.Data.List.Basic
import Mathlib.Data.List.Pairwise
import Mathlib.Data.Nat.Notation
import Mathlib.Tactic.Ring

/-!
# Regions of a memory

A region is a run of bytes. Regions laid out one after the other are pairwise
apart and together fill what they are laid out in (`pairwise_consecutive`,
`within_consecutive`); the cells of an array are apart, and are within the array
(`cell_apart`, `cell_within`). An array of several indices is an array of their
mixed-radix number (`radix_lt`, `radix_inj`).
-/

/-- The `len` bytes from `off` on. -/
structure Region where
  off : ℕ
  len : ℕ
deriving DecidableEq, Repr

namespace Region

/-- The first byte after the region. -/
def stop (r : Region) : ℕ := r.off + r.len

/-- Every byte of `r` is one of `s`. -/
def Within (r s : Region) : Prop := s.off ≤ r.off ∧ r.stop ≤ s.stop

/-- No byte of `r` is one of `s`. -/
def Apart (r s : Region) : Prop := r.stop ≤ s.off ∨ s.stop ≤ r.off

variable {r s t : Region}

@[simp] theorem stop_mk (off len : ℕ) : stop ⟨off, len⟩ = off + len := rfl

theorem within_mk {off len off' len' : ℕ} :
    Within ⟨off, len⟩ ⟨off', len'⟩ ↔ off' ≤ off ∧ off + len ≤ off' + len' := Iff.rfl

theorem apart_mk {off len off' len' : ℕ} :
    Apart ⟨off, len⟩ ⟨off', len'⟩ ↔ off + len ≤ off' ∨ off' + len' ≤ off := Iff.rfl

theorem Within.trans (hrs : r.Within s) (hst : s.Within t) : r.Within t :=
  ⟨Nat.le_trans hst.1 hrs.1, Nat.le_trans hrs.2 hst.2⟩

theorem Apart.symm (h : r.Apart s) : s.Apart r := Or.symm h

/-- What is within two regions that are apart is apart. -/
theorem Apart.mono {r' s' : Region} (h : r.Apart s) (hr : r'.Within r) (hs : s'.Within s) :
    r'.Apart s' :=
  h.imp (fun hle => Nat.le_trans hr.2 (Nat.le_trans hle hs.1))
    (fun hle => Nat.le_trans hs.2 (Nat.le_trans hle hr.1))

/-! ## One after the other -/

/-- Regions of these sizes, one after the other from `base` on. -/
def consecutive : ℕ → List ℕ → List Region
  | _, [] => []
  | base, size :: sizes => ⟨base, size⟩ :: consecutive (base + size) sizes

theorem within_consecutive {base : ℕ} {sizes : List ℕ} (h : r ∈ consecutive base sizes) :
    r.Within ⟨base, sizes.sum⟩ := by
  induction sizes generalizing base with
  | nil => exact absurd h List.not_mem_nil
  | cons size sizes ih =>
    rw [List.sum_cons]
    rcases List.mem_cons.mp h with rfl | hmem
    · rw [within_mk]
      omega
    · refine Within.trans (ih hmem) ?_
      rw [within_mk]
      omega

theorem pairwise_consecutive (base : ℕ) (sizes : List ℕ) :
    (consecutive base sizes).Pairwise Apart := by
  induction sizes generalizing base with
  | nil => exact List.Pairwise.nil
  | cons size sizes ih =>
    refine List.pairwise_cons.mpr ⟨fun s hs => ?_, ih _⟩
    exact Or.inl (within_consecutive hs).1

/-! ## Arrays -/

/-- Cell `i` of the array of cells of `size` bytes at `base`. -/
def cell (base size i : ℕ) : Region := ⟨base + i * size, size⟩

theorem cell_within {base size i n : ℕ} (hi : i < n) :
    (cell base size i).Within ⟨base, n * size⟩ := by
  have hle := Nat.mul_le_mul_right size (show i + 1 ≤ n from hi)
  rw [Nat.succ_mul] at hle
  unfold cell
  rw [within_mk]
  omega

theorem cell_apart {base size i j : ℕ} (h : i ≠ j) :
    (cell base size i).Apart (cell base size j) := by
  unfold cell
  rw [apart_mk]
  rcases Nat.lt_or_gt_of_ne h with hlt | hgt
  · have hle := Nat.mul_le_mul_right size (show i + 1 ≤ j from hlt)
    rw [Nat.succ_mul] at hle
    omega
  · have hle := Nat.mul_le_mul_right size (show j + 1 ≤ i from hgt)
    rw [Nat.succ_mul] at hle
    omega

/-- A part of a cell. -/
theorem within_cell {base size i off len : ℕ} (h : off + len ≤ size) :
    Within ⟨base + i * size + off, len⟩ (cell base size i) := by
  unfold cell
  rw [within_mk]
  omega

/-! ## Mixed radix -/

theorem radix_lt {a b m n : ℕ} (ha : a < m) (hb : b < n) : a * n + b < m * n := by
  have hle := Nat.mul_le_mul_right n (show a + 1 ≤ m from ha)
  rw [Nat.succ_mul] at hle
  omega

theorem radix_inj {a a' b b' n : ℕ} (hb : b < n) (hb' : b' < n)
    (h : a * n + b = a' * n + b') : a = a' ∧ b = b' := by
  have hn : 0 < n := Nat.lt_of_le_of_lt (Nat.zero_le b) hb
  have hmod := congrArg (· % n) h
  have hdiv := congrArg (· / n) h
  simp only [Nat.mul_comm _ n, Nat.mul_add_mod, Nat.mod_eq_of_lt hb, Nat.mod_eq_of_lt hb',
    Nat.mul_add_div hn, Nat.div_eq_of_lt hb, Nat.div_eq_of_lt hb', Nat.add_zero] at hmod hdiv
  exact ⟨hdiv, hmod⟩

end Region
