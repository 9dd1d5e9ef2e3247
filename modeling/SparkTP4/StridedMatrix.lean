import Mathlib.Data.List.Basic

/-!
# Tensors of two dimensions

A matrix is a view of a storage: an element is read at its row's and its column's strides. A
*contiguous* one has its rows one after the other, so that a kernel that is not given the
strides still finds every element (`View.addr_of_contiguous`), and no two elements share a
cell (`addr_inj`).
-/

namespace StridedMatrix

/-- A tensor of two dimensions, over its storage. -/
structure View (α : Type) where
  rows : ℕ
  cols : ℕ
  rowStride : ℕ
  colStride : ℕ
  data : ℕ → α

namespace View

variable {α : Type}

def elem (t : View α) (r k : ℕ) : α := t.data (r * t.rowStride + k * t.colStride)

def row (t : View α) (r : ℕ) : List α := (List.range t.cols).map (t.elem r)

/-- The tensor's contents, row by row. -/
def toRows (t : View α) : List (List α) := (List.range t.rows).map t.row

/-- `is_contiguous()`: the stride of a dimension of size 1 does not count. -/
def isContiguous (t : View α) : Bool :=
  t.rows * t.cols = 0 || ((t.cols = 1 || t.colStride = 1) && (t.rows = 1 || t.rowStride = t.cols))

/-- `index_select(0, src)` -/
def indexSelect (t : View α) (src : List ℕ) : List (List α) := src.map t.row

/-- The address of an element of a contiguous tensor. -/
theorem addr_of_contiguous {t : View α} (h : t.isContiguous = true) {r k : ℕ} (hr : r < t.rows)
    (hk : k < t.cols) : r * t.rowStride + k * t.colStride = r * t.cols + k := by
  have hne : ¬ t.rows * t.cols = 0 :=
    Nat.mul_ne_zero (Nat.ne_zero_of_lt hr) (Nat.ne_zero_of_lt hk)
  unfold isContiguous at h
  simp only [hne, decide_false, Bool.false_or, Bool.and_eq_true, Bool.or_eq_true,
    decide_eq_true_iff] at h
  obtain ⟨hcol, hrow⟩ := h
  congr 1
  · rcases hrow with hone | hrow
    · have hr0 : r = 0 := Nat.lt_one_iff.mp (hone ▸ hr)
      rw [hr0, Nat.zero_mul, Nat.zero_mul]
    · rw [hrow]
  · rcases hcol with hone | hcol
    · have hk0 : k = 0 := Nat.lt_one_iff.mp (hone ▸ hk)
      rw [hk0, Nat.zero_mul]
    · rw [hcol, Nat.mul_one]

end View

/-- The cells of a contiguous tensor are distinct. -/
theorem addr_inj {K r r' k k' : ℕ} (hk : k < K) (hk' : k' < K) (h : r * K + k = r' * K + k') :
    r = r' ∧ k = k' := by
  have hdiv : ∀ {q j : ℕ}, j < K → (q * K + j) / K = q := fun {q j} hj => by
    rw [Nat.add_comm, Nat.add_mul_div_right _ _ (Nat.zero_lt_of_lt hj), Nat.div_eq_of_lt hj,
      Nat.zero_add]
  have hr : r = r' := by
    calc r = (r * K + k) / K := (hdiv hk).symm
      _ = (r' * K + k') / K := by rw [h]
      _ = r' := hdiv hk'
  exact ⟨hr, Nat.add_left_cancel (hr ▸ h)⟩

end StridedMatrix
