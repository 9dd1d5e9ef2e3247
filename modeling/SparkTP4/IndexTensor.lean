import Mathlib.Data.List.GetD
import SparkTP4.RowMajor

/-!
# Tensors by their elements

A tensor is a shape and the element at each index. Narrowing a dimension reads at a shifted
index, and a concatenation of equally long shards reads, at an index, the shard and the index
in it that the dimension's quotient and remainder give (`cat`). Two tensors are the same when
they have one shape and the same element at each of its indices.
-/

namespace IndexTensor

open RowMajor (InBounds shift)

variable {α : Type}

structure Tensor (α : Type) where
  shape : List ℕ
  elem : List ℕ → α

namespace Tensor

/-- `shape[dim]` -/
def size (t : Tensor α) (dim : ℕ) : ℕ := t.shape.getD dim 0

/-- Equality of tensors. -/
structure Same (t u : Tensor α) : Prop where
  shape : t.shape = u.shape
  elem : ∀ i, InBounds t.shape i → t.elem i = u.elem i

/-- `narrow(dim, start, len)`, an error past the end. -/
def narrow (t : Tensor α) (dim start len : ℕ) : Option (Tensor α) :=
  if start + len ≤ t.size dim then
    some ⟨t.shape.set dim len, fun i => t.elem (shift dim start i)⟩
  else none

/-- `narrow(dim, start, shape[dim] - start).fill_(v)` -/
def fillFrom (t : Tensor α) (dim start : ℕ) (v : α) : Tensor α :=
  { t with elem := fun i => if start ≤ i.getD dim 0 then v else t.elem i }

/-- The entries `start` to `start + len` of a dimension, with padding past its end. -/
def window (t : Tensor α) (dim start len : ℕ) (pad : α) : Tensor α where
  shape := t.shape.set dim len
  elem i := if start + i.getD dim 0 < t.size dim then t.elem (shift dim start i) else pad

/-- The concatenation of `n` shards of length `len`. -/
def cat (shape : List ℕ) (dim len n : ℕ) (shards : ℕ → Tensor α) : Tensor α where
  shape := shape.set dim (n * len)
  elem i := (shards (i.getD dim 0 / len)).elem (i.set dim (i.getD dim 0 % len))

/-- The same function of every element. -/
def map {β : Type} (f : α → β) (t : Tensor α) : Tensor β := ⟨t.shape, fun i => f (t.elem i)⟩

theorem Same.refl (t : Tensor α) : t.Same t := ⟨rfl, fun _ _ => rfl⟩

theorem Same.symm {t u : Tensor α} (h : t.Same u) : u.Same t :=
  ⟨h.shape.symm, fun i hi => (h.elem i (h.shape ▸ hi)).symm⟩

theorem Same.trans {t u v : Tensor α} (h : t.Same u) (h' : u.Same v) : t.Same v :=
  ⟨h.shape.trans h'.shape, fun i hi => (h.elem i hi).trans (h'.elem i (h.shape ▸ hi))⟩

theorem Same.map {β : Type} (f : α → β) {t u : Tensor α} (h : t.Same u) :
    (t.map f).Same (u.map f) :=
  ⟨h.shape, fun i hi => congrArg f (h.elem i hi)⟩

end Tensor

/-! ## Indices -/

variable {shape i : List ℕ} {dim n : ℕ}

theorem inBounds_iff : InBounds shape i ↔
    i.length = shape.length ∧ ∀ j < shape.length, i.getD j 0 < shape.getD j 0 := by
  unfold InBounds
  rw [List.forall₂_iff_get]
  constructor
  · rintro ⟨hlen, h⟩
    refine ⟨hlen.symm, fun j hj => ?_⟩
    rw [List.getD_eq_getElem _ _ hj, List.getD_eq_getElem _ _ (hlen ▸ hj)]
    exact h j hj (hlen ▸ hj)
  · rintro ⟨hlen, h⟩
    refine ⟨hlen.symm, fun j hj hj' => ?_⟩
    have := h j hj
    rwa [List.getD_eq_getElem _ _ hj, List.getD_eq_getElem _ _ hj'] at this

theorem getD_set (l : List ℕ) (d v j : ℕ) (hd : d < l.length) :
    (l.set d v).getD j 0 = if j = d then v else l.getD j 0 := by
  by_cases hj : j = d
  · subst hj
    rw [if_pos rfl, List.getD_eq_getElem _ _ (by rwa [List.length_set]), List.getElem_set_self]
  · rw [if_neg hj, List.getD_eq_getElem?_getD, List.getD_eq_getElem?_getD,
      List.getElem?_set_ne (Ne.symm hj)]

/-- An index of a tensor whose dimension `dim` is `n` long. -/
theorem inBounds_set (hdim : dim < shape.length) : InBounds (shape.set dim n) i ↔
    i.length = shape.length ∧ i.getD dim 0 < n ∧
      ∀ j < shape.length, j ≠ dim → i.getD j 0 < shape.getD j 0 := by
  rw [inBounds_iff, List.length_set]
  refine and_congr_right fun _ => ⟨fun h => ⟨?_, fun j hj hne => ?_⟩, fun h j hj => ?_⟩
  · have := h dim hdim
    rwa [getD_set _ _ _ _ hdim, if_pos rfl] at this
  · have := h j hj
    rwa [getD_set _ _ _ _ hdim, if_neg hne] at this
  · rw [getD_set _ _ _ _ hdim]
    by_cases hne : j = dim
    · rw [if_pos hne, hne]
      exact h.1
    · rw [if_neg hne]
      exact h.2 j hj hne

theorem not_inBounds_of_mem (h : 0 ∈ shape) : ¬ InBounds shape i := by
  intro hi
  unfold InBounds at hi
  induction hi with
  | nil => exact List.not_mem_nil h
  | cons hlt _ ih =>
    rcases List.mem_cons.mp h with rfl | h
    · exact Nat.not_lt_zero _ hlt
    · exact ih h

/-- A tensor has an index if no dimension is empty. -/
theorem inBounds_zero (h : 0 ∉ shape) : InBounds shape (shape.map fun _ => 0) := by
  unfold InBounds
  rw [List.forall₂_map_right_iff, List.forall₂_same]
  exact fun n hn => Nat.pos_of_ne_zero fun h0 => h (h0 ▸ hn)

/-- The index in the whole of an index in a shard. -/
theorem shift_set (hdim : dim < i.length) (len : ℕ) :
    shift dim (i.getD dim 0 / len * len) (i.set dim (i.getD dim 0 % len)) = i := by
  unfold shift
  refine List.ext_getElem (by rw [List.length_modify, List.length_set]) fun j hj hj' => ?_
  rw [List.getElem_modify]
  by_cases hne : dim = j
  · subst hne
    rw [if_pos rfl, List.getElem_set_self, List.getD_eq_getElem _ _ hdim]
    exact Nat.div_add_mod' _ _
  · rw [if_neg hne, List.getElem_set_ne hne]

/-- Empty tensors of one shape are the same. -/
theorem same_of_mem {t u : Tensor α} (h : 0 ∈ t.shape) (hshape : t.shape = u.shape) : t.Same u :=
  ⟨hshape, fun _ hi => absurd hi (not_inBounds_of_mem h)⟩

theorem shift_zero (dim : ℕ) (i : List ℕ) : shift dim 0 i = i := by
  have hid : (fun x => 0 + x) = (id : ℕ → ℕ) := funext Nat.zero_add
  unfold shift
  rw [hid, List.modify_id]

/-- The index in a shard of an index of the concatenation. -/
theorem inBounds_shard {len : ℕ} (hdim : dim < shape.length)
    (hi : InBounds (shape.set dim (n * len)) i) :
    i.getD dim 0 / len < n ∧ InBounds (shape.set dim len) (i.set dim (i.getD dim 0 % len)) := by
  obtain ⟨hlen, hlt, hrest⟩ := (inBounds_set hdim).mp hi
  have hpos : 0 < len := Nat.pos_of_mul_pos_left (Nat.zero_lt_of_lt hlt)
  have hdim' : dim < i.length := hlen ▸ hdim
  refine ⟨Nat.div_lt_of_lt_mul (Nat.mul_comm n len ▸ hlt), (inBounds_set hdim).mpr ⟨?_, ?_, ?_⟩⟩
  · rw [List.length_set, hlen]
  · rw [getD_set _ _ _ _ hdim', if_pos rfl]
    exact Nat.mod_lt _ hpos
  · intro j hj hne
    rw [getD_set _ _ _ _ hdim', if_neg hne]
    exact hrest j hj hne

/-- Inside the tensor a window is a slice. -/
theorem narrow_eq_window {t : Tensor α} (hdim : dim < t.shape.length) {start len : ℕ}
    (hfit : start + len ≤ t.size dim) (pad : α) :
    ∃ u, t.narrow dim start len = some u ∧ u.Same (t.window dim start len pad) := by
  refine ⟨_, if_pos hfit, rfl, fun i hi => ?_⟩
  have hlt : i.getD dim 0 < len := ((inBounds_set hdim).mp hi).2.1
  exact (if_pos ((Nat.add_lt_add_left hlt start).trans_le hfit)).symm

/-- **Filling from the tensor's end on changes the padding of a window.** -/
theorem fillFrom_window {t u : Tensor α} {start len : ℕ} {pad : α}
    (h : u.Same (t.window dim start len pad)) (v : α) :
    (u.fillFrom dim (t.size dim - start) v).Same (t.window dim start len v) := by
  refine ⟨h.shape, fun i hi => ?_⟩
  show (if _ ≤ _ then v else u.elem i) = if _ < _ then _ else v
  rw [h.elem i hi]
  show (if _ ≤ _ then v else if _ < _ then _ else pad) = _
  by_cases hlt : start + i.getD dim 0 < t.size dim
  · have hin : i.getD dim 0 < t.size dim - start :=
      Nat.lt_sub_of_add_lt (Nat.add_comm start _ ▸ hlt)
    rw [if_pos hlt, if_pos hlt, if_neg (not_le.mpr hin)]
  · rw [if_neg hlt, if_neg hlt, if_pos (Nat.sub_le_iff_le_add'.mpr (not_lt.mp hlt))]

/-- A window without padding. -/
theorem window_of_fits {t : Tensor α} (hdim : dim < t.shape.length) {start len : ℕ}
    (hfit : ∀ j < len, start + j < t.size dim) (pad pad' : α) :
    (t.window dim start len pad).Same (t.window dim start len pad') := by
  refine ⟨rfl, fun i hi => ?_⟩
  have hlt := hfit _ ((inBounds_set hdim).mp hi).2.1
  exact (if_pos hlt).trans (if_pos hlt).symm

theorem map_window {β : Type} (f : α → β) (t : Tensor α) (dim start len : ℕ) (pad : α) :
    (t.window dim start len pad).map f = (t.map f).window dim start len (f pad) :=
  congrArg (Tensor.mk _) (funext fun _ => apply_ite f _ _ _)

/-- **The windows of the shards, one after the other, are the window of the whole.** -/
theorem cat_window {t : Tensor α} (hdim : dim < t.shape.length) {len : ℕ} {pad : α}
    {shards : ℕ → Tensor α}
    (h : ∀ r < n, (shards r).Same (t.window dim (r * len) len pad)) :
    (Tensor.cat t.shape dim len n shards).Same (t.window dim 0 (n * len) pad) := by
  refine ⟨rfl, fun i hi => ?_⟩
  obtain ⟨hr, hin⟩ := inBounds_shard hdim hi
  have hdim' : dim < i.length := ((inBounds_set hdim).mp hi).1 ▸ hdim
  have hshard := h _ hr
  show (shards _).elem _ = _
  rw [hshard.elem _ (hshard.shape ▸ hin)]
  show (if _ < _ then _ else _) = if _ < _ then _ else _
  rw [getD_set _ _ _ _ hdim', if_pos rfl, Nat.div_add_mod', Nat.zero_add, shift_set hdim',
    shift_zero]

end IndexTensor
