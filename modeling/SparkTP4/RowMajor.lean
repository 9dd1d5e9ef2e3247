import SparkTP4.ByteFile
import Mathlib.Data.List.Forall2
import Mathlib.Algebra.BigOperators.Group.List.Basic

/-!
# Row-major tensors

A tensor is a shape and the bytes of its elements, in row-major order: the element at an
index is at the *position* that the index has among all indices of the shape. Narrowing a
dimension keeps the elements whose index there lies in an interval.

The indices are enumerated in the order of their positions (`indices`), so the elements read
in this order are the bytes (`flatMap_indices`). A narrowed tensor, defined by its elements,
is therefore a run of equally long pieces of the whole one, one for every index of the
dimensions before (`narrowData_eq`): this is what a reader of strided files relies on.
-/

namespace RowMajor

/-- The position of an element among those of its tensor. -/
def position : List ℕ → List ℕ → ℕ
  | _ :: shape, i :: index => i * shape.prod + position shape index
  | _, _ => 0

/-- The indices of a tensor, in the order of their positions. -/
def indices : List ℕ → List (List ℕ)
  | [] => [[]]
  | n :: shape => (List.range n).flatMap fun i => (indices shape).map (i :: ·)

/-- An index of a tensor of this shape. -/
def InBounds (shape index : List ℕ) : Prop := List.Forall₂ (fun n i => i < n) shape index

/-- The index in the whole tensor of an index of a narrowed one. -/
def shift (dim start : ℕ) (index : List ℕ) : List ℕ := index.modify dim (start + ·)

/-! ## Pieces of a file -/

/-- Adjacent pieces of one length. -/
theorem flatMap_slice (f : Bytes) (off len : ℕ) : ∀ n,
    ((List.range n).flatMap fun i => f.slice (off + i * len) len) = f.slice off (n * len)
  | 0 => by
    rw [Nat.zero_mul, Bytes.slice_zero]
    rfl
  | n + 1 => by
    rw [List.range_succ, List.flatMap_append, flatMap_slice f off len n, List.flatMap_singleton,
      Bytes.slice_append_slice, Nat.succ_mul]

/-- A range cut into runs of `m`. -/
theorem flatMap_range_mul {α : Type} (g : ℕ → List α) (m : ℕ) : ∀ n,
    (List.range (n * m)).flatMap g =
      (List.range n).flatMap fun i => (List.range m).flatMap fun j => g (i * m + j)
  | 0 => by
    rw [Nat.zero_mul]
    rfl
  | n + 1 => by
    rw [Nat.succ_mul, List.range_add, List.flatMap_append, flatMap_range_mul g m n,
      List.range_succ, List.flatMap_append, List.flatMap_singleton, List.flatMap_map]

/-- **The elements in the order of the indices** are the bytes. -/
theorem flatMap_indices (f : Bytes) (item : ℕ) (shape : List ℕ) : ∀ off,
    ((indices shape).flatMap fun index => f.slice (off + position shape index * item) item) =
      f.slice off (shape.prod * item) := by
  induction shape with
  | nil =>
    intro off
    simp [indices, position]
  | cons n shape ih =>
    intro off
    have hinner (i : ℕ) :
        (((indices shape).map (i :: ·)).flatMap fun index =>
          f.slice (off + position (n :: shape) index * item) item) =
        f.slice (off + i * (shape.prod * item)) (shape.prod * item) := by
      rw [List.flatMap_map, ← ih]
      refine List.flatMap_congr fun index _ => ?_
      show f.slice (off + (i * shape.prod + position shape index) * item) item = _
      rw [Nat.add_mul, Nat.mul_assoc, Nat.add_assoc]
    unfold indices
    rw [List.flatMap_assoc, List.flatMap_congr fun i _ => hinner i, flatMap_slice, List.prod_cons,
      Nat.mul_assoc]

/-! ## Narrowing -/

/-- The bytes of a narrowed tensor: its elements, read in the whole one. -/
def narrowData (data : Bytes) (item : ℕ) (shape : List ℕ) (dim start length : ℕ) : Bytes :=
  (indices (shape.set dim length)).flatMap fun index =>
    data.slice (position shape (shift dim start index) * item) item

/-- The pieces of a narrowed tensor, one for every index of the dimensions before. -/
def narrowPieces (data : Bytes) (outer row inner start length : ℕ) : Bytes :=
  (List.range outer).flatMap fun o => data.slice (o * row + start * inner) (length * inner)

theorem flatMap_shift (f : Bytes) (item d start length : ℕ) (after : List ℕ) (before : List ℕ) :
    ∀ off, ((indices (before ++ length :: after)).flatMap fun index =>
      f.slice (off + position (before ++ d :: after) (shift before.length start index) * item) item) =
      (List.range before.prod).flatMap fun o =>
        f.slice (off + (o * (d * (after.prod * item)) + start * (after.prod * item)))
          (length * (after.prod * item)) := by
  induction before with
  | nil =>
    intro off
    have hinner (j : ℕ) :
        (((indices after).map (j :: ·)).flatMap fun index =>
          f.slice (off + position (d :: after) (shift 0 start index) * item) item) =
        f.slice (off + start * (after.prod * item) + j * (after.prod * item)) (after.prod * item) := by
      rw [List.flatMap_map, ← flatMap_indices]
      refine List.flatMap_congr fun index _ => ?_
      show f.slice (off + ((start + j) * after.prod + position after index) * item) item = _
      congr 1
      ring
    show ((indices (length :: after)).flatMap _) = _
    unfold indices
    rw [List.flatMap_assoc]
    refine (List.flatMap_congr fun j _ => hinner j).trans ?_
    rw [flatMap_slice]
    simp
  | cons n before ih =>
    intro off
    have hinner (i : ℕ) :
        (((indices (before ++ length :: after)).map (i :: ·)).flatMap fun index =>
          f.slice (off + position (n :: before ++ d :: after)
            (shift (n :: before).length start index) * item) item) =
        (List.range before.prod).flatMap fun o =>
          f.slice (off + ((i * before.prod + o) * (d * (after.prod * item)) +
            start * (after.prod * item))) (length * (after.prod * item)) := by
      have hoff (o : ℕ) : off + ((i * before.prod + o) * (d * (after.prod * item)) +
          start * (after.prod * item)) = off + i * ((before ++ d :: after).prod * item) +
          (o * (d * (after.prod * item)) + start * (after.prod * item)) := by
        rw [List.prod_append, List.prod_cons]
        ring
      rw [List.flatMap_map]
      refine Eq.trans (List.flatMap_congr fun index _ => ?_)
        ((ih (off + i * ((before ++ d :: after).prod * item))).trans
          (List.flatMap_congr fun o _ => by rw [hoff]))
      show f.slice (off + (i * (before ++ d :: after).prod +
        position (before ++ d :: after) (shift before.length start index)) * item) item = _
      rw [Nat.add_mul, Nat.mul_assoc, Nat.add_assoc]
    show ((indices (n :: (before ++ length :: after))).flatMap _) = _
    unfold indices
    rw [List.flatMap_assoc]
    refine (List.flatMap_congr fun i _ => hinner i).trans ?_
    rw [List.prod_cons, flatMap_range_mul]

/-- **A narrowed tensor is a run of pieces** of the whole one. -/
theorem narrowData_eq (data : Bytes) (item start length : ℕ) {shape : List ℕ} {dim d : ℕ}
    (hdim : shape[dim]? = some d) : narrowData data item shape dim start length =
      narrowPieces data (shape.take dim).prod (d * ((shape.drop (dim + 1)).prod * item))
        ((shape.drop (dim + 1)).prod * item) start length := by
  obtain ⟨hlt, hd⟩ := List.getElem?_eq_some_iff.mp hdim
  have hshape : shape = shape.take dim ++ d :: shape.drop (dim + 1) := by
    rw [← hd, ← List.drop_eq_getElem_cons hlt, List.take_append_drop]
  have hset : shape.set dim length = shape.take dim ++ length :: shape.drop (dim + 1) :=
    List.set_eq_take_append_cons_drop.trans (if_pos hlt)
  have htake : (shape.take dim).length = dim := List.length_take_of_le hlt.le
  have h := flatMap_shift data item d start length (shape.drop (dim + 1)) (shape.take dim) 0
  rw [← hshape, ← hset, htake] at h
  unfold narrowData narrowPieces
  simpa only [Nat.zero_add] using h

section Pieces

variable {data : Bytes} {outer d inner start length : ℕ}

/-- A piece lies in the data. -/
theorem piece_fits (hlen : data.length = outer * (d * inner)) (hfit : start + length ≤ d) {o : ℕ}
    (ho : o < outer) : o * (d * inner) + start * inner + length * inner ≤ data.length := by
  have hrow : start * inner + length * inner ≤ d * inner := by
    rw [← Nat.add_mul]
    exact Nat.mul_le_mul_right inner hfit
  have houter : o * (d * inner) + d * inner ≤ outer * (d * inner) := by
    rw [← Nat.succ_mul]
    exact Nat.mul_le_mul_right _ ho
  omega

theorem length_piece (hlen : data.length = outer * (d * inner)) (hfit : start + length ≤ d) {o : ℕ}
    (ho : o < outer) :
    (data.slice (o * (d * inner) + start * inner) (length * inner)).length = length * inner :=
  Bytes.length_slice_of_le (piece_fits hlen hfit ho)

/-- A narrowed tensor is as long as its shape says. -/
theorem length_narrowPieces (hlen : data.length = outer * (d * inner)) (hfit : start + length ≤ d) :
    (narrowPieces data outer (d * inner) inner start length).length = outer * (length * inner) :=
  Bytes.length_records fun _ ho => length_piece hlen hfit ho

/-- **Narrowing twice** is narrowing once. -/
theorem narrowPieces_narrowPieces {lo n : ℕ} (hlen : data.length = outer * (d * inner))
    (hfit : start + length ≤ d) (hn : lo + n ≤ length) :
    narrowPieces (narrowPieces data outer (d * inner) inner start length) outer (length * inner)
      inner lo n = narrowPieces data outer (d * inner) inner (start + lo) n := by
  refine List.flatMap_congr fun o ho => ?_
  have ho := List.mem_range.mp ho
  have hpiece := Bytes.slice_records (fun _ h => length_piece hlen hfit h) ho
  have hinside : lo * inner + n * inner ≤ length * inner := by
    rw [← Nat.add_mul]
    exact Nat.mul_le_mul_right inner hn
  unfold narrowPieces
  rw [← Bytes.slice_slice _ (o * (length * inner)) hinside, hpiece, Bytes.slice_slice _ _ hinside,
    Nat.add_mul, Nat.add_assoc]

/-- A tensor narrowed to all of it. -/
theorem narrowPieces_full (hlen : data.length = outer * (d * inner)) :
    narrowPieces data outer (d * inner) inner 0 d = data := by
  have h := flatMap_slice data 0 (d * inner) outer
  rw [← hlen, Bytes.slice_full] at h
  refine Eq.trans (List.flatMap_congr fun o _ => ?_) h
  rw [Nat.zero_mul, Nat.add_zero, Nat.zero_add]

end Pieces

/-! ## Tensors -/

/-- A tensor of elements of `item` bytes. -/
@[ext] structure Tensor where
  shape : List ℕ
  item : ℕ
  data : Bytes
  size : data.length = shape.prod * item

namespace Tensor

variable {t : Tensor} {dim d start length : ℕ}

theorem prod_split {shape : List ℕ} (hdim : shape[dim]? = some d) (item : ℕ) :
    shape.prod * item = (shape.take dim).prod * (d * ((shape.drop (dim + 1)).prod * item)) := by
  obtain ⟨hlt, hd⟩ := List.getElem?_eq_some_iff.mp hdim
  have hshape : shape = shape.take dim ++ d :: shape.drop (dim + 1) := by
    rw [← hd, ← List.drop_eq_getElem_cons hlt, List.take_append_drop]
  have hprod : shape.prod = (shape.take dim).prod * (d * (shape.drop (dim + 1)).prod) := by
    rw [← List.prod_cons, ← List.prod_append, ← hshape]
  rw [hprod]
  ring

theorem prod_set {shape : List ℕ} (hdim : shape[dim]? = some d) (length item : ℕ) :
    (shape.set dim length).prod * item =
      (shape.take dim).prod * (length * ((shape.drop (dim + 1)).prod * item)) := by
  obtain ⟨hlt, -⟩ := List.getElem?_eq_some_iff.mp hdim
  rw [List.set_eq_take_append_cons_drop.trans (if_pos hlt), List.prod_append, List.prod_cons]
  ring

theorem length_narrowData (t : Tensor) (hdim : t.shape[dim]? = some d) (hfit : start + length ≤ d) :
    (narrowData t.data t.item t.shape dim start length).length =
      (t.shape.set dim length).prod * t.item := by
  rw [narrowData_eq _ _ _ _ hdim, prod_set hdim,
    length_narrowPieces (t.size.trans (prod_split hdim t.item)) hfit]

/-- The elements whose index in dimension `dim` is in `[start, start + length)`. -/
def narrowNat (t : Tensor) (dim start length : ℕ) : Option Tensor :=
  if h : ∃ d, t.shape[dim]? = some d ∧ start + length ≤ d then
    some ⟨t.shape.set dim length, t.item, narrowData t.data t.item t.shape dim start length,
      h.elim fun _ h => t.length_narrowData h.1 h.2⟩
  else none

/-- An index that may count from the end, of `n` places. -/
def wrap (n : ℕ) (i : ℤ) : ℤ := if i < 0 then i + n else i

/-- `torch.narrow`: a negative dimension and a negative start count from the end. -/
def narrow (t : Tensor) (dim start length : ℤ) : Option Tensor :=
  let dim := wrap t.shape.length dim
  if dim < 0 ∨ length < 0 then none
  else
    match t.shape[dim.toNat]? with
    | none => none
    | some d =>
      let start := wrap d start
      if start < 0 then none else t.narrowNat dim.toNat start.toNat length.toNat

theorem narrow_natCast (hdim : t.shape[dim]? = some d) (start length : ℕ) :
    t.narrow dim start length = t.narrowNat dim start length := by
  have hwrap (n i : ℕ) : wrap n (i : ℤ) = i := if_neg (Int.not_lt.mpr (Int.natCast_nonneg i))
  unfold narrow
  simp only [hwrap, Int.toNat_natCast, hdim]
  rw [if_neg (by omega), if_neg (by omega)]

/-- **What a narrowed tensor is.** -/
theorem narrowNat_eq (hdim : t.shape[dim]? = some d) (hfit : start + length ≤ d) :
    ∃ part, t.narrowNat dim start length = some part ∧ part.shape = t.shape.set dim length ∧
      part.item = t.item ∧
      part.data = narrowPieces t.data (t.shape.take dim).prod
        (d * ((t.shape.drop (dim + 1)).prod * t.item)) ((t.shape.drop (dim + 1)).prod * t.item)
        start length :=
  ⟨_, dif_pos ⟨d, hdim, hfit⟩, rfl, rfl, narrowData_eq _ _ _ _ hdim⟩

theorem narrowNat_eq_some {part : Tensor} (h : t.narrowNat dim start length = some part) :
    ∃ d, t.shape[dim]? = some d ∧ start + length ≤ d := by
  unfold narrowNat at h
  split_ifs at h with hfit
  exact hfit

/-- **Narrowing a narrowed tensor.** -/
theorem narrowNat_narrowNat {part : Tensor} {lo n : ℕ} (h : t.narrowNat dim start length = some part)
    (hn : lo + n ≤ length) : part.narrowNat dim lo n = t.narrowNat dim (start + lo) n := by
  obtain ⟨d, hdim, hfit⟩ := narrowNat_eq_some h
  obtain ⟨p, hp, hshape, hitem, hdata⟩ := narrowNat_eq hdim hfit
  obtain rfl := Option.some.inj (hp.symm.trans h)
  obtain ⟨q, hq, hqshape, hqitem, hqdata⟩ := @narrowNat_eq t dim d (start + lo) n hdim (by omega)
  have hlt : dim < t.shape.length := (List.getElem?_eq_some_iff.mp hdim).1
  have hpdim : p.shape[dim]? = some length := by
    rw [hshape, List.getElem?_set_self hlt]
  obtain ⟨r, hr, hrshape, hritem, hrdata⟩ := narrowNat_eq hpdim hn
  rw [hr, hq]
  have htake : p.shape.take dim = t.shape.take dim := by rw [hshape, List.take_set_of_le le_rfl]
  have hdrop : p.shape.drop (dim + 1) = t.shape.drop (dim + 1) := by
    rw [hshape, List.drop_set_of_lt (Nat.lt_succ_self dim)]
  refine congrArg some (Tensor.ext ?_ (hritem.trans (hitem.trans hqitem.symm)) ?_)
  · rw [hrshape, hqshape, hshape, List.set_set]
  · rw [hrdata, hqdata, htake, hdrop, hitem, hdata,
      narrowPieces_narrowPieces (t.size.trans (prod_split hdim t.item)) hfit hn]

/-- A tensor narrowed to all of a dimension. -/
theorem narrowNat_full (hdim : t.shape[dim]? = some d) : t.narrowNat dim 0 d = some t := by
  obtain ⟨p, hp, hshape, hitem, hdata⟩ := @narrowNat_eq t dim d 0 d hdim (Nat.zero_add d).le
  have hself : t.shape.set dim d = t.shape := by
    obtain ⟨hlt, hd⟩ := List.getElem?_eq_some_iff.mp hdim
    rw [← hd, List.set_getElem_self]
  rw [hp]
  refine congrArg some (Tensor.ext (hshape.trans hself) hitem ?_)
  rw [hdata, narrowPieces_full (t.size.trans (prod_split hdim t.item))]

end Tensor

/-! ## Slices of equal length -/

/-- A place of a dimension of `tp * length` places is in exactly one of `tp` slices. -/
theorem slice_unique {tp length j r i : ℕ} (hj : j < tp * length) :
    r < tp ∧ i < length ∧ r * length + i = j ↔ r = j / length ∧ i = j % length := by
  have hlength : 0 < length := Nat.pos_of_ne_zero fun h => by
    rw [h, Nat.mul_zero] at hj
    exact Nat.not_lt_zero j hj
  constructor
  · rintro ⟨-, hi, rfl⟩
    rw [Nat.mul_comm, Nat.mul_add_div hlength, Nat.mul_add_mod, Nat.div_eq_of_lt hi,
      Nat.mod_eq_of_lt hi]
    exact ⟨rfl, rfl⟩
  · rintro ⟨rfl, rfl⟩
    exact ⟨(Nat.div_lt_iff_lt_mul hlength).mpr hj, Nat.mod_lt j hlength, Nat.div_add_mod' j length⟩

/-- **The slices of a dimension partition the tensor**: every index is in exactly one of them, at
exactly one index there. -/
theorem existsUnique_slice {tp length : ℕ} : ∀ {shape index : List ℕ} {dim : ℕ},
    shape[dim]? = some (tp * length) → InBounds shape index →
    ∃! p : ℕ × List ℕ, p.1 < tp ∧ InBounds (shape.set dim length) p.2 ∧
      shift dim (p.1 * length) p.2 = index
  | n :: shape, j :: index, 0, hdim, hindex => by
    obtain ⟨hj, hrest⟩ := List.forall₂_cons.mp hindex
    obtain rfl := Option.some.inj hdim
    obtain ⟨hr, hi, hsum⟩ := (slice_unique hj).mpr ⟨rfl, rfl⟩
    refine ⟨(j / length, j % length :: index),
      ⟨hr, List.forall₂_cons.mpr ⟨hi, hrest⟩, congrArg (· :: index) hsum⟩, ?_⟩
    rintro ⟨r, place⟩ ⟨hr, hplace, heq⟩
    cases place with
    | nil => cases heq
    | cons i rest =>
      obtain ⟨hsum, rfl⟩ := List.cons.inj heq
      obtain ⟨rfl, rfl⟩ := (slice_unique hj).mp ⟨hr, (List.forall₂_cons.mp hplace).1, hsum⟩
      rfl
  | n :: shape, j :: index, dim + 1, hdim, hindex => by
    obtain ⟨hj, hrest⟩ := List.forall₂_cons.mp hindex
    obtain ⟨p, ⟨hr, hplace, heq⟩, hunique⟩ := @existsUnique_slice tp length shape index dim hdim hrest
    refine ⟨(p.1, j :: p.2), ⟨hr, List.forall₂_cons.mpr ⟨hj, hplace⟩, congrArg (j :: ·) heq⟩, ?_⟩
    rintro ⟨r, place⟩ ⟨hr, hplace, heq⟩
    cases place with
    | nil => cases heq
    | cons i rest =>
      obtain ⟨rfl, htail⟩ := List.cons.inj heq
      obtain rfl := hunique (r, rest) ⟨hr, (List.forall₂_cons.mp hplace).2, htail⟩
      rfl
  | [], [], dim, hdim, _ => by cases hdim

end RowMajor
