import SparkTP4.GridLoop
import SparkTP4.RowMajor
import Mathlib.Data.List.GetD

/-!
# Concatenating row-major tensors

Views with other dimensions keep the bytes of a tensor (`reshape`, `viewDtype`). The
operations that move elements say, for each index of the result, which element is there: a
concatenation along one dimension (`cat`), and the first dimension moved to another place
(`movedim`).

Concatenating along a dimension interleaves: the dimensions before it count the turns, and
at each turn every part gives the next bytes of the dimensions from it on (`cat_eq_some`).
Moving the first dimension of a stack interleaves in the same way (`data_movedim`).
-/

namespace RowMajor

/-! ## Reading a memory -/

/-- The `len` bytes of a memory from `off` on. -/
def read (mem : ℕ → UInt8) (off len : ℕ) : Bytes := (List.range len).map fun p => mem (off + p)

@[simp] theorem length_read (mem : ℕ → UInt8) (off len : ℕ) : (read mem off len).length = len := by
  unfold read
  rw [List.length_map, List.length_range]

theorem getElem?_read (mem : ℕ → UInt8) (off : ℕ) {len p : ℕ} (hp : p < len) :
    (read mem off len)[p]? = some (mem (off + p)) := by
  unfold read
  rw [List.getElem?_map, List.getElem?_range hp, Option.map_some]

theorem read_congr {mem mem' : ℕ → UInt8} {off off' len : ℕ}
    (h : ∀ p < len, mem (off + p) = mem' (off' + p)) : read mem off len = read mem' off' len :=
  List.map_congr_left fun p hp => h p (List.mem_range.mp hp)

theorem map_range_mul {γ : Type} (f : ℕ → γ) (m n : ℕ) :
    (List.range (m * n)).map f =
      (List.range m).flatMap fun i => (List.range n).map fun j => f (i * n + j) := by
  rw [List.map_eq_flatMap, flatMap_range_mul]
  exact List.flatMap_congr fun i _ => (List.map_eq_flatMap).symm

/-- **Consecutive reads are one read.** -/
theorem flatMap_read (mem : ℕ → UInt8) (off m n : ℕ) :
    ((List.range m).flatMap fun k => read mem (off + k * n) n) = read mem off (m * n) := by
  unfold read
  rw [map_range_mul]
  exact List.flatMap_congr fun k _ => List.map_congr_left fun j _ => by rw [Nat.add_assoc]

/-- Bytes as a memory. -/
def ofList (bytes : Bytes) : ℕ → UInt8 := fun i => bytes.getD i 0

theorem ofList_read {mem : ℕ → UInt8} {len i : ℕ} (hi : i < len) : ofList (read mem 0 len) i = mem i := by
  unfold ofList
  rw [List.getD_eq_getElem?_getD, getElem?_read mem 0 hi, Option.getD_some, Nat.zero_add]

theorem take_read (mem : ℕ → UInt8) (off : ℕ) {len w : ℕ} (hlen : len ≤ w) :
    (read mem off w).take len = read mem off len := by
  unfold read
  rw [← List.map_take, List.take_range, Nat.min_eq_left hlen]

section joined

variable {mem : ℕ → ℕ → UInt8} {n w r : ℕ}

/-- Of equally long pieces joined, the beginning of one is found at its place. -/
theorem slice_joined (hr : r < n) {len : ℕ} (hlen : len ≤ w) :
    Bytes.slice ((List.range n).flatMap fun k => read (mem k) 0 w) (r * w) len =
      read (mem r) 0 len := by
  rw [← Bytes.take_slice _ _ hlen, Bytes.slice_records (fun k _ => length_read _ _ _) hr,
    take_read _ _ hlen]

theorem ofList_joined (hr : r < n) {p : ℕ} (hp : p < w) :
    ofList ((List.range n).flatMap fun k => read (mem k) 0 w) (r * w + p) = mem r p := by
  have hget := congrArg (fun l => l[p]?) (@slice_joined mem _ _ _ hr _ (le_refl w))
  unfold Bytes.slice at hget
  rw [List.getElem?_take_of_lt hp, List.getElem?_drop, getElem?_read _ _ hp, Nat.zero_add] at hget
  unfold ofList
  rw [List.getD_eq_getElem?_getD, hget, Option.getD_some]

end joined

/-! ## Indices -/

theorem indices_cons (n : ℕ) (shape : List ℕ) :
    indices (n :: shape) = (List.range n).flatMap fun i => (indices shape).map (i :: ·) := rfl

theorem indices_append (a b : List ℕ) :
    indices (a ++ b) = (indices a).flatMap fun i => (indices b).map (i ++ ·) := by
  induction a with
  | nil => simp [indices]
  | cons n a ih =>
    rw [List.cons_append, indices_cons, indices_cons, List.flatMap_assoc]
    refine List.flatMap_congr fun k _ => ?_
    rw [ih, List.map_flatMap, List.flatMap_map]
    refine List.flatMap_congr fun i _ => ?_
    rw [List.map_map]
    rfl

theorem length_of_mem_indices {shape idx : List ℕ} (h : idx ∈ indices shape) :
    idx.length = shape.length := by
  induction shape generalizing idx with
  | nil =>
    rw [List.mem_singleton.mp h]
  | cons n shape ih =>
    obtain ⟨i, -, h⟩ := List.mem_flatMap.mp h
    obtain ⟨rest, hrest, rfl⟩ := List.mem_map.mp h
    rw [List.length_cons, List.length_cons, ih hrest]

/-- **The indices are in the order of their positions.** -/
theorem map_position (shape : List ℕ) :
    (indices shape).map (position shape) = List.range shape.prod := by
  induction shape with
  | nil => rfl
  | cons n shape ih =>
    have h := map_range_mul id n shape.prod
    rw [List.map_id] at h
    rw [List.prod_cons, h, indices_cons, List.map_flatMap]
    refine List.flatMap_congr fun i _ => ?_
    rw [List.map_map, ← ih, List.map_map]
    rfl

theorem length_indices (shape : List ℕ) : (indices shape).length = shape.prod := by
  rw [← List.length_map (position shape), map_position, List.length_range]

theorem position_append {a b i : List ℕ} (h : i.length = a.length) (j : List ℕ) :
    position (a ++ b) (i ++ j) = position a i * b.prod + position b j := by
  induction a generalizing i with
  | nil =>
    obtain rfl := List.length_eq_zero_iff.mp h
    show position b j = 0 * b.prod + position b j
    rw [Nat.zero_mul, Nat.zero_add]
  | cons n a ih =>
    cases i with
    | nil => exact absurd h (Nat.succ_ne_zero a.length).symm
    | cons k i =>
      show k * (a ++ b).prod + position (a ++ b) (i ++ j) = _
      rw [ih (Nat.succ.inj h), List.prod_append]
      show _ = (k * a.prod + position a i) * b.prod + position b j
      ring

section append

variable {γ : Type} (a b : List γ) (x : γ)

theorem modify_append (f : γ → γ) : (a ++ x :: b).modify a.length f = a ++ f x :: b := by
  induction a with
  | nil => rfl
  | cons y a ih =>
    show y :: (a ++ x :: b).modify a.length f = _
    rw [ih]
    rfl

theorem getD_append (d : γ) : (a ++ x :: b).getD a.length d = x := by
  rw [List.getD_append_right _ _ _ _ le_rfl, Nat.sub_self]
  rfl

theorem eraseIdx_append : (a ++ x :: b).eraseIdx a.length = a ++ b := by
  rw [List.eraseIdx_append_of_length_le le_rfl, Nat.sub_self]
  rfl

end append

/-- A loop over the indices of a shape that uses their positions only. -/
theorem flatMap_position {γ : Type} (shape : List ℕ) (f : ℕ → List γ) :
    ((indices shape).flatMap fun i => f (position shape i)) = (List.range shape.prod).flatMap f := by
  rw [← map_position, List.flatMap_map]

/-! ## Interleaving -/

/-- At each of `outer` turns, the next `inner` bytes of every memory. -/
def interleave (world outer inner : ℕ) (mem : ℕ → ℕ → UInt8) : Bytes :=
  (List.range outer).flatMap fun o =>
    (List.range world).flatMap fun w => read (mem w) (o * inner) inner

theorem interleave_congr {world outer inner : ℕ} {mem mem' : ℕ → ℕ → UInt8}
    (h : ∀ w < world, ∀ p < outer * inner, mem w p = mem' w p) :
    interleave world outer inner mem = interleave world outer inner mem' := by
  refine List.flatMap_congr fun o ho => List.flatMap_congr fun w hw => read_congr fun p hp => ?_
  refine h w (List.mem_range.mp hw) _ ?_
  have hle := Nat.mul_le_mul_right inner (show o + 1 ≤ outer from List.mem_range.mp ho)
  rw [Nat.succ_mul] at hle
  omega

/-! ## Tensors -/

namespace Tensor

/-- The bytes as a memory. -/
def mem (t : Tensor) : ℕ → UInt8 := ofList t.data

/-- The bytes of the element at an index. -/
def elem (t : Tensor) (idx : List ℕ) : Bytes :=
  read t.mem (position t.shape idx * t.item) t.item

/-- The first elements of a memory as a tensor. -/
def ofMem (shape : List ℕ) (elementSize : ℕ) (mem : ℕ → UInt8) : Tensor where
  shape := shape
  item := elementSize
  data := read mem 0 (shape.prod * elementSize)
  size := length_read _ _ _

/-- The tensor with this element at each index. -/
def ofFn (shape : List ℕ) (elementSize : ℕ) (f : List ℕ → Bytes)
    (h : ∀ idx, (f idx).length = elementSize) : Tensor where
  shape := shape
  item := elementSize
  data := (indices shape).flatMap f
  size := by
    rw [List.length_flatMap, List.map_congr_left fun idx _ => h idx, List.map_const',
      List.sum_replicate_nat, length_indices]

theorem length_elem (t : Tensor) (idx : List ℕ) : (t.elem idx).length = t.item :=
  length_read _ _ _

/-- `t.reshape(shape)` -/
def reshape (t : Tensor) (shape : List ℕ) : Option Tensor :=
  if h : shape.prod = t.shape.prod then
    some { t with
      shape := shape
      size := by rw [h, t.size] }
  else none

/-- `t.view(dtype)` of a tensor of one dimension, for a dtype of `elementSize` bytes. -/
def viewDtype (t : Tensor) (elementSize : ℕ) : Option Tensor :=
  if h : t.shape.length = 1 ∧ elementSize ∣ t.shape.prod * t.item then
    some {
      shape := [t.shape.prod * t.item / elementSize]
      item := elementSize
      data := t.data
      size := by
        rw [List.prod_singleton, Nat.div_mul_cancel h.2, t.size] }
  else none

/-- `t.movedim(0, d)` -/
def movedim (t : Tensor) (d : ℕ) : Tensor :=
  ofFn (t.shape.tail.take d ++ t.shape.headD 1 :: t.shape.tail.drop d) t.item
    (fun idx => t.elem (idx.getD d 0 :: idx.eraseIdx d)) fun _ => t.length_elem _

/-- `torch.cat(parts, dim=d)` of tensors of one shape: along the dimension the entries of
the parts follow one another. -/
def cat (d : ℕ) : List Tensor → Option Tensor
  | [] => none
  | part :: parts =>
    if h : d < part.shape.length ∧
        ∀ t ∈ part :: parts, t.shape = part.shape ∧ t.item = part.item then
      some (ofFn (part.shape.modify d ((part :: parts).length * ·)) part.item
        (fun idx =>
          let n := part.shape.getD d 0
          ((part :: parts).getD (idx.getD d 0 / n) part).elem (idx.modify d (· % n)))
        fun idx => by
          refine (length_elem _ _).trans (h.2 _ ?_).2
          by_cases hi : idx.getD d 0 / part.shape.getD d 0 < (part :: parts).length
          · rw [List.getD_eq_getElem _ _ hi]
            exact List.getElem_mem hi
          · rw [List.getD_eq_default _ _ (Nat.not_lt.mp hi)]
            exact List.mem_cons_self)
    else none

/-! ## What the operations do to the bytes -/

theorem mem_ofMem {shape : List ℕ} {elementSize i : ℕ} {mem : ℕ → UInt8}
    (hi : i < shape.prod * elementSize) : (ofMem shape elementSize mem).mem i = mem i :=
  ofList_read hi

/-- **A block of elements is a run of bytes**: the elements whose index begins with `i`. -/
theorem flatMap_elem {t : Tensor} {a b i : List ℕ} (hshape : t.shape = a ++ b)
    (hi : i.length = a.length) :
    ((indices b).flatMap fun j => t.elem (i ++ j)) =
      read t.mem (position a i * (b.prod * t.item)) (b.prod * t.item) := by
  rw [← flatMap_read, ← flatMap_position b fun k =>
    read t.mem (position a i * (b.prod * t.item) + k * t.item) t.item]
  refine List.flatMap_congr fun j _ => ?_
  show read t.mem (position t.shape (i ++ j) * t.item) t.item = _
  rw [hshape, position_append hi, Nat.add_mul, Nat.mul_assoc]

/-- **Moving the first dimension of a stack interleaves its entries.** -/
theorem data_movedim {t : Tensor} {world : ℕ} {outer inner : List ℕ}
    (hshape : t.shape = world :: (outer ++ inner)) :
    (t.movedim outer.length).data =
      interleave world outer.prod (inner.prod * t.item) fun w p =>
        t.mem (w * (outer.prod * (inner.prod * t.item)) + p) := by
  have hmoved : t.shape.tail.take outer.length ++ t.shape.headD 1 :: t.shape.tail.drop outer.length =
      outer ++ world :: inner := by
    rw [hshape]
    show (outer ++ inner).take outer.length ++ world :: (outer ++ inner).drop outer.length = _
    rw [List.take_left, List.drop_left]
  show (indices (t.shape.tail.take outer.length ++ t.shape.headD 1 ::
    t.shape.tail.drop outer.length)).flatMap _ = _
  rw [hmoved, indices_append, List.flatMap_assoc]
  unfold interleave
  rw [← flatMap_position]
  refine List.flatMap_congr fun i hi => ?_
  have hlen := length_of_mem_indices hi
  rw [List.flatMap_map, indices_cons, List.flatMap_assoc]
  refine List.flatMap_congr fun w _ => ?_
  rw [List.flatMap_map]
  have hblock := flatMap_elem (t := t) (a := world :: outer) (b := inner) (i := w :: i) hshape
    (congrArg Nat.succ hlen)
  refine (List.flatMap_congr fun j _ => ?_).trans (hblock.trans (read_congr fun p _ => ?_))
  · show t.elem ((i ++ w :: j).getD outer.length 0 :: (i ++ w :: j).eraseIdx outer.length) = _
    rw [← hlen, getD_append, eraseIdx_append]
    rfl
  · show t.mem ((w * outer.prod + position outer i) * (inner.prod * t.item) + p) = _
    congr 1
    ring

/-- **A concatenation interleaves its parts**, at a dimension of size `n` after `outer` and
before `inner`. -/
theorem cat_eq_some {parts : ℕ → Tensor} {world n elementSize : ℕ} {outer inner : List ℕ}
    (hworld : 0 < world) (hshape : ∀ w < world, (parts w).shape = outer ++ n :: inner)
    (hsize : ∀ w < world, (parts w).item = elementSize) :
    ∃ out, cat outer.length ((List.range world).map parts) = some out ∧
      out.shape = outer ++ (world * n) :: inner ∧ out.item = elementSize ∧
      out.data = interleave world outer.prod ((n :: inner).prod * elementSize) fun w =>
        (parts w).mem := by
  obtain ⟨k, rfl⟩ := Nat.exists_eq_succ_of_ne_zero hworld.ne'
  have hparts : (List.range (k + 1)).map parts =
      parts 0 :: (List.range k).map fun w => parts (w + 1) := by
    rw [List.range_succ_eq_map, List.map_cons, List.map_map]
    rfl
  have hmem : ∀ t ∈ (List.range (k + 1)).map parts,
      t.shape = (parts 0).shape ∧ t.item = (parts 0).item := by
    intro t ht
    obtain ⟨w, hw, rfl⟩ := List.mem_map.mp ht
    have hw' := List.mem_range.mp hw
    exact ⟨(hshape w hw').trans (hshape 0 hworld).symm, (hsize w hw').trans (hsize 0 hworld).symm⟩
  have hlen : ((List.range (k + 1)).map parts).length = k + 1 := by
    rw [List.length_map, List.length_range]
  rw [hparts] at hmem hlen ⊢
  have hdim : outer.length < (parts 0).shape.length := by
    rw [hshape 0 hworld, List.length_append, List.length_cons]
    exact Nat.lt_add_of_pos_right (Nat.succ_pos _)
  have hmod : (parts 0).shape.modify outer.length ((k + 1) * ·) =
      outer ++ ((k + 1) * n) :: inner := by
    rw [hshape 0 hworld, modify_append]
  refine ⟨_, dif_pos ⟨hdim, hmem⟩, ?_, hsize 0 hworld, ?_⟩
  · show (parts 0).shape.modify outer.length _ = _
    rw [hlen]
    exact hmod
  · show (indices ((parts 0).shape.modify outer.length _)).flatMap _ = _
    rw [hlen, hmod, indices_append, List.flatMap_assoc, ← hparts]
    unfold interleave
    rw [← flatMap_position]
    refine List.flatMap_congr fun i hi => ?_
    have hi' := length_of_mem_indices hi
    rw [List.flatMap_map, indices_cons, List.flatMap_assoc, flatMap_range_mul]
    refine List.flatMap_congr fun w hw => ?_
    have hw' := List.mem_range.mp hw
    rw [← hsize w hw', ← flatMap_elem (hshape w hw') hi', indices_cons, List.flatMap_assoc]
    refine List.flatMap_congr fun m hm => ?_
    have hm' := List.mem_range.mp hm
    rw [List.flatMap_map, List.flatMap_map]
    refine List.flatMap_congr fun j _ => ?_
    -- entry `w * n + m` of the dimension is entry `m` of part `w`
    have hdiv : (w * n + m) / n = w := by
      rw [Nat.add_comm, Nat.add_mul_div_right _ _ (Nat.zero_lt_of_lt hm'), Nat.div_eq_of_lt hm',
        Nat.zero_add]
    have hrem : (w * n + m) % n = m := by
      rw [Nat.add_comm, Nat.add_mul_mod_self_right, Nat.mod_eq_of_lt hm']
    have hsource : ((List.range (k + 1)).map parts).getD w (parts 0) = parts w := by
      rw [List.getD_eq_getElem _ _ (by rwa [List.length_map, List.length_range]), List.getElem_map,
        List.getElem_range]
    show (((List.range (k + 1)).map parts).getD ((i ++ (w * n + m) :: j).getD outer.length 0 /
      (parts 0).shape.getD outer.length 0) (parts 0)).elem ((i ++ (w * n + m) :: j).modify
        outer.length (· % (parts 0).shape.getD outer.length 0)) = _
    rw [hshape 0 hworld, getD_append, ← hi', getD_append, modify_append, hdiv, hrem, hsource]

end Tensor

end RowMajor
