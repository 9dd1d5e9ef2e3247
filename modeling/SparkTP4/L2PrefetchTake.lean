import Mathlib.Data.List.Flatten
import Mathlib.Data.List.TakeDrop
import Mathlib.Data.Nat.Basic
import SparkTP4.FetchAhead
import SparkTP4.L2Prefetch

/-!
# Positions in a queue as numbers of units

A weight is prefetched in units of 16 bytes; what is left at its end, less than 16 bytes, is
not prefetched. A position in a queue is then a number of units (`index`), and `_take` takes
the units from that number on (`units_take`), as many as the budget pays for.
-/

namespace L2Prefetch

/-- A unit: the read and the number of the 16 bytes in its weight. -/
abbrev Piece := ℕ × ℕ

/-- The units of a weight. -/
def Item.units (it : Item) : List Piece := (List.range (it.nbytes / 16)).map (it.read, ·)

/-- The units of a queue, in the order of reading. -/
def queueUnits (q : List Item) : List Piece := q.flatMap Item.units

/-- The units of a segment. -/
def Segment.units (s : Segment) : List Piece :=
  (List.range' (s.off / 16) (s.bytes / 16)).map (s.item.read, ·)

/-- The units of all segments. -/
def unitsOf (segs : List Segment) : List Piece := segs.flatMap Segment.units

/-- The number of units before a position. -/
def index (q : List Item) (p : Pos) : ℕ := (queueUnits (q.take p.1)).length + p.2 / 16

/-- A position of a queue: an offset is a multiple of 16 inside its item. -/
structure Valid (q : List Item) (p : Pos) : Prop where
  le : p.1 ≤ q.length
  dvd : 16 ∣ p.2
  inside : p.2 ≠ 0 → ∃ it, q[p.1]? = some it ∧ p.2 ≤ it.nbytes

/-- A piece of a weight of the queue: whole units, at least one. -/
structure Segment.Good (q : List Item) (s : Segment) : Prop where
  mem : s.item ∈ q
  off : 16 ∣ s.off
  bytes : 16 ∣ s.bytes
  pos : 0 < s.bytes
  inside : s.off + s.bytes ≤ s.item.nbytes

theorem valid_zero (q : List Item) : Valid q (0, 0) :=
  ⟨Nat.zero_le _, Nat.dvd_zero 16, fun h => absurd rfl h⟩

theorem index_zero (q : List Item) : index q (0, 0) = 0 := rfl

theorem Item.length_units (it : Item) : it.units.length = it.nbytes / 16 := by
  simp [Item.units]

theorem queueUnits_nil : queueUnits [] = [] := rfl

theorem queueUnits_append (q q' : List Item) :
    queueUnits (q ++ q') = queueUnits q ++ queueUnits q' := List.flatMap_append

theorem queueUnits_cons (it : Item) (q : List Item) :
    queueUnits (it :: q) = it.units ++ queueUnits q := List.flatMap_cons

theorem queueUnits_sublist {q q' : List Item} (h : q.Sublist q') :
    (queueUnits q).Sublist (queueUnits q') := h.flatMap _

theorem unitsOf_append (s s' : List Segment) : unitsOf (s ++ s') = unitsOf s ++ unitsOf s' :=
  List.flatMap_append

/-- The units from a position on, when the position is in the item at hand. -/
theorem drop_index (done q : List Item) (off : ℕ) :
    (queueUnits (done ++ q)).drop (index (done ++ q) (done.length, off)) =
      (queueUnits q).drop (off / 16) := by
  rw [index, List.take_left, queueUnits_append, List.drop_append]
  simp

theorem total_append (s s' : List Segment) : total (s ++ s') = total s + total s' := by
  rw [total, List.map_append, List.sum_append, total, total]

theorem total_nil : total [] = 0 := rfl

/-- Whole units are counted by the bytes. -/
theorem total_eq {segs : List Segment} (h : ∀ s ∈ segs, 16 ∣ s.bytes) :
    total segs = 16 * (unitsOf segs).length := by
  induction segs with
  | nil => rfl
  | cons s segs ih =>
    have hs := h s List.mem_cons_self
    have hlen : s.units.length = s.bytes / 16 := by
      rw [Segment.units, List.length_map, List.length_range']
    have hcons : unitsOf (s :: segs) = s.units ++ unitsOf segs := rfl
    have htotal : total (s :: segs) = s.bytes + total segs := rfl
    rw [htotal, ih fun v hv => h v (List.mem_cons_of_mem s hv), hcons, List.length_append, hlen,
      Nat.mul_add, Nat.mul_div_cancel' hs]

/-! ## `_take` -/

/-- What `_take` returns from a position on: the units that follow, the position after them,
good segments, and the end of the queue whenever 16 bytes of the budget are left. -/
structure Taken (q : List Item) (start : Pos) (budget : ℕ) (out : List Segment × Pos) : Prop where
  units : unitsOf out.1 = ((queueUnits q).drop (index q start)).take (budget / 16)
  index : index q out.2 = min (queueUnits q).length (index q start + budget / 16)
  valid : Valid q out.2
  good : ∀ s ∈ out.1, s.Good q
  ended : 16 ≤ budget - total out.1 → q.length ≤ out.2.1

theorem Segment.units_mk (it : Item) (off bytes : ℕ) : (⟨it, off, bytes⟩ : Segment).units =
    (List.range' (off / 16) (bytes / 16)).map (it.read, ·) := rfl

/-- The units of an item from an offset on. -/
theorem Item.drop_units (it : Item) (u : ℕ) :
    it.units.drop u = (List.range' u (it.nbytes / 16 - u)).map (it.read, ·) := by
  rw [Item.units, ← List.map_drop, List.range_eq_range', List.drop_range', Nat.zero_add,
    Nat.mul_one]

/-- The segment of one turn, when it is one. -/
def turn (it : Item) (off bytes : ℕ) : List Segment := if 0 < bytes then [⟨it, off, bytes⟩] else []

theorem unitsOf_turn (it : Item) (off bytes : ℕ) : unitsOf (turn it off bytes) =
    (List.range' (off / 16) (bytes / 16)).map (it.read, ·) := by
  unfold turn
  split
  · rw [unitsOf, List.flatMap_singleton, Segment.units_mk]
  · rename_i h
    obtain rfl := Nat.eq_zero_of_not_pos h
    rfl

theorem total_turn (it : Item) (off bytes : ℕ) : total (turn it off bytes) = bytes := by
  unfold turn
  split
  · exact Nat.add_zero bytes
  · rename_i h
    exact (Nat.eq_zero_of_not_pos h).symm

theorem takeFrom_cons (i off left : ℕ) (it : Item) (q : List Item) (h : ¬ left < 16) :
    takeFrom i off left (it :: q) =
      if left < it.nbytes - off then
        (turn it off (min (it.nbytes - off) left / 16 * 16),
          (i, off + min (it.nbytes - off) left / 16 * 16))
      else
        (turn it off (min (it.nbytes - off) left / 16 * 16) ++
          (takeFrom (i + 1) 0 (left - min (it.nbytes - off) left / 16 * 16) q).1,
        (takeFrom (i + 1) 0 (left - min (it.nbytes - off) left / 16 * 16) q).2) := by
  rw [takeFrom, if_neg h]
  rfl

theorem Valid.off_le {q done : List Item} {it : Item} {off : ℕ}
    (h : Valid (done ++ it :: q) (done.length, off)) : off ≤ it.nbytes := by
  by_cases hoff : off = 0
  · rw [hoff]
    exact Nat.zero_le _
  obtain ⟨it', hit, hle⟩ := h.inside hoff
  rw [List.getElem?_append_right (Nat.le_refl _), Nat.sub_self, List.getElem?_cons_zero] at hit
  exact Option.some.inj hit ▸ hle

/-- A position at the end has no offset. -/
theorem Valid.off_eq_zero {done : List Item} {off : ℕ} (h : Valid done (done.length, off)) :
    off = 0 := by
  by_contra hoff
  obtain ⟨it, hit, -⟩ := h.inside hoff
  rw [List.getElem?_eq_none (Nat.le_refl _)] at hit
  exact nomatch hit

theorem index_append_length (done q : List Item) (off : ℕ) :
    index (done ++ q) (done.length, off) = (queueUnits done).length + off / 16 := by
  rw [index, List.take_left]

section Loop

variable {done q : List Item} {it : Item} {off left : ℕ}

theorem drop_index_cons (h : off ≤ it.nbytes) :
    (queueUnits (done ++ it :: q)).drop (index (done ++ it :: q) (done.length, off)) =
      it.units.drop (off / 16) ++ queueUnits q := by
  rw [drop_index, queueUnits_cons, List.drop_append_of_le_length]
  rw [it.length_units]
  exact Nat.div_le_div_right h

theorem length_queueUnits_cons : (queueUnits (done ++ it :: q)).length =
    (queueUnits done).length + (it.nbytes / 16 + (queueUnits q).length) := by
  rw [queueUnits_append, queueUnits_cons, List.length_append, List.length_append, it.length_units]

/-- The segment of a turn is a piece of its weight. -/
theorem good_turn {bytes : ℕ} (hoff : 16 ∣ off) (hbytes : 16 ∣ bytes)
    (hinside : off + bytes ≤ it.nbytes) {s : Segment} (hs : s ∈ turn it off bytes) :
    s.Good (done ++ it :: q) := by
  unfold turn at hs
  split at hs
  · obtain rfl := List.mem_singleton.mp hs
    exact ⟨List.mem_append_right _ List.mem_cons_self, hoff, hbytes, ‹_›, hinside⟩
  · exact nomatch hs

/-- Fewer than 16 bytes left: nothing. -/
theorem taken_stop (h : Valid (done ++ it :: q) (done.length, off)) (hleft : left < 16) :
    Taken (done ++ it :: q) (done.length, off) left ([], (done.length, off)) where
  units := by
    rw [Nat.div_eq_of_lt hleft, List.take_zero]
    rfl
  index := by
    have hoff := Nat.div_le_div_right (c := 16) h.off_le
    rw [Nat.div_eq_of_lt hleft, index_append_length, length_queueUnits_cons]
    omega
  valid := h
  good _ hs := nomatch hs
  ended hend := absurd hleft (Nat.not_lt_of_le hend)

/-- The budget ends inside the weight. -/
theorem taken_cut (h : Valid (done ++ it :: q) (done.length, off)) (hcut : left < it.nbytes - off) :
    Taken (done ++ it :: q) (done.length, off) left
      (turn it off (left / 16 * 16), (done.length, off + left / 16 * 16)) := by
  have hoff := h.off_le
  obtain ⟨o, ho⟩ : 16 ∣ off := h.dvd
  have hinside : off + left / 16 * 16 ≤ it.nbytes := by omega
  refine ⟨?_, ?_, ⟨h.le, ?_, fun _ => ⟨it, ?_, hinside⟩⟩, fun s hs => ?_, fun hend => ?_⟩
  · rw [drop_index_cons hoff, unitsOf_turn, it.drop_units, Nat.mul_div_cancel _ (by decide),
      List.take_append_of_le_length (by simp; omega), ← List.map_take,
      List.take_range'_of_length_ge (by omega)]
  · dsimp only
    rw [index_append_length, index_append_length, length_queueUnits_cons]
    omega
  · dsimp only
    omega
  · simp
  · exact good_turn ⟨o, ho⟩ (Nat.dvd_mul_left 16 _) hinside hs
  · dsimp only at hend
    rw [total_turn] at hend
    omega

/-- The rest of the weight fits; the loop goes on with the next. -/
theorem taken_whole (h : Valid (done ++ it :: q) (done.length, off))
    (hfit : it.nbytes - off ≤ left) {out : List Segment × Pos}
    (hout : Taken ((done ++ [it]) ++ q) (done.length + 1, 0)
      (left - (it.nbytes - off) / 16 * 16) out) :
    Taken (done ++ it :: q) (done.length, off) left
      (turn it off ((it.nbytes - off) / 16 * 16) ++ out.1, out.2) := by
  have hoff := h.off_le
  obtain ⟨o, ho⟩ : 16 ∣ off := h.dvd
  have hqueue : (done ++ [it]) ++ q = done ++ it :: q := by simp
  have hlen : (done ++ [it]).length = done.length + 1 := List.length_append
  have hstart := index_append_length (done ++ [it]) q 0
  have hrest := drop_index (done ++ [it]) q 0
  rw [hlen, hqueue] at hstart hrest
  rw [hqueue] at hout
  rw [queueUnits_append, List.length_append, queueUnits_cons, List.length_append,
    it.length_units, queueUnits_nil, List.length_nil] at hstart
  have hinside : off + (it.nbytes - off) / 16 * 16 ≤ it.nbytes := by omega
  refine ⟨?_, ?_, hout.valid, fun s hs => ?_, fun hend => ?_⟩
  · rw [unitsOf_append, unitsOf_turn, hout.units, hrest, drop_index_cons hoff, it.drop_units,
      Nat.mul_div_cancel _ (by decide), Nat.zero_div, List.drop_zero, List.take_append]
    have hsize : it.nbytes / 16 - off / 16 = (it.nbytes - off) / 16 := by omega
    have hall : ((List.range' (off / 16) ((it.nbytes - off) / 16)).map (it.read, ·)).length ≤
        left / 16 := by
      rw [List.length_map, List.length_range']
      omega
    rw [hsize, List.take_of_length_le hall, List.length_map, List.length_range']
    congr 2
    omega
  · dsimp only
    rw [hout.index, hstart, index_append_length, length_queueUnits_cons]
    omega
  · rcases List.mem_append.mp hs with hs | hs
    · exact good_turn ⟨o, ho⟩ (Nat.dvd_mul_left 16 _) hinside hs
    · exact hout.good s hs
  · dsimp only at hend
    rw [total_append, total_turn, ← Nat.sub_sub] at hend
    exact hout.ended hend

end Loop

/-- **The loop of `_take`.** The induction is on what is left of the queue. -/
theorem takeFrom_taken (q done : List Item) (off left : ℕ)
    (h : Valid (done ++ q) (done.length, off)) :
    Taken (done ++ q) (done.length, off) left (takeFrom done.length off left q) := by
  induction q generalizing done off left with
  | nil =>
    rw [List.append_nil] at h ⊢
    obtain rfl := h.off_eq_zero
    have hindex := index_append_length done [] 0
    rw [List.append_nil, Nat.zero_div, Nat.add_zero] at hindex
    refine ⟨?_, ?_, h, fun s hs => (nomatch hs), fun _ => Nat.le_refl _⟩
    · rw [hindex, List.drop_length, List.take_nil]
      rfl
    · rw [hindex, Nat.min_eq_left (Nat.le_add_right _ _)]
      exact hindex
  | cons it q ih =>
    by_cases hleft : left < 16
    · rw [takeFrom, if_pos hleft]
      exact taken_stop h hleft
    rw [takeFrom_cons _ _ _ _ _ hleft]
    by_cases hcut : left < it.nbytes - off
    · rw [if_pos hcut, Nat.min_eq_right (Nat.le_of_lt hcut)]
      exact taken_cut h hcut
    · have hfit : it.nbytes - off ≤ left := Nat.le_of_not_lt hcut
      rw [if_neg hcut, Nat.min_eq_left hfit]
      have hvalid : Valid ((done ++ [it]) ++ q) ((done ++ [it]).length, 0) :=
        ⟨by simp, Nat.dvd_zero 16, fun hne => absurd rfl hne⟩
      have hnext := ih (done ++ [it]) 0 (left - (it.nbytes - off) / 16 * 16) hvalid
      rw [List.length_append] at hnext
      exact taken_whole h hfit hnext

/-- **`_take` takes the units from its start on**, as many as the budget pays for. -/
theorem take_taken {q : List Item} {start : Pos} (h : Valid q start) (budget : ℕ) :
    Taken q start budget (take q start budget) := by
  have hlen : (q.take start.1).length = start.1 := List.length_take_of_le h.le
  have hloop := takeFrom_taken (q.drop start.1) (q.take start.1) start.2 budget
  rw [List.take_append_drop, hlen] at hloop
  exact hloop h

/-! ## The order of positions -/

theorem index_le_of_before {q : List Item} {p p' : Pos} (h : Valid q p) (h' : Valid q p')
    (hlt : p.Before p') : index q p ≤ index q p' := by
  obtain ⟨i, off⟩ := p
  obtain ⟨i', off'⟩ := p'
  rcases hlt with hlt | ⟨hi, hoff⟩
  · -- the earlier item ends where the next begins, and no later than the later position
    dsimp only at hlt
    have hi : i < q.length := Nat.lt_of_lt_of_le hlt h'.le
    have hsub : (queueUnits (q.take (i + 1))).length ≤ (queueUnits (q.take i')).length :=
      (queueUnits_sublist (List.take_sublist_take_left hlt)).length_le
    have hnext : q.take (i + 1) = q.take i ++ [q[i]] := List.take_succ_eq_append_getElem hi
    have hoff : off ≤ q[i].nbytes := by
      by_cases hzero : off = 0
      · rw [hzero]
        exact Nat.zero_le _
      obtain ⟨it, hit, hle⟩ := h.inside hzero
      rw [List.getElem?_eq_getElem hi] at hit
      exact Option.some.inj hit ▸ hle
    rw [hnext, queueUnits_append, List.length_append, queueUnits_cons, List.length_append,
      Item.length_units] at hsub
    simp only [index]
    omega
  · dsimp only at hi hoff
    subst hi
    simp only [index]
    omega

end L2Prefetch
