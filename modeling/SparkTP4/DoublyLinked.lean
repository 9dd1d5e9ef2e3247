import Mathlib.Data.List.Chain
import Mathlib.Data.List.Nodup

/-!
# Doubly linked lists

A doubly linked list is given by its pointers. A list of nodes is spanned by the pointers where
it has no duplicates and each two neighbours point at each other (`Links.Spans`). To remove a
node is to make its two neighbours point at each other (`Links.Removed`), and to insert a node
is to put it between two neighbours (`Links.Inserted`); each says what the other pointers do,
and nothing of the pointers of a node that has been removed.
-/

/-- The pointers of an intrusive list. -/
structure Links (Node : Type*) where
  next : Node → Option Node
  prev : Node → Option Node

namespace Links

variable {Node : Type*} {L L' : Links Node} {n p q : Node} {A B : List Node}

/-- Two neighbours point at each other. -/
def Linked (L : Links Node) (a b : Node) : Prop := L.next a = some b ∧ L.prev b = some a

/-- The pointers span a list of nodes. -/
structure Spans (L : Links Node) (l : List Node) : Prop where
  nodup : l.Nodup
  chain : l.IsChain L.Linked

/-- `n` has been removed from between `p` and `q`. -/
structure Removed (L : Links Node) (n p q : Node) (L' : Links Node) : Prop where
  next_eq : L'.next p = some q
  prev_eq : L'.prev q = some p
  next_ne : ∀ x, x ≠ n → x ≠ p → L'.next x = L.next x
  prev_ne : ∀ x, x ≠ n → x ≠ q → L'.prev x = L.prev x

/-- `n` has been inserted between `p` and `q`. -/
structure Inserted (L : Links Node) (p n q : Node) (L' : Links Node) : Prop where
  next_left : L'.next p = some n
  next_eq : L'.next n = some q
  prev_right : L'.prev q = some n
  prev_eq : L'.prev n = some p
  next_ne : ∀ x, x ≠ n → x ≠ p → L'.next x = L.next x
  prev_ne : ∀ x, x ≠ n → x ≠ q → L'.prev x = L.prev x

/-- The neighbours of a node of the list. -/
theorem Spans.neighbours (h : L.Spans (A ++ p :: n :: q :: B)) :
    L.Linked p n ∧ L.Linked n q := by
  have hchain := (List.isChain_append_cons_cons.mp h.chain).2
  exact ⟨hchain.1, (List.isChain_cons_cons.mp hchain.2).1⟩

/-- **A removal** keeps the rest of the list. -/
theorem Spans.remove (h : L.Spans (A ++ p :: n :: q :: B)) (hL : L.Removed n p q L') :
    L'.Spans (A ++ p :: q :: B) := by
  obtain ⟨hleft, hpn, hright⟩ := List.isChain_append_cons_cons.mp h.chain
  obtain ⟨hnq, hright⟩ := List.isChain_cons_cons.mp hright
  have hnodup := h.nodup
  simp only [List.nodup_append, List.nodup_cons, List.mem_cons, not_or] at hnodup
  obtain ⟨-, ⟨⟨hpn', hpq, hpB⟩, ⟨hnq', hnB⟩, hqB, -⟩, hA⟩ := hnodup
  refine ⟨?_, List.isChain_append_cons_cons.mpr ⟨?_, ⟨hL.next_eq, hL.prev_eq⟩, ?_⟩⟩
  · refine h.nodup.sublist ((List.Sublist.refl A).append ?_)
    exact ((List.sublist_cons_self n (q :: B)).cons_cons p)
  · refine List.IsChain.imp_of_mem_imp (fun a b ha hb hab => ?_) hleft
    have hne : ∀ x ∈ A ++ [p], x ≠ n := by
      rintro x hx rfl
      rcases List.mem_append.mp hx with hx | hx
      · exact hA x hx x (Or.inr (Or.inl rfl)) rfl
      · exact hpn' (List.mem_singleton.mp hx).symm
    have hap : a ≠ p := by
      rintro rfl
      exact hne b hb (Option.some.inj (hab.1.symm.trans hpn.1))
    have hbq : b ≠ q := by
      rintro rfl
      exact hne a ha (Option.some.inj (hab.2.symm.trans hnq.2))
    exact ⟨(hL.next_ne a (hne a ha) hap).trans hab.1, (hL.prev_ne b (hne b hb) hbq).trans hab.2⟩
  · refine List.IsChain.imp_of_mem_imp (fun a b ha hb hab => ?_) hright
    have hne : ∀ x ∈ q :: B, x ≠ n := by
      rintro x hx rfl
      rcases List.mem_cons.mp hx with rfl | hx
      · exact hnq' rfl
      · exact hnB hx
    have hap : a ≠ p := by
      rintro rfl
      rcases List.mem_cons.mp ha with hx | hx
      · exact hpq hx
      · exact hpB hx
    have hbq : b ≠ q := by
      rintro rfl
      exact hne a ha (Option.some.inj (hab.2.symm.trans hnq.2))
    exact ⟨(hL.next_ne a (hne a ha) hap).trans hab.1, (hL.prev_ne b (hne b hb) hbq).trans hab.2⟩

/-- **An insertion** keeps the rest of the list. -/
theorem Spans.insert (h : L.Spans (A ++ p :: q :: B)) (hn : n ∉ A ++ p :: q :: B)
    (hL : L.Inserted p n q L') : L'.Spans (A ++ p :: n :: q :: B) := by
  obtain ⟨hleft, hpq, hright⟩ := List.isChain_append_cons_cons.mp h.chain
  have hnodup := h.nodup
  simp only [List.nodup_append, List.nodup_cons, List.mem_cons, not_or] at hnodup
  obtain ⟨-, ⟨⟨hpq', hpB⟩, hqB, -⟩, hA⟩ := hnodup
  have hperm : (A ++ p :: n :: q :: B).Perm (n :: (A ++ p :: q :: B)) := by
    rw [List.append_cons, List.append_cons A p (q :: B)]
    exact List.perm_middle
  refine ⟨hperm.nodup_iff.mpr (List.nodup_cons.mpr ⟨hn, h.nodup⟩),
    List.isChain_append_cons_cons.mpr ⟨?_, ⟨hL.next_left, hL.prev_eq⟩,
      List.isChain_cons_cons.mpr ⟨⟨hL.next_eq, hL.prev_right⟩, ?_⟩⟩⟩
  · refine List.IsChain.imp_of_mem_imp (fun a b ha hb hab => ?_) hleft
    have hne : ∀ x ∈ A ++ [p], x ≠ n := by
      rintro x hx rfl
      refine hn ?_
      rcases List.mem_append.mp hx with hx | hx
      · exact List.mem_append_left _ hx
      · exact List.mem_append_right _ (List.mem_singleton.mp hx ▸ List.mem_cons_self)
    have hbq : b ≠ q := by
      rintro rfl
      rcases List.mem_append.mp hb with hb | hb
      · exact hA b hb b (Or.inr (Or.inl rfl)) rfl
      · exact hpq' (List.mem_singleton.mp hb).symm
    have hap : a ≠ p := by
      rintro rfl
      exact hbq (Option.some.inj (hab.1.symm.trans hpq.1))
    exact ⟨(hL.next_ne a (hne a ha) hap).trans hab.1, (hL.prev_ne b (hne b hb) hbq).trans hab.2⟩
  · refine List.IsChain.imp_of_mem_imp (fun a b ha hb hab => ?_) hright
    have hne : ∀ x ∈ q :: B, x ≠ n := by
      rintro x hx rfl
      exact hn (List.mem_append_right _ (List.mem_cons_of_mem p hx))
    have hap : a ≠ p := by
      rintro rfl
      rcases List.mem_cons.mp ha with ha | ha
      · exact hpq' ha
      · exact hpB ha
    have hbq : b ≠ q := by
      rintro rfl
      exact hap (Option.some.inj (hab.2.symm.trans hpq.2))
    exact ⟨(hL.next_ne a (hne a ha) hap).trans hab.1, (hL.prev_ne b (hne b hb) hbq).trans hab.2⟩

/-! ## Lists between sentinels -/

/-- A nonempty list has a last node. -/
theorem exists_last (x : Node) (a : List Node) : ∃ A p, x :: a = A ++ [p] :=
  ⟨_, _, (List.dropLast_concat_getLast (List.cons_ne_nil x a)).symm⟩

theorem exists_first (b : List Node) (x : Node) : ∃ q B, b ++ [x] = q :: B := by
  cases b with
  | nil => exact ⟨x, [], rfl⟩
  | cons q b => exact ⟨q, b ++ [x], rfl⟩

variable [DecidableEq Node] {head tail : Node} {l : List Node}

/-- The neighbours of a node between sentinels. -/
theorem Spans.exists_neighbours (h : L.Spans (head :: l ++ [tail])) (hn : n ∈ l) :
    ∃ p q, L.prev n = some p ∧ L.next n = some q ∧ p ≠ n ∧ q ≠ n ∧ L.next p = some n ∧
      L.prev q = some n ∧
      ∀ L', L.Removed n p q L' → L'.Spans (head :: l.erase n ++ [tail]) := by
  obtain ⟨a, b, hna, rfl, herase⟩ := List.exists_erase_eq hn
  obtain ⟨A, p, hA⟩ := exists_last head a
  obtain ⟨q, B, hB⟩ := exists_first b tail
  have hlist : head :: (a ++ n :: b) ++ [tail] = A ++ p :: n :: q :: B := by
    rw [← List.cons_append, hA, List.append_assoc, List.append_assoc]
    show A ++ p :: n :: (b ++ [tail]) = _
    rw [hB]
  rw [hlist] at h
  have hneighbours := h.neighbours
  have hnodup := h.nodup
  simp only [List.nodup_append, List.nodup_cons, List.mem_cons, not_or] at hnodup
  obtain ⟨-, ⟨⟨hpn, -, -⟩, ⟨hnq, -⟩, -⟩, -⟩ := hnodup
  refine ⟨p, q, hneighbours.1.2, hneighbours.2.1, hpn, Ne.symm hnq, hneighbours.1.1,
    hneighbours.2.2, fun L' hL => ?_⟩
  have hshort : head :: (a ++ b) ++ [tail] = A ++ p :: q :: B := by
    rw [← List.cons_append, hA, List.append_assoc, List.append_assoc, hB]
    rfl
  rw [herase, hshort]
  exact h.remove hL

omit [DecidableEq Node] in
/-- The last node before the tail. -/
theorem Spans.exists_tail (h : L.Spans (head :: l ++ [tail])) (hn : n ∉ head :: l ++ [tail]) :
    ∃ p, L.prev tail = some p ∧ L.next p = some tail ∧ p ≠ n ∧ tail ≠ n ∧
      ∀ L', L.Inserted p n tail L' → L'.Spans (head :: (l ++ [n]) ++ [tail]) := by
  obtain ⟨A, p, hA⟩ := exists_last head l
  have hlist : head :: l ++ [tail] = A ++ p :: tail :: [] := by
    rw [hA, List.append_assoc]
    rfl
  rw [hlist] at h hn
  have hlast := (List.isChain_append_cons_cons.mp h.chain).2.1
  refine ⟨p, hlast.2, hlast.1, ?_, ?_, fun L' hL => ?_⟩
  · rintro rfl
    exact hn (List.mem_append_right _ List.mem_cons_self)
  · rintro rfl
    exact hn (by simp)
  · have hlong : head :: (l ++ [n]) ++ [tail] = A ++ p :: n :: tail :: [] := by
      rw [← List.cons_append, hA, List.append_assoc, List.append_assoc]
      rfl
    rw [hlong]
    exact h.insert hn hL

end Links
