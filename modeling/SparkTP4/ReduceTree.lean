import Mathlib.Data.List.Basic
import Mathlib.Data.List.Nodup

/-!
# Reductions in an unspecified association

A reduction of lanes combines them in the order of some binary tree whose leaves are the
lanes. Of an operation that only a neutral element is known of, a reduction tells nothing in
general; but where all lanes but one hold the neutral element, it is that lane, in every
order (`reduce_single`).
-/

/-- An order of combining: lanes at the leaves, one combination at each node. -/
inductive ReduceTree where
  | leaf : ℕ → ReduceTree
  | node : ReduceTree → ReduceTree → ReduceTree

namespace ReduceTree

/-- The lanes that are combined. -/
def lanes : ReduceTree → List ℕ
  | leaf i => [i]
  | node l r => l.lanes ++ r.lanes

variable {K : Type} (op : K → K → K) {z : K} {v : ℕ → K}

/-- The lanes of `v` combined. -/
def reduce (v : ℕ → K) : ReduceTree → K
  | leaf i => v i
  | node l r => op (l.reduce v) (r.reduce v)

/-- The neutral element combined. -/
theorem reduce_neutral (hright : ∀ x, op x z = x) : ∀ {t : ReduceTree},
    (∀ j ∈ t.lanes, v j = z) → t.reduce op v = z
  | leaf i, h => h i (List.mem_singleton_self i)
  | node l r, h => by
    show op (l.reduce op v) (r.reduce op v) = z
    rw [reduce_neutral hright fun j hj => h j (List.mem_append_right _ hj),
      reduce_neutral hright fun j hj => h j (List.mem_append_left _ hj), hright]

/-- **A reduction of one lane among neutral ones** is that lane. -/
theorem reduce_single (hright : ∀ x, op x z = x) (hleft : ∀ x, op z x = x) {i : ℕ} :
    ∀ {t : ReduceTree}, t.lanes.Nodup → i ∈ t.lanes → (∀ j ∈ t.lanes, j ≠ i → v j = z) →
      t.reduce op v = v i
  | leaf j, _, hi, _ => by
    rw [List.mem_singleton.mp hi]
    rfl
  | node l r, hnodup, hi, h => by
    obtain ⟨hl, hr, hdisjoint⟩ := List.nodup_append.mp hnodup
    have hleftLanes := fun j hj => h j (List.mem_append_left r.lanes hj)
    have hrightLanes := fun j hj => h j (List.mem_append_right l.lanes hj)
    show op (l.reduce op v) (r.reduce op v) = v i
    rcases List.mem_append.mp hi with hmem | hmem
    · rw [reduce_single hright hleft hl hmem hleftLanes,
        reduce_neutral op hright fun j hj => hrightLanes j hj (hdisjoint i hmem j hj).symm, hright]
    · rw [reduce_single hright hleft hr hmem hrightLanes,
        reduce_neutral op hright fun j hj => hleftLanes j hj (hdisjoint j hj i hmem), hleft]

end ReduceTree
