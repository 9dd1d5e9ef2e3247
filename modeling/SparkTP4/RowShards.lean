import Mathlib.Data.List.OfFn
import Mathlib.Data.List.Basic
import Mathlib.Tactic.Ring

/-!
# Row shards and their gathering

Splitting the rows of a tensor over a group of ranks, and concatenating
the shards again. `shardRows s r t` is the block of `s` rows that starts at
row `r * s`, and `gatherRows` is the concatenation of the rows the ranks
hold, in rank order. On a tensor of `W * s` rows the two are inverse to each
other (`gatherRows_shardRows`, `shardRows_gatherRows`), and a shard commutes
with every function that acts row by row. Row `i` of the whole is row `i % s`
of the shard of rank `i / s` (`getElem?_owner`).
-/

namespace RowShards

variable {α β γ : Type*} {W : ℕ}

/-- The `s` rows of `t` that rank `r` owns: `t[r * s : (r + 1) * s]`. -/
def shardRows (s r : ℕ) (t : List α) : List α := (t.drop (r * s)).take s

/-- The rows of every rank, concatenated in rank order. -/
def gatherRows (f : Fin W → List α) : List α := (List.ofFn f).flatten

/-! ## Shards -/

theorem length_shardRows {s r n : ℕ} {t : List α} (hr : r < n)
    (ht : t.length = n * s) : (shardRows s r t).length = s := by
  unfold shardRows
  have hle : (r + 1) * s ≤ n * s := Nat.mul_le_mul_right s hr
  rw [Nat.succ_mul] at hle
  rw [List.length_take, List.length_drop]
  omega

theorem getElem?_shardRows {s r j : ℕ} (t : List α) (hj : j < s) :
    (shardRows s r t)[j]? = t[r * s + j]? := by
  unfold shardRows
  rw [List.getElem?_take_of_lt hj, List.getElem?_drop]

theorem shardRows_map (s r : ℕ) (f : α → β) (t : List α) :
    shardRows s r (t.map f) = (shardRows s r t).map f := by
  unfold shardRows
  rw [← List.map_drop, ← List.map_take]

theorem shardRows_zipWith (s r : ℕ) (f : α → β → γ) (t : List α) (u : List β) :
    shardRows s r (List.zipWith f t u)
      = List.zipWith f (shardRows s r t) (shardRows s r u) := by
  unfold shardRows
  rw [List.drop_zipWith, List.take_zipWith]

theorem shardRows_zip (s r : ℕ) (t : List α) (u : List β) :
    shardRows s r (t.zip u) = (shardRows s r t).zip (shardRows s r u) :=
  shardRows_zipWith s r Prod.mk t u

/-! ## Gathering -/

theorem gatherRows_succ (f : Fin (W + 1) → List α) :
    gatherRows f = f 0 ++ gatherRows (fun r : Fin W => f r.succ) := by
  unfold gatherRows
  rw [List.ofFn_succ, List.flatten_cons]

theorem length_gatherRows {s : ℕ} {f : Fin W → List α}
    (hf : ∀ r, (f r).length = s) : (gatherRows f).length = W * s := by
  induction W with
  | zero => simp [gatherRows]
  | succ W ih =>
    rw [gatherRows_succ, List.length_append, hf, ih (fun r => hf r.succ)]
    ring

/-- Row `o * s + j` of the gathered rows is row `j` of rank `o`. -/
theorem getElem?_gatherRows {s j : ℕ} {f : Fin W → List α}
    (hf : ∀ r, (f r).length = s) (o : Fin W) (hj : j < s) :
    (gatherRows f)[o.val * s + j]? = (f o)[j]? := by
  induction W with
  | zero => exact o.elim0
  | succ W ih =>
    rw [gatherRows_succ]
    refine Fin.cases ?_ (fun o' => ?_) o
    · rw [Fin.val_zero, Nat.zero_mul, Nat.zero_add]
      exact List.getElem?_append_left (by rw [hf]; exact hj)
    · have hidx : o'.succ.val * s + j = s + (o'.val * s + j) := by
        rw [Fin.val_succ]
        ring
      rw [hidx, List.getElem?_append_right (by rw [hf]; exact Nat.le_add_right _ _),
        hf, Nat.add_sub_cancel_left]
      exact ih (fun r => hf r.succ) o'

/-- **Gathering the shards of a tensor gives the tensor back.** -/
theorem gatherRows_shardRows {s : ℕ} {t : List α} (ht : t.length = W * s) :
    gatherRows (fun r : Fin W => shardRows s r t) = t := by
  have hlen : ∀ r : Fin W, (shardRows s r t).length = s :=
    fun r => length_shardRows r.isLt ht
  apply List.ext_getElem?
  intro i
  by_cases hi : i < W * s
  · have hs : 0 < s := Nat.pos_of_ne_zero (fun h => by simp [h] at hi)
    have ho : i / s < W := (Nat.div_lt_iff_lt_mul hs).mpr hi
    have hj : i % s < s := Nat.mod_lt _ hs
    have hsplit : i = (⟨i / s, ho⟩ : Fin W).val * s + i % s :=
      (Nat.div_add_mod' i s).symm
    rw [hsplit, getElem?_gatherRows hlen ⟨i / s, ho⟩ hj, getElem?_shardRows t hj]
  · rw [List.getElem?_eq_none (by rw [length_gatherRows hlen]; omega),
      List.getElem?_eq_none (by omega)]

/-- The shard of a gathered tensor is what its rank held. -/
theorem shardRows_gatherRows {s : ℕ} {f : Fin W → List α}
    (hf : ∀ r, (f r).length = s) (r : Fin W) :
    shardRows s r (gatherRows f) = f r := by
  apply List.ext_getElem?
  intro j
  by_cases hj : j < s
  · rw [getElem?_shardRows _ hj, getElem?_gatherRows hf r hj]
  · rw [List.getElem?_eq_none (by
        rw [length_shardRows r.isLt (length_gatherRows hf)]; omega),
      List.getElem?_eq_none (by rw [hf]; omega)]

/-- **Owner and local index.** Row `i` is row `i % s` of the shard that
rank `i / s` owns. -/
theorem getElem?_owner {s i : ℕ} (t : List α) (hs : 0 < s) :
    (shardRows s (i / s) t)[i - i / s * s]? = t[i]? := by
  have hmod : i - i / s * s = i % s := by
    have h := Nat.div_add_mod' i s
    omega
  rw [hmod, getElem?_shardRows t (Nat.mod_lt _ hs), Nat.div_add_mod']

end RowShards
