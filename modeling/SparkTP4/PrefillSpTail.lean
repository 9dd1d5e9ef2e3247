import SparkTP4.PrefillSp

/-!
# The tail rows, gathered by their owners

The tail of a chunk is a suffix of its rows or a list of rows, in any order and with
repetitions. Every rank ends with the tail rows of the concatenated shards, on two
paths: gather every row and index, or let every rank send one row for every tail
row – the row of its own shard with that local index – and keep the copy of the
owner. On the second path most of what is sent is a row nobody asked for; the
results below say that none of it is kept.
-/

namespace PrefillSp

open RowShards

variable {W rows : ℕ} {α : Type}

/-- Gathering the ranks' own rows gives every row, on every rank. -/
theorem Plan.gatherAll_own (p : Plan W rows) {t : List α} (ht : t.length = rows) :
    gatherAll (fun r => p.own r t) = fun _ => t := by
  funext _
  exact gatherRows_shardRows (by rw [ht]; exact p.rows_eq)

/-! ## The indices of the tail -/

theorem Tail.length_indices (tail : Tail rows) : tail.indices.length = tail.nTail := by
  unfold indices nTail
  cases tail.contiguousStart <;> simp

theorem Tail.lt_of_mem_indices (tail : Tail rows) {i : ℕ} (hi : i ∈ tail.indices) :
    i < rows := by
  unfold indices at hi
  split at hi
  · obtain ⟨k, hk, rfl⟩ := List.mem_map.mp hi
    have := List.mem_range.mp hk
    omega
  · exact tail.index_lt i hi

/-- The real tail rows, row by row. -/
theorem Tail.realRows_eq_map (tail : Tail rows) (zero : α) {t : List α}
    (ht : t.length = rows) :
    tail.realRows zero t = tail.indices.map (fun i => t.getD i zero) := by
  unfold realRows indices
  cases tail.contiguousStart with
  | none => rfl
  | some start =>
    show t.drop start = ((List.range (rows - start)).map (start + ·)).map (fun i => t.getD i zero)
    apply List.ext_getElem
    · simp [ht]
    · intro i h₁ h₂
      rw [List.length_drop] at h₁
      have hi : start + i < t.length := by omega
      simp [List.getElem?_eq_getElem hi]

/-- No index of the tail is out of range, so no default is ever read. -/
theorem Tail.realRows_map_some (tail : Tail rows) (zero : α) {t : List α}
    (ht : t.length = rows) :
    (tail.realRows zero t).map some = tail.indices.map (fun i => t[i]?) := by
  rw [tail.realRows_eq_map zero ht, List.map_map]
  refine List.map_congr_left fun i hi => ?_
  have hlt : i < t.length := ht ▸ tail.lt_of_mem_indices hi
  simp [List.getElem?_eq_getElem hlt]

/-! ## The two paths -/

/-- What rank `q` sends on the path of the owners: for every tail row, the row of its own
shard with the clamped local index. -/
def sentRows (p : Plan W rows) (tail : Tail rows) (zero : α) (t : Fin W → List α) :
    Fin W → List α :=
  fun q => tail.indices.map (fun i =>
    (t q).getD (min (i - i / p.shard * p.shard) (p.shard - 1)) zero)

/-- What is kept of the rows sent: for every tail row, the copy of its owner. -/
def keptRows (p : Plan W rows) (tail : Tail rows) (zero : α) (sent : Fin W → List α) :
    Fin W → List α :=
  fun r => tail.indices.zipIdx.map (fun ij =>
    (gatherAll sent r).getD (ij.1 / p.shard * tail.nTail + ij.2) zero)

/-- **The choice of the path.** -/
theorem tailRealRows_eq_ite (p : Plan W rows) (tail : Tail rows) (zero : α)
    (t : Fin W → List α) :
    tailRealRows p tail zero t =
      if tailPlanFull rows W tail.nTail || tail.nTail == 0 then
        fun r => tail.realRows zero (gatherAll t r)
      else keptRows p tail zero (sentRows p tail zero t) := rfl

theorem length_sentRows (p : Plan W rows) (tail : Tail rows) (zero : α) (t : Fin W → List α)
    (q : Fin W) : (sentRows p tail zero t q).length = tail.nTail :=
  (List.length_map _).trans tail.length_indices

/-- Every tail row has an owner among the ranks. -/
theorem Tail.owner_lt (p : Plan W rows) (tail : Tail rows) {i : ℕ} (hi : i ∈ tail.indices) :
    i / p.shard < W := by
  refine Nat.div_lt_of_lt_mul ?_
  rw [Nat.mul_comm, ← p.rows_eq]
  exact tail.lt_of_mem_indices hi

/-- Position `j` of the rows kept is what the owner of tail row `j` sent at that position. -/
theorem getElem?_keptRows (p : Plan W rows) (tail : Tail rows) (zero : α)
    {sent : Fin W → List α} (hsent : ∀ q, (sent q).length = tail.nTail) (r : Fin W) {j : ℕ}
    (hj : j < tail.indices.length) :
    (keptRows p tail zero sent r)[j]? =
      (sent ⟨tail.indices[j] / p.shard, tail.owner_lt p (List.getElem_mem hj)⟩)[j]? := by
  have hn : j < tail.nTail := tail.length_indices ▸ hj
  -- the buffer is laid out rank by rank, `nTail` rows each
  have hbuf := getElem?_gatherRows hsent
    ⟨tail.indices[j] / p.shard, tail.owner_lt p (List.getElem_mem hj)⟩ hn
  have hlt : j < (sent ⟨tail.indices[j] / p.shard,
      tail.owner_lt p (List.getElem_mem hj)⟩).length := by rw [hsent]; exact hn
  simp only [keptRows, List.getElem?_map, List.getElem?_zipIdx, List.getElem?_eq_getElem hj,
    Option.map_some, Nat.zero_add, gatherAll, List.getD_eq_getElem?_getD]
  rw [hbuf, List.getElem?_eq_getElem hlt, Option.getD_some]

/-- **What a rank sends for rows it does not own** is never kept: the rows kept are the same
when only the owners' copies agree. -/
theorem keptRows_congr (p : Plan W rows) (tail : Tail rows) (zero : α)
    {sent sent' : Fin W → List α} (hsent : ∀ q, (sent q).length = tail.nTail)
    (hsent' : ∀ q, (sent' q).length = tail.nTail)
    (howned : ∀ (q : Fin W) (j i : ℕ), tail.indices[j]? = some i → i / p.shard = q →
      (sent q)[j]? = (sent' q)[j]?) :
    keptRows p tail zero sent = keptRows p tail zero sent' := by
  funext r
  apply List.ext_getElem?
  intro j
  by_cases hj : j < tail.indices.length
  · rw [getElem?_keptRows p tail zero hsent r hj, getElem?_keptRows p tail zero hsent' r hj]
    exact howned _ j _ (List.getElem?_eq_getElem hj) rfl
  · have hlen : ∀ f : Fin W → List α, (keptRows p tail zero f r).length ≤ j := fun f => by
      simpa [keptRows] using hj
    rw [List.getElem?_eq_none (hlen _), List.getElem?_eq_none (hlen _)]

/-- Row `i` of a tensor is the row its owner sends for it. -/
theorem getD_own (p : Plan W rows) (zero : α) (t : List α) {i : ℕ} (hi : i < rows) :
    (shardRows p.shard (i / p.shard) t).getD (min (i - i / p.shard * p.shard) (p.shard - 1)) zero
      = t.getD i zero := by
  have hs : 0 < p.shard := by
    rw [p.rows_eq] at hi
    exact Nat.pos_of_mul_pos_left (Nat.zero_lt_of_lt hi)
  have hmod : i - i / p.shard * p.shard ≤ p.shard - 1 := by
    have h := Nat.div_add_mod' i p.shard
    have := Nat.mod_lt i hs
    omega
  rw [Nat.min_eq_left hmod, List.getD_eq_getElem?_getD, getElem?_owner t hs,
    List.getD_eq_getElem?_getD]

/-- **The path of the owners** gives the tail rows of the tensor whose shards the ranks
hold. -/
theorem keptRows_own (p : Plan W rows) (tail : Tail rows) (zero : α) {t : List α}
    (ht : t.length = rows) :
    keptRows p tail zero (sentRows p tail zero fun r => p.own r t) =
      fun _ => tail.realRows zero t := by
  funext r
  rw [tail.realRows_eq_map zero ht]
  apply List.ext_getElem?
  intro j
  by_cases hj : j < tail.indices.length
  · rw [getElem?_keptRows p tail zero (length_sentRows p tail zero _) r hj]
    simp only [sentRows, List.getElem?_map, List.getElem?_eq_getElem hj, Option.map_some,
      Plan.own, getD_own p zero t (tail.lt_of_mem_indices (List.getElem_mem hj))]
  · rw [List.getElem?_eq_none (by simpa [keptRows] using hj),
      List.getElem?_eq_none (by simpa using hj)]

/-- **The tail rows collected from their owners** are the tail rows of the
gathered tensor. -/
theorem tailRealRows_own (p : Plan W rows) (tail : Tail rows) (zero : α) {t : List α}
    (ht : t.length = rows) :
    tailRealRows p tail zero (fun r => p.own r t) = fun _ => tail.realRows zero t := by
  rw [tailRealRows_eq_ite]
  split
  · rw [p.gatherAll_own ht]
  · exact keptRows_own p tail zero ht

theorem tailRows_own (p : Plan W rows) (tail : Tail rows) (zero : α) {t : List α}
    (ht : t.length = rows) :
    tailRows p tail zero (fun r => p.own r t) = fun _ => tail.rowsOf zero t := by
  unfold tailRows Tail.rowsOf
  rw [tailRealRows_own p tail zero ht]

/-! ## Any shards -/

/-- Shards of the right length are the shards of their concatenation. -/
theorem Plan.own_gatherRows (p : Plan W rows) {t : Fin W → List α}
    (ht : ∀ q, (t q).length = p.shard) : (fun r => p.own r (gatherRows t)) = t :=
  funext fun r => shardRows_gatherRows ht r

theorem Plan.length_gather (p : Plan W rows) {t : Fin W → List α}
    (ht : ∀ q, (t q).length = p.shard) : (gatherRows t).length = rows :=
  (length_gatherRows ht).trans p.rows_eq.symm

/-- **The tail rows are exact.** Whatever the ranks hold, every rank gets the tail rows of
the concatenation of the shards, each at the position of its index; the path that gathers
every row and the path of the owners both give them, for every tail; and on the latter the
result is the same when everything a rank sends for rows it does not own is replaced. -/
theorem tail_real_rows_exact (p : Plan W rows) (tail : Tail rows) (zero : α)
    {t : Fin W → List α} (ht : ∀ q, (t q).length = p.shard) (r : Fin W) :
    tailRealRows p tail zero t r = tail.realRows zero (gatherRows t) ∧
    (tailRealRows p tail zero t r).map some = tail.indices.map (fun i => (gatherRows t)[i]?) ∧
    tail.realRows zero (gatherAll t r) = tail.realRows zero (gatherRows t) ∧
    keptRows p tail zero (sentRows p tail zero t) r = tail.realRows zero (gatherRows t) ∧
    ∀ sent : Fin W → List α, (∀ q, (sent q).length = tail.nTail) →
      (∀ (q : Fin W) (j i : ℕ), tail.indices[j]? = some i → i / p.shard = q →
        (sent q)[j]? = (sentRows p tail zero t q)[j]?) →
      keptRows p tail zero sent r = tail.realRows zero (gatherRows t) := by
  have hlen := p.length_gather ht
  have hexact := tailRealRows_own p tail zero hlen
  have hkept := keptRows_own p tail zero hlen
  rw [p.own_gatherRows ht] at hexact hkept
  refine ⟨congrFun hexact r, ?_, rfl, congrFun hkept r, fun sent hsent howned => ?_⟩
  · rw [congrFun hexact r]
    exact tail.realRows_map_some zero hlen
  · rw [keptRows_congr p tail zero hsent (length_sentRows p tail zero t) howned]
    exact congrFun hkept r

/-- The literals of the ranks below. -/
theorem ranks_neZero : NeZero 2 := inferInstance

attribute [local instance] ranks_neZero

/-- The shards of six rows on two ranks. -/
def pairShards : Fin 2 → List ℕ := fun q => if q = 0 then [10, 11, 12] else [20, 21, 22]

/-- A tail of two rows of the six, the later one first. -/
def pairTail : Tail 6 where
  contiguousStart := none
  tokenIndices := [5, 1]
  positions := [5, 1]
  padRows := 0
  start_le _ h := nomatch h
  index_lt := by decide

theorem tail_real_rows_exact_pair :
    tailRealRows ⟨true, false, Nat.two_pos, rfl⟩ pairTail 0 pairShards 0 = [22, 11] :=
  (tail_real_rows_exact ⟨true, false, Nat.two_pos, rfl⟩ pairTail 0 (by decide) 0).1.trans
    (by decide)

end PrefillSp
