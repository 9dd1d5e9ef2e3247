import Mathlib.Data.List.Basic
import Mathlib.Data.List.Range
import Mathlib.Tactic.Ring

/-!
# Striping a message

A message of `n` packs is split into one contiguous stripe for each of `H`
rails, as even as possible, the longer stripes first (`stripe`); every pack is
in a stripe (`exists_mem_stripe`). A message of `total` packs is split into one
contiguous shard for each of `W` ranks (`shardStart`), and a shard into chunks
of `c` packs, the last one cut at the end of the shard (`chunk`).
-/

namespace Striping

/-! ## Stripes -/

/-- The packs of stripe `h`. -/
def stripePacks (n H h : ℕ) : ℕ := n / H + if h < n % H then 1 else 0

/-- The packs before stripe `h`. -/
def packOffset (n H : ℕ) : ℕ → ℕ
  | 0 => 0
  | h + 1 => packOffset n H h + stripePacks n H h

/-- The packs of the stripe `h` of the `n` packs that start at `lo`. -/
def stripe (lo n H h : ℕ) : List ℕ := List.range' (lo + packOffset n H h) (stripePacks n H h)

theorem mem_stripe {lo n H h i : ℕ} :
    i ∈ stripe lo n H h ↔ lo + packOffset n H h ≤ i ∧ i < lo + packOffset n H (h + 1) := by
  unfold stripe
  rw [List.mem_range'_1]
  show _ ↔ _ ∧ i < lo + (packOffset n H h + stripePacks n H h)
  rw [Nat.add_assoc]

theorem packOffset_eq (n H : ℕ) : ∀ h, packOffset n H h = h * (n / H) + min h (n % H)
  | 0 => by simp [packOffset]
  | h + 1 => by
    rw [packOffset, packOffset_eq n H h, stripePacks, Nat.succ_mul]
    split <;> omega

/-- The stripes are the whole message. -/
theorem packOffset_last {n H : ℕ} (hH : 0 < H) : packOffset n H H = n := by
  rw [packOffset_eq, Nat.min_eq_right (Nat.le_of_lt (Nat.mod_lt n hH)), Nat.div_add_mod]

/-- No stripe is past the end of the message. -/
theorem packOffset_le {n H h : ℕ} (hh : h ≤ H) : packOffset n H h ≤ n := by
  rcases Nat.eq_zero_or_pos h with rfl | hpos
  · exact Nat.zero_le n
  · have hH : 0 < H := Nat.lt_of_lt_of_le hpos hh
    have hmono : packOffset n H h ≤ packOffset n H H := by
      rw [packOffset_eq, packOffset_eq]
      have := Nat.mul_le_mul_right (n / H) hh
      omega
    rwa [packOffset_last hH] at hmono

theorem exists_stripe_below {n H i : ℕ} : ∀ {k : ℕ}, i < packOffset n H k →
    ∃ h < k, packOffset n H h ≤ i ∧ i < packOffset n H (h + 1)
  | 0, hi => absurd hi (Nat.not_lt_zero i)
  | k + 1, hi => by
    by_cases hk : i < packOffset n H k
    · obtain ⟨h, hlt, hmem⟩ := exists_stripe_below hk
      exact ⟨h, Nat.lt_succ_of_lt hlt, hmem⟩
    · exact ⟨k, Nat.lt_succ_self k, Nat.not_lt.mp hk, hi⟩

/-- **Every pack is in a stripe.** -/
theorem exists_mem_stripe {lo n H i : ℕ} (hH : 0 < H) (hlo : lo ≤ i) (hi : i < lo + n) :
    ∃ h < H, i ∈ stripe lo n H h := by
  have hlast : i - lo < packOffset n H H := by
    rw [packOffset_last hH]
    omega
  obtain ⟨h, hlt, hmem⟩ := exists_stripe_below hlast
  refine ⟨h, hlt, mem_stripe.mpr ?_⟩
  omega

/-- A stripe is within its message. -/
theorem bounds_of_mem_stripe {lo n H h i : ℕ} (hh : h < H) (hi : i ∈ stripe lo n H h) :
    lo ≤ i ∧ i < lo + n := by
  have hmem := mem_stripe.mp hi
  have hle : packOffset n H (h + 1) ≤ n := packOffset_le hh
  omega

/-! ## Shards and chunks -/

/-- The first pack of shard `j` of a message of `total` packs. -/
def shardStart (total W j : ℕ) : ℕ := j * total / W

theorem shardStart_mono (total W : ℕ) {j k : ℕ} (h : j ≤ k) :
    shardStart total W j ≤ shardStart total W k :=
  Nat.div_le_div_right (Nat.mul_le_mul_right total h)

/-- The first pack of chunk `c` of shard `j`, in chunks of `chunkPacks`. -/
def chunkStart (total W chunkPacks j c : ℕ) : ℕ :=
  min (shardStart total W j + c * chunkPacks) (shardStart total W (j + 1))

/-- The number of packs of chunk `c` of shard `j`. -/
def chunkLength (total W chunkPacks j c : ℕ) : ℕ :=
  min (chunkStart total W chunkPacks j c + chunkPacks) (shardStart total W (j + 1))
    - chunkStart total W chunkPacks j c

/-- The packs of chunk `c` of shard `j`. -/
def chunk (total W chunkPacks j c : ℕ) : List ℕ :=
  List.range' (chunkStart total W chunkPacks j c) (chunkLength total W chunkPacks j c)

theorem mem_chunk {total W chunkPacks j c i : ℕ} :
    i ∈ chunk total W chunkPacks j c ↔
      shardStart total W j + c * chunkPacks ≤ i ∧
        i < shardStart total W j + c * chunkPacks + chunkPacks ∧
          i < shardStart total W (j + 1) := by
  unfold chunk chunkLength chunkStart
  rw [List.mem_range'_1]
  omega

/-- A chunk is within its shard. -/
theorem bounds_of_mem_chunk {total W chunkPacks j c i : ℕ}
    (h : i ∈ chunk total W chunkPacks j c) :
    shardStart total W j ≤ i ∧ i < shardStart total W (j + 1) := by
  have := mem_chunk.mp h
  omega

/-- Two shards have no pack in common. -/
theorem shard_unique {total W cp cp' j k c c' i : ℕ} (hj : i ∈ chunk total W cp j c)
    (hk : i ∈ chunk total W cp' k c') : j = k := by
  have hj' := bounds_of_mem_chunk hj
  have hk' := bounds_of_mem_chunk hk
  by_contra hne
  rcases Nat.lt_or_gt_of_ne hne with hlt | hgt
  · have := shardStart_mono total W (show j + 1 ≤ k from hlt)
    omega
  · have := shardStart_mono total W (show k + 1 ≤ j from hgt)
    omega

/-- Two chunks of a shard have no pack in common. -/
theorem chunk_unique {total W cp j c c' i : ℕ} (hc : i ∈ chunk total W cp j c)
    (hc' : i ∈ chunk total W cp j c') : c = c' := by
  have h := mem_chunk.mp hc
  have h' := mem_chunk.mp hc'
  by_contra hne
  rcases Nat.lt_or_gt_of_ne hne with hlt | hgt
  · have := Nat.mul_le_mul_right cp (show c + 1 ≤ c' from hlt)
    rw [Nat.succ_mul] at this
    omega
  · have := Nat.mul_le_mul_right cp (show c' + 1 ≤ c from hgt)
    rw [Nat.succ_mul] at this
    omega

end Striping
