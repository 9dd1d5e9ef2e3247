import Mathlib.Algebra.Order.Group.Nat
import Mathlib.Data.Finset.Card
import Mathlib.Data.Int.Order.Basic
import Mathlib.Data.List.GetD
import Mathlib.Data.List.Nodup
import Mathlib.Data.Nat.Count
import Mathlib.Order.Interval.Finset.Nat

/-!
# Ranks in a sorted sequence

Keys in ascending order, negative ones for entries that do not count. The first position of
each key that counts is marked (`firstAt`), and a running count of the marks numbers the
distinct keys (`rankAt`). The number of a key is how many of the keys that count are below
it (`rankAt_eq`), whatever else the sequence holds – so two sequences with the same keys
number them alike, and different keys have different numbers (`rankOf_injOn`).
-/

namespace SortedRank

/-! ## The keys that count and how many are below -/

/-- The keys of the first `n` positions that count. -/
def counted (key : ℕ → ℤ) (n : ℕ) : Finset ℤ := ((Finset.range n).image key).filter (0 ≤ ·)

/-- How many keys are below a key. -/
def rankOf (S : Finset ℤ) (t : ℤ) : ℕ := (S.filter (· < t)).card

theorem mem_counted {key : ℕ → ℤ} {n : ℕ} {t : ℤ} :
    t ∈ counted key n ↔ (∃ i < n, key i = t) ∧ 0 ≤ t := by
  unfold counted
  rw [Finset.mem_filter, Finset.mem_image]
  simp only [Finset.mem_range]

theorem counted_card_le (key : ℕ → ℤ) (n : ℕ) : (counted key n).card ≤ n := by
  calc (counted key n).card ≤ ((Finset.range n).image key).card := Finset.card_filter_le _ _
    _ ≤ (Finset.range n).card := Finset.card_image_le
    _ = n := Finset.card_range n

theorem rankOf_lt_card {S : Finset ℤ} {t : ℤ} (ht : t ∈ S) : rankOf S t < S.card :=
  Finset.card_lt_card (Finset.filter_ssubset.mpr ⟨t, ht, lt_irrefl t⟩)

theorem rankOf_lt {S : Finset ℤ} {t t' : ℤ} (ht : t ∈ S) (h : t < t') : rankOf S t < rankOf S t' := by
  refine Finset.card_lt_card (Finset.ssubset_iff_subset_ne.mpr ⟨fun k hk => ?_, fun heq => ?_⟩)
  · rw [Finset.mem_filter] at hk ⊢
    exact ⟨hk.1, hk.2.trans h⟩
  · have hmem : t ∈ S.filter (· < t') := Finset.mem_filter.mpr ⟨ht, h⟩
    rw [← heq, Finset.mem_filter] at hmem
    exact lt_irrefl t hmem.2

/-- **Different keys have different ranks.** -/
theorem rankOf_injOn {S : Finset ℤ} {t t' : ℤ} (ht : t ∈ S) (ht' : t' ∈ S)
    (h : rankOf S t = rankOf S t') : t = t' := by
  rcases lt_trichotomy t t' with hlt | heq | hgt
  · exact absurd h (rankOf_lt ht hlt).ne
  · exact heq
  · exact absurd h (rankOf_lt ht' hgt).ne'

/-! ## Marks and their running count -/

section Sorted

variable {key : ℕ → ℤ} {n i : ℕ}

/-- The key before a position; there is none before the first. -/
def prevAt (key : ℕ → ℤ) : ℕ → ℤ
  | 0 => -2
  | i + 1 => key i

/-- `(skey != prev) & (skey >= 0)` -/
def firstAt (key : ℕ → ℤ) (i : ℕ) : Prop := key i ≠ prevAt key i ∧ 0 ≤ key i

instance (key : ℕ → ℤ) : DecidablePred (firstAt key) := fun _ => inferInstanceAs (Decidable (_ ∧ _))

/-- `cumsum(first) - 1` -/
def rankAt (key : ℕ → ℤ) (i : ℕ) : ℤ := (Nat.count (firstAt key) (i + 1) : ℤ) - 1

/-- The keys ascend over the first `n` positions. -/
def Ascending (key : ℕ → ℤ) (n : ℕ) : Prop := ∀ i j, i ≤ j → j < n → key i ≤ key j

theorem counted_succ (key : ℕ → ℤ) (i : ℕ) :
    counted key (i + 1) = if 0 ≤ key i then insert (key i) (counted key i) else counted key i := by
  unfold counted
  rw [Finset.range_add_one, Finset.image_insert, Finset.filter_insert]

/-- In an ascending sequence a key has been seen when the position before has it. -/
theorem mem_counted_iff (h : Ascending key n) (hi : i < n) :
    key i ∈ counted key i ↔ key i = prevAt key i ∧ 0 ≤ key i := by
  rw [mem_counted]
  refine and_congr_left fun hkey => ?_
  cases i with
  | zero =>
    constructor
    · rintro ⟨j, hj, -⟩
      exact absurd hj (Nat.not_lt_zero j)
    · intro heq
      rw [heq] at hkey
      exact absurd hkey (show ¬(0 : ℤ) ≤ -2 by decide)
  | succ i =>
    constructor
    · rintro ⟨j, hj, heq⟩
      refine le_antisymm ?_ (h i (i + 1) (Nat.le_succ i) hi)
      rw [← heq]
      exact h j i (Nat.le_of_lt_succ hj) (Nat.lt_of_succ_lt hi)
    · exact fun heq => ⟨i, Nat.lt_succ_self i, heq.symm⟩

/-- **The marks count the distinct keys.** -/
theorem count_firstAt (h : Ascending key n) (hi : i ≤ n) :
    Nat.count (firstAt key) i = (counted key i).card := by
  induction i with
  | zero => rfl
  | succ i ih =>
    rw [Nat.count_succ, ih (Nat.le_of_succ_le hi), counted_succ]
    have hmem := mem_counted_iff h hi
    by_cases hkey : 0 ≤ key i
    · rw [if_pos hkey]
      by_cases heq : key i = prevAt key i
      · rw [Finset.insert_eq_of_mem (hmem.mpr ⟨heq, hkey⟩), if_neg fun hfirst => hfirst.1 heq,
          Nat.add_zero]
      · rw [Finset.card_insert_of_notMem fun h' => heq (hmem.mp h').1, if_pos ⟨heq, hkey⟩]
    · rw [if_neg hkey, if_neg fun hfirst => hkey hfirst.2, Nat.add_zero]

/-- **The number of a key is how many keys are below it.** -/
theorem rankAt_eq (h : Ascending key n) (hi : i < n) (hkey : 0 ≤ key i) :
    rankAt key i = rankOf (counted key n) (key i) := by
  have hseen : (counted key (i + 1)).erase (key i) = (counted key n).filter (· < key i) := by
    ext t
    rw [Finset.mem_erase, Finset.mem_filter, mem_counted, mem_counted]
    constructor
    · rintro ⟨hne, ⟨j, hj, rfl⟩, ht⟩
      exact ⟨⟨⟨j, by omega, rfl⟩, ht⟩, lt_of_le_of_ne (h j i (Nat.le_of_lt_succ hj) hi) hne⟩
    · rintro ⟨⟨⟨j, hj, rfl⟩, ht⟩, hlt⟩
      refine ⟨hlt.ne, ⟨j, Nat.lt_succ_of_lt (Nat.lt_of_not_le fun hle => ?_), rfl⟩, ht⟩
      exact absurd (h i j hle hj) (not_le.mpr hlt)
  have hmem : key i ∈ counted key (i + 1) := mem_counted.mpr ⟨⟨i, Nat.lt_succ_self i, rfl⟩, hkey⟩
  have hcard := Finset.card_erase_add_one hmem
  unfold rankAt rankOf
  rw [count_firstAt h hi, ← hseen, ← hcard]
  omega

/-- Every key that counts is marked somewhere. -/
theorem exists_firstAt {t : ℤ} (ht : t ∈ counted key n) : ∃ i < n, firstAt key i ∧ key i = t := by
  obtain ⟨hex, hpos⟩ := mem_counted.mp ht
  classical
  obtain ⟨hlt, hkey⟩ := Nat.find_spec hex
  refine ⟨Nat.find hex, hlt, ⟨fun heq => ?_, hkey.symm ▸ hpos⟩, hkey⟩
  cases hi : Nat.find hex with
  | zero =>
    rw [hi] at heq hkey
    rw [hkey] at heq
    rw [heq] at hpos
    exact absurd hpos (show ¬(0 : ℤ) ≤ -2 by decide)
  | succ i =>
    rw [hi] at heq hkey hlt
    exact Nat.find_min hex (hi ▸ Nat.lt_succ_self i) ⟨Nat.lt_of_succ_lt hlt, heq.symm.trans hkey⟩

end Sorted

/-! ## Packed sort keys -/

/-- A key with the position in the `w` low bits. -/
def pack (w : ℕ) (key : ℤ) (pos : ℕ) : ℕ := ((key + 1).toNat <<< w) ||| pos

section Pack

variable {w pos pos' : ℕ} {key key' : ℤ}

theorem pack_eq (hpos : pos < 2 ^ w) : pack w key pos = (key + 1).toNat * 2 ^ w + pos := by
  unfold pack
  rw [← Nat.shiftLeft_add_eq_or_of_lt hpos, Nat.shiftLeft_eq]

theorem pack_key (hpos : pos < 2 ^ w) (hkey : -1 ≤ key) :
    ((pack w key pos >>> w : ℕ) : ℤ) - 1 = key := by
  have hdiv : (pack w key pos) >>> w = (key + 1).toNat := by
    rw [pack_eq hpos, Nat.shiftRight_eq_div_pow, Nat.mul_comm,
      Nat.mul_add_div (Nat.two_pow_pos w), Nat.div_eq_of_lt hpos, Nat.add_zero]
  rw [hdiv]
  omega

theorem pack_pos (hpos : pos < 2 ^ w) : pack w key pos &&& (2 ^ w - 1) = pos := by
  rw [pack_eq hpos, Nat.and_two_pow_sub_one_eq_mod, Nat.mul_comm, Nat.mul_add_mod,
    Nat.mod_eq_of_lt hpos]

end Pack

/-- The packed keys of the first `n` positions in ascending order. -/
def packedSort (w : ℕ) (key : ℕ → ℤ) (n : ℕ) : List ℕ :=
  ((List.range n).map fun p => pack w (key p) p).mergeSort

/-- The key at a position of the sorted sequence. -/
def sortedKey (w : ℕ) (key : ℕ → ℤ) (n i : ℕ) : ℤ := (((packedSort w key n).getD i 0 >>> w : ℕ) : ℤ) - 1

/-- The position that a sorted key comes from. -/
def sortedPos (w : ℕ) (key : ℕ → ℤ) (n i : ℕ) : ℕ := (packedSort w key n).getD i 0 &&& (2 ^ w - 1)

section PackedSort

variable {w n i : ℕ} {key : ℕ → ℤ}

theorem length_packedSort : (packedSort w key n).length = n := by
  unfold packedSort
  rw [List.length_mergeSort, List.length_map, List.length_range]

theorem mem_packedSort {x : ℕ} : x ∈ packedSort w key n ↔ ∃ p < n, pack w (key p) p = x := by
  unfold packedSort
  rw [List.mem_mergeSort, List.mem_map]
  simp only [List.mem_range]

/-- A sorted key and its position belong together. -/
theorem sorted_spec (hn : n ≤ 2 ^ w) (hkey : ∀ p < n, -1 ≤ key p) (hi : i < n) :
    sortedPos w key n i < n ∧ sortedKey w key n i = key (sortedPos w key n i) := by
  have hi' : i < (packedSort w key n).length := by rwa [length_packedSort]
  obtain ⟨p, hp, hpack⟩ := mem_packedSort.mp (List.getElem_mem hi')
  unfold sortedPos sortedKey
  rw [List.getD_eq_getElem _ _ hi', ← hpack, pack_pos (hp.trans_le hn),
    pack_key (hp.trans_le hn) (hkey p hp)]
  exact ⟨hp, rfl⟩

variable (key) in
/-- Every position is somewhere in the sorted sequence. -/
theorem exists_sortedPos (hn : n ≤ 2 ^ w) {p : ℕ} (hp : p < n) :
    ∃ i < n, sortedPos w key n i = p := by
  obtain ⟨i, hi, hget⟩ := List.mem_iff_getElem.mp
    (mem_packedSort (w := w).mpr ⟨p, hp, rfl⟩ : pack w (key p) p ∈ packedSort w key n)
  refine ⟨i, by rwa [length_packedSort] at hi, ?_⟩
  unfold sortedPos
  rw [List.getD_eq_getElem _ _ hi, hget, pack_pos (hp.trans_le hn)]

/-- The sorted keys ascend. -/
theorem ascending_sortedKey : Ascending (sortedKey w key n) n := by
  intro i j hij hj
  have hj' : j < (packedSort w key n).length := by rwa [length_packedSort]
  have hi' := hij.trans_lt hj'
  unfold sortedKey
  rw [List.getD_eq_getElem _ _ hi', List.getD_eq_getElem _ _ hj']
  have hsorted : (packedSort w key n).Pairwise (· ≤ ·) := List.pairwise_mergeSort' _ _
  have hle : (packedSort w key n)[i] ≤ (packedSort w key n)[j] := by
    rcases Nat.eq_or_lt_of_le hij with rfl | hlt
    · exact le_rfl
    · exact List.pairwise_iff_getElem.mp hsorted i j hi' hj' hlt
  have := Nat.div_le_div_right (c := 2 ^ w) hle
  rw [Nat.shiftRight_eq_div_pow, Nat.shiftRight_eq_div_pow]
  omega

/-- The sorted sequence has the keys of the positions. -/
theorem counted_sortedKey (hn : n ≤ 2 ^ w) (hkey : ∀ p < n, -1 ≤ key p) :
    counted (sortedKey w key n) n = counted key n := by
  ext t
  rw [mem_counted, mem_counted]
  refine and_congr_left fun _ => ⟨?_, ?_⟩
  · rintro ⟨i, hi, rfl⟩
    obtain ⟨hp, heq⟩ := sorted_spec hn hkey hi
    exact ⟨_, hp, heq.symm⟩
  · rintro ⟨p, hp, rfl⟩
    obtain ⟨i, hi, rfl⟩ := exists_sortedPos key hn hp
    exact ⟨i, hi, (sorted_spec hn hkey hi).2⟩

end PackedSort

end SortedRank
