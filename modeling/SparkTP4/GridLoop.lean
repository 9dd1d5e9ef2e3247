import Mathlib.Data.List.Nodup
import Mathlib.Data.List.Perm.Basic
import SparkTP4.Striping

/-!
# Strided loops of a grid of threads

Thread `index` of a grid of `stride` threads handles the entries `lo + index`,
`lo + index + stride`, … below `hi` (`strided`). All threads together handle
every entry once, whatever the grid is (`gridLoop_perm`). What a phase of a
kernel writes is a list of addresses and values (`writeAll`); where the value is
a function of the address, the memory after the phase is that function on the
addresses written (`writeAll_map`), in whatever order the threads write.
-/

namespace GridLoop

/-! ## The loop of one thread -/

/-- `while i < hi: …; i += stride` -/
def strided (stride hi i : ℕ) : List ℕ :=
  if i < hi ∧ 0 < stride then i :: strided stride hi (i + stride) else []
  termination_by hi - i
  decreasing_by omega

theorem mem_strided {stride hi : ℕ} (hstride : 0 < stride) {i k : ℕ} :
    k ∈ strided stride hi i ↔ i ≤ k ∧ k < hi ∧ (k - i) % stride = 0 := by
  induction i using strided.induct stride hi with
  | case1 i hi' ih =>
    rw [strided, if_pos hi', List.mem_cons, ih]
    constructor
    · rintro (rfl | ⟨hle, hlt, hmod⟩)
      · exact ⟨Nat.le_refl k, hi'.1, by rw [Nat.sub_self, Nat.zero_mod]⟩
      · refine ⟨Nat.le_trans (Nat.le_add_right i stride) hle, hlt, ?_⟩
        rw [show k - i = k - (i + stride) + stride by omega, Nat.add_mod_right, hmod]
    · rintro ⟨hle, hlt, hmod⟩
      rcases Nat.eq_or_lt_of_le hle with rfl | hlt'
      · exact Or.inl rfl
      · have hge : stride ≤ k - i := Nat.le_of_dvd (Nat.sub_pos_of_lt hlt')
          (Nat.dvd_of_mod_eq_zero hmod)
        refine Or.inr ⟨by omega, hlt, ?_⟩
        rw [show k - i = k - (i + stride) + stride by omega, Nat.add_mod_right] at hmod
        exact hmod
  | case2 i hi' =>
    rw [strided, if_neg hi']
    constructor
    · exact fun hmem => absurd hmem List.not_mem_nil
    · exact fun ⟨hle, hlt, _⟩ => absurd ⟨Nat.lt_of_le_of_lt hle hlt, hstride⟩ hi'

theorem nodup_strided {stride hi : ℕ} (hstride : 0 < stride) (i : ℕ) :
    (strided stride hi i).Nodup := by
  induction i using strided.induct stride hi with
  | case1 i hi' ih =>
    rw [strided, if_pos hi', List.nodup_cons, mem_strided hstride]
    exact ⟨fun hmem => by omega, ih⟩
  | case2 i hi' =>
    rw [strided, if_neg hi']
    exact List.nodup_nil

/-! ## Chunks

The loop `for c in range(lo, hi, step)` over the chunks `[c, min(c + step, hi))`.
-/

section Chunk

variable {step hi lo g : ℕ}

/-- Every entry is in a chunk. -/
theorem exists_chunk (hstep : 0 < step) (hlo : lo ≤ g) (hhi : g < hi) :
    ∃ c ∈ strided step hi lo, c ≤ g ∧ g < min (c + step) hi := by
  have hmod := Nat.mod_lt (g - lo) hstep
  have hle := Nat.mod_le (g - lo) step
  have hdiv := Nat.div_add_mod (g - lo) step
  refine ⟨g - (g - lo) % step, (mem_strided hstep).mpr ⟨by omega, by omega, ?_⟩, by omega,
    by omega⟩
  rw [show g - (g - lo) % step - lo = step * ((g - lo) / step) by omega]
  exact Nat.mul_mod_right _ _

/-- No entry is in two chunks. -/
theorem chunk_start_unique (hstep : 0 < step) {c c' : ℕ} (hc : c ∈ strided step hi lo)
    (hc' : c' ∈ strided step hi lo) (hg : c ≤ g ∧ g < min (c + step) hi)
    (hg' : c' ≤ g ∧ g < min (c' + step) hi) : c = c' := by
  have key : ∀ {c}, c ∈ strided step hi lo → c ≤ g ∧ g < min (c + step) hi →
      c = lo + step * ((g - lo) / step) := by
    intro c hc hg
    obtain ⟨hlo, -, hmod⟩ := (mem_strided hstep).mp hc
    have hdiv : (g - lo) / step = (c - lo) / step := by
      obtain ⟨q, hq⟩ := Nat.dvd_of_mod_eq_zero hmod
      rw [hq, Nat.mul_div_cancel_left q hstep, Nat.div_eq_iff hstep, Nat.mul_comm q step]
      omega
    rw [hdiv, Nat.mul_div_cancel' (Nat.dvd_of_mod_eq_zero hmod)]
    omega
  rw [key hc hg, key hc' hg']

end Chunk

/-! ## Loops seen from one place

What a loop does to one place of its state, where at most one entry touches that place.
-/

section Observe

variable {S ι T : Type} (obs : S → T) {body : S → ι → S}

theorem foldl_obs_of_forall {l : List ι} (h : ∀ x ∈ l, ∀ s, obs (body s x) = obs s) (s : S) :
    obs (l.foldl body s) = obs s := by
  induction l generalizing s with
  | nil => rfl
  | cons x l ih =>
    rw [List.foldl_cons, ih fun y hy => h y (List.mem_cons_of_mem x hy)]
    exact h x List.mem_cons_self s

/-- The entry that touches the place runs in a state that has the place as it was, and
what it makes of it stays. -/
theorem foldl_obs_once {l : List ι} {a : ι} (hnodup : l.Nodup) (ha : a ∈ l)
    (h : ∀ x ∈ l, x ≠ a → ∀ s, obs (body s x) = obs s) (s : S) :
    ∃ s', obs s' = obs s ∧ obs (l.foldl body s) = obs (body s' a) := by
  obtain ⟨l₁, l₂, rfl⟩ := List.append_of_mem ha
  rw [List.nodup_append, List.nodup_cons] at hnodup
  refine ⟨l₁.foldl body s, foldl_obs_of_forall obs (fun x hx => h x ?_ ?_) s, ?_⟩
  · exact List.mem_append_left _ hx
  · rintro rfl
    exact hnodup.2.2 x hx x List.mem_cons_self rfl
  · rw [List.foldl_append, List.foldl_cons]
    refine foldl_obs_of_forall obs (fun x hx => h x ?_ ?_) _
    · exact List.mem_append_right _ (List.mem_cons_of_mem a hx)
    · rintro rfl
      exact hnodup.2.1.1 hx

end Observe

/-! ## All threads of a grid -/

/-- The indices of the threads of a grid, block by block. -/
def gridIndices (grid threads : ℕ) : List ℕ :=
  (List.range grid).flatMap (fun b => (List.range threads).map (fun t => b * threads + t))

theorem gridIndices_eq (threads : ℕ) : ∀ grid,
    gridIndices grid threads = List.range (grid * threads)
  | 0 => by rw [Nat.zero_mul]; rfl
  | grid + 1 => by
    have ih := gridIndices_eq threads grid
    unfold gridIndices at ih ⊢
    rw [List.range_succ, List.flatMap_append, ih, List.flatMap_singleton, Nat.succ_mul,
      List.range_add]

/-- The entries from `lo` to `hi` as the threads of a grid handle them. -/
def gridLoop (grid threads lo hi : ℕ) : List ℕ :=
  (gridIndices grid threads).flatMap (fun index => strided (grid * threads) hi (lo + index))

/-- **The threads of a grid handle every entry once.** -/
theorem gridLoop_perm {grid threads : ℕ} (hgrid : 0 < grid) (hthreads : 0 < threads) (lo hi : ℕ) :
    (gridLoop grid threads lo hi).Perm (List.range' lo (hi - lo)) := by
  have hstride : 0 < grid * threads := Nat.mul_pos hgrid hthreads
  unfold gridLoop
  rw [gridIndices_eq]
  refine (List.perm_ext_iff_of_nodup ?_ List.nodup_range').mpr (fun k => ?_)
  · refine List.nodup_flatMap.mpr ⟨fun t _ => nodup_strided hstride (lo + t), ?_⟩
    refine List.nodup_range.pairwise_of_forall_ne (fun t ht t' ht' hne => ?_)
    intro k hk hk'
    rw [mem_strided hstride] at hk hk'
    have hlt := List.mem_range.mp ht
    have hlt' := List.mem_range.mp ht'
    -- both threads are the entry modulo the number of threads
    have hmod : t = (k - lo) % (grid * threads) := by
      rw [show k - lo = k - (lo + t) + t by omega, Nat.add_mod, hk.2.2, Nat.zero_add, Nat.mod_mod,
        Nat.mod_eq_of_lt hlt]
    have hmod' : t' = (k - lo) % (grid * threads) := by
      rw [show k - lo = k - (lo + t') + t' by omega, Nat.add_mod, hk'.2.2, Nat.zero_add,
        Nat.mod_mod, Nat.mod_eq_of_lt hlt']
    exact hne (hmod.trans hmod'.symm)
  · rw [List.mem_flatMap, List.mem_range'_1]
    constructor
    · rintro ⟨t, -, hk⟩
      rw [mem_strided hstride] at hk
      omega
    · intro hk
      refine ⟨(k - lo) % (grid * threads), List.mem_range.mpr (Nat.mod_lt _ hstride), ?_⟩
      rw [mem_strided hstride]
      have hdiv := Nat.div_add_mod (k - lo) (grid * threads)
      have hle := Nat.mod_le (k - lo) (grid * threads)
      refine ⟨by omega, by omega, ?_⟩
      rw [show k - (lo + (k - lo) % (grid * threads)) =
        grid * threads * ((k - lo) / (grid * threads)) by omega, Nat.mul_mod_right]

theorem mem_gridLoop {grid threads : ℕ} (hgrid : 0 < grid) (hthreads : 0 < threads)
    {lo hi i : ℕ} : i ∈ gridLoop grid threads lo hi ↔ lo ≤ i ∧ i < hi := by
  rw [(gridLoop_perm hgrid hthreads lo hi).mem_iff, List.mem_range'_1]
  omega

/-! ## Writes -/

section Write

variable {A P : Type} [DecidableEq A]

/-- The memory after these writes. -/
def writeAll (mem : A → P) (writes : List (A × P)) : A → P :=
  writes.foldl (fun mem w => Function.update mem w.1 w.2) mem

/-- Where the values are a function of the addresses, the memory is that
function where it was written. -/
theorem writeAll_map (mem : A → P) (F : A → P) (keys : List A) :
    writeAll mem (keys.map (fun a => (a, F a))) = fun a => if a ∈ keys then F a else mem a := by
  induction keys generalizing mem with
  | nil =>
    funext a
    rw [if_neg List.not_mem_nil]
    rfl
  | cons k keys ih =>
    show writeAll (Function.update mem k (F k)) (keys.map (fun a => (a, F a))) = _
    rw [ih]
    funext a
    by_cases hk : a = k
    · rw [hk, Function.update_self, if_pos List.mem_cons_self]
      exact ite_self _
    · rw [Function.update_of_ne hk]
      exact if_congr ⟨List.mem_cons_of_mem k, fun h => (List.mem_cons.mp h).resolve_left hk⟩ rfl rfl

/-- So too, at an address that is written, for writes in any order. -/
theorem writeAll_of_mem (mem : A → P) (F : A → P) {writes : List (A × P)} {a : A}
    (h : ∀ w ∈ writes, w.2 = F w.1) (ha : a ∈ writes.map Prod.fst) :
    writeAll mem writes a = F a := by
  have hwrites : writes = (writes.map Prod.fst).map fun a => (a, F a) := by
    rw [List.map_map]
    exact (List.map_id writes).symm.trans (List.map_congr_left fun w hw => Prod.ext rfl (h w hw))
  rw [hwrites, writeAll_map mem F]
  exact if_pos ha

/-- An address that is not written keeps its value. -/
theorem writeAll_of_not_mem (mem : A → P) {writes : List (A × P)} {a : A}
    (ha : a ∉ writes.map Prod.fst) : writeAll mem writes a = mem a := by
  induction writes generalizing mem with
  | nil => rfl
  | cons w writes ih =>
    rw [List.map_cons, List.mem_cons, not_or] at ha
    exact (ih _ ha.2).trans (Function.update_of_ne ha.1 _ _)

/-- Where all writes to an address have one value, that value is there afterwards. -/
theorem writeAll_of_forall (mem : A → P) {writes : List (A × P)} {a : A} {v : P}
    (h : ∀ w ∈ writes, w.1 = a → w.2 = v) (ha : a ∈ writes.map Prod.fst) :
    writeAll mem writes a = v := by
  induction writes generalizing mem with
  | nil => exact absurd ha List.not_mem_nil
  | cons w writes ih =>
    show writeAll (Function.update mem w.1 w.2) writes a = v
    by_cases hmem : a ∈ writes.map Prod.fst
    · exact ih _ (fun w' hw' => h w' (List.mem_cons_of_mem w hw')) hmem
    · have hw : w.1 = a := by
        rw [List.map_cons, List.mem_cons] at ha
        exact (ha.resolve_right hmem).symm
      rw [writeAll_of_not_mem _ hmem, ← hw, Function.update_self]
      exact h w List.mem_cons_self hw

/-- What is at an address was there before or has been written there. -/
theorem writeAll_eq_or (mem : A → P) (writes : List (A × P)) (a : A) :
    writeAll mem writes a = mem a ∨ ∃ w ∈ writes, w.1 = a ∧ writeAll mem writes a = w.2 := by
  induction writes generalizing mem with
  | nil => exact Or.inl rfl
  | cons w writes ih =>
    show writeAll (Function.update mem w.1 w.2) writes a = mem a ∨ ∃ w' ∈ w :: writes,
      w'.1 = a ∧ writeAll (Function.update mem w.1 w.2) writes a = w'.2
    rcases ih (Function.update mem w.1 w.2) with heq | ⟨w', hw', hfst, hsnd⟩
    · by_cases hw : w.1 = a
      · refine Or.inr ⟨w, List.mem_cons_self, hw, heq.trans ?_⟩
        rw [← hw, Function.update_self]
      · exact Or.inl (heq.trans (Function.update_of_ne (Ne.symm hw) _ _))
    · exact Or.inr ⟨w', List.mem_cons_of_mem w hw', hfst, hsnd⟩

end Write

/-! ## Loops in loops -/

/-- Two nested loops can be exchanged. -/
theorem flatMap_comm_perm {α β γ : Type} (f : α → β → List γ) (l : List α) (l' : List β) :
    (l.flatMap (fun a => l'.flatMap (f a))).Perm (l'.flatMap (fun b => l.flatMap (fun a => f a b))) := by
  induction l with
  | nil =>
    rw [List.flatMap_nil]
    exact List.Perm.of_eq (List.flatMap_eq_nil_iff.mpr (fun _ _ => rfl)).symm
  | cons a l ih =>
    rw [List.flatMap_cons]
    exact (List.Perm.append_left _ ih).trans (List.flatMap_append_perm l' (f a) _)

/-- Adjacent intervals make one. -/
theorem flatMap_range'_eq (start : ℕ → ℕ) (hmono : ∀ c, start c ≤ start (c + 1)) (n : ℕ) :
    (List.range n).flatMap (fun c => List.range' (start c) (start (c + 1) - start c))
      = List.range' (start 0) (start n - start 0) := by
  have hle : ∀ n, start 0 ≤ start n := fun n => monotone_nat_of_le_succ hmono (Nat.zero_le n)
  induction n with
  | zero =>
    rw [Nat.sub_self]
    rfl
  | succ n ih =>
    have hn := hle n
    have hstep := hmono n
    rw [List.range_succ, List.flatMap_append, ih, List.flatMap_singleton,
      show start (n + 1) - start 0 = (start n - start 0) + (start (n + 1) - start n) by omega,
      ← List.range'_append_1, show start 0 + (start n - start 0) = start n by omega]

/-- Of a loop with one live entry that entry is left. -/
theorem flatMap_range_single {γ : Type} (f : ℕ → List γ) {r : ℕ} : ∀ {n : ℕ}, r < n →
    (List.range n).flatMap (fun j => if j = r then f j else []) = f r
  | 0, hr => absurd hr (Nat.not_lt_zero r)
  | n + 1, hr => by
    rw [List.range_succ, List.flatMap_append, List.flatMap_singleton]
    rcases Nat.lt_or_eq_of_le (Nat.le_of_lt_succ hr) with hlt | rfl
    · rw [flatMap_range_single f hlt, if_neg (Nat.ne_of_gt hlt), List.append_nil]
    · rw [if_pos rfl, List.flatMap_eq_nil_iff.mpr, List.nil_append]
      exact fun j hj => if_neg (Nat.ne_of_lt (List.mem_range.mp hj))

/-- A loop is one of its entries and the loop over the others. -/
theorem flatMap_range_split {γ : Type} (f : ℕ → List γ) {r n : ℕ} (hr : r < n) :
    (f r ++ (List.range n).flatMap (fun j => if j = r then [] else f j)).Perm
      ((List.range n).flatMap f) := by
  have hsplit := List.flatMap_append_perm (List.range n) (fun j => if j = r then f j else [])
    (fun j => if j = r then [] else f j)
  rw [flatMap_range_single f hr] at hsplit
  refine hsplit.trans (List.Perm.of_eq (List.flatMap_congr (fun j _ => ?_)))
  split_ifs
  · exact List.append_nil (f j)
  · exact List.nil_append (f j)

end GridLoop
