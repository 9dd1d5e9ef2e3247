import SparkTP4.KvPlan

/-!
# The plans are exact

A plan whose live entries point at slots listed with their own tokens, with every slot
listed once (`Sound`), is exact: the rows of different slots share no byte, so each listed
token's row survives the writes after it (`Sound.readV4Row`). The planners are sound by
what numbers the slots – the position of the entry, the rank of its token in the block
(`SortedRank.rankAt_eq`), the running count of the touched sub-pages (`cmap_touched`). As
ranks do not depend on the padding, both ways to deduplicate rewrite the indices alike
(`dedup_newIdx_eq`).
-/

namespace KvPlan

/-! ## Rows in the scratch -/

section Rows

variable {buf : ℕ → UInt8} {slot s : ℕ} {row : Bytes}

theorem dataOffset_ne (h : s ≠ slot) {i : ℕ} (hi : i < ROW) :
    ¬(dataOffset slot ≤ dataOffset s + i ∧ dataOffset s + i < dataOffset slot + ROW) := by
  unfold dataOffset SUB SUB_PAGE_BYTES ROW at *
  omega

theorem scaleOffset_ne (h : s ≠ slot) {i : ℕ} (hi : i < FOOT) :
    ¬(scaleOffset slot ≤ scaleOffset s + i ∧ scaleOffset s + i < scaleOffset slot + FOOT) := by
  unfold scaleOffset SUB SUB_PAGE_BYTES ROW FOOT at *
  omega

theorem dataOffset_ne_scaleOffset (s slot : ℕ) {i : ℕ} (hi : i < ROW) :
    ¬(scaleOffset slot ≤ dataOffset s + i ∧ dataOffset s + i < scaleOffset slot + FOOT) := by
  unfold dataOffset scaleOffset SUB SUB_PAGE_BYTES ROW FOOT at *
  omega

theorem scaleOffset_ne_dataOffset (s slot : ℕ) {i : ℕ} (hi : i < FOOT) :
    ¬(dataOffset slot ≤ scaleOffset s + i ∧ scaleOffset s + i < dataOffset slot + ROW) := by
  unfold dataOffset scaleOffset SUB SUB_PAGE_BYTES ROW FOOT at *
  omega

theorem map_getD_range {β : Type} {l : List β} {n : ℕ} (d : β) (h : l.length = n) :
    (List.range n).map (fun i => l.getD i d) = l := by
  refine List.ext_getElem (by rw [List.length_map, List.length_range, h]) fun i _ hi => ?_
  rw [List.getElem_map, List.getElem_range, List.getD_eq_getElem _ _ hi]

/-- A written row is read back. -/
theorem readV4Row_self (hdata : row.1.length = ROW) (hscales : row.2.length = FOOT) :
    readV4Row (writeV4Row buf slot row) slot = row := by
  obtain ⟨data, scales⟩ := row
  unfold readV4Row
  refine congrArg₂ Prod.mk ((List.map_congr_left fun i hi => ?_).trans (map_getD_range 0 hdata))
    ((List.map_congr_left fun i hi => ?_).trans (map_getD_range 0 hscales))
  · have hlt := List.mem_range.mp hi
    unfold writeV4Row
    rw [if_pos ⟨Nat.le_add_right _ _, Nat.add_lt_add_left hlt _⟩, Nat.add_sub_cancel_left]
  · have hlt := List.mem_range.mp hi
    unfold writeV4Row
    rw [if_neg (scaleOffset_ne_dataOffset slot slot hlt),
      if_pos ⟨Nat.le_add_right _ _, Nat.add_lt_add_left hlt _⟩, Nat.add_sub_cancel_left]

/-- Writing a row leaves the rows of other slots alone. -/
theorem readV4Row_of_ne (h : s ≠ slot) :
    readV4Row (writeV4Row buf slot row) s = readV4Row buf s := by
  unfold readV4Row
  refine congrArg₂ Prod.mk (List.map_congr_left fun i hi => ?_)
    (List.map_congr_left fun i hi => ?_)
  · have hlt := List.mem_range.mp hi
    unfold writeV4Row
    rw [if_neg (dataOffset_ne h hlt), if_neg (dataOffset_ne_scaleOffset s slot hlt)]
  · have hlt := List.mem_range.mp hi
    unfold writeV4Row
    rw [if_neg (scaleOffset_ne_dataOffset s slot hlt), if_neg (scaleOffset_ne h hlt)]

end Rows

/-! ## Sound plans are exact -/

/-- **A plan is sound** when its live entries point at slots that are listed with their own
tokens, and no slot is listed twice. -/
structure Sound {nPool : ℕ} (e : Call nPool) (plan : Plan) : Prop where
  dead : ∀ r < e.rows, ∀ j < e.k, e.live r j = false → plan.newIdx r j = -1
  served : ∀ r < e.rows, ∀ j < e.k, e.live r j = true →
    ∃ s : ℕ, plan.newIdx r j = s ∧ (e.entry r j, s) ∈ plan.list
  inside : ∀ w ∈ plan.list, 0 ≤ w.1 → w.2 < plan.nPages * SUB ∧ w.1 < nPool
  nodup : (plan.list.map Prod.snd).Nodup

theorem Call.entry_nonneg {nPool : ℕ} {e : Call nPool} {r j : ℕ} (h : e.live r j = true) :
    0 ≤ e.entry r j :=
  of_decide_eq_true ((Bool.and_eq_true _ _).mp h).1

namespace Sound

/-- The token that a slot is listed with is the only one. -/
theorem token_unique {nPool : ℕ} {e : Call nPool} {plan : Plan} (h : Sound e plan) {w w' : ℤ × ℕ}
    (hw : w ∈ plan.list) (hw' : w' ∈ plan.list) (hslot : w.2 = w'.2) : w = w' :=
  List.inj_on_of_nodup_map h.nodup hw hw' hslot

variable {P : Pool} {e : Call P.tokens} {plan : Plan} {rule : V4Rule}

/-- **The row of a listed token is in its slot afterwards.** -/
theorem readV4Row (h : Sound e plan) (buf : ℕ → UInt8) {t : ℤ} {s : ℕ} (hw : (t, s) ∈ plan.list)
    (hpos : 0 ≤ t) : KvPlan.readV4Row (transcodeList P rule buf plan.list) s =
      rule.apply (P.record t.toNat) := by
  have hmem : (t, s) ∈ plan.list.filter fun w => decide (0 ≤ w.1) :=
    List.mem_filter.mpr ⟨hw, decide_eq_true hpos⟩
  have hother : ∀ w' ∈ plan.list.filter fun w => decide (0 ≤ w.1), w' ≠ (t, s) → ∀ buf,
      KvPlan.readV4Row (transcodeOne P rule buf w') s = KvPlan.readV4Row buf s := by
    intro w' hw' hne buf
    refine readV4Row_of_ne fun hslot => hne ?_
    exact h.token_unique (List.mem_filter.mp hw').1 hw hslot.symm
  obtain ⟨buf', -, hend⟩ := GridLoop.foldl_obs_once (fun buf => KvPlan.readV4Row buf s)
    (h.nodup.of_map.filter _) hmem hother buf
  exact hend.trans (readV4Row_self (rule.length_data _) (rule.length_scales _))

/-- **A sound plan is exact.** -/
theorem exact (h : Sound e plan) : Exact P rule e plan where
  dead := h.dead
  live r hr j hj hlive := by
    obtain ⟨s, hs, hmem⟩ := h.served r hr j hj hlive
    exact ⟨s, hs, fun buf => h.readV4Row buf hmem (Call.entry_nonneg hlive)⟩
  inside := h.inside
  own r hr j hj hlive w hw _ hslot := by
    obtain ⟨s, hs, hmem⟩ := h.served r hr j hj hlive
    have heq : w.2 = s := Int.ofNat_inj.mp (hslot.symm.trans hs)
    exact congrArg Prod.fst (h.token_unique hw hmem heq)
  separate r hr j hj r' hr' j' hj' hlive hlive' heq := by
    obtain ⟨s, hs, hmem⟩ := h.served r hr j hj hlive
    obtain ⟨s', hs', hmem'⟩ := h.served r' hr' j' hj' hlive'
    have hslot : s = s' := Int.ofNat_inj.mp (hs.symm.trans (heq.trans hs'))
    exact congrArg Prod.fst (h.token_unique hmem hmem' hslot)

end Sound

/-! ## One slot per entry -/

section Entries

variable {nPool : ℕ} {e : Call nPool}

theorem lt_cdiv_mul {p n b : ℕ} (hb : 0 < b) (hp : p < n) : p < cdiv n b * b := by
  unfold cdiv
  have hdiv := Nat.lt_div_mul_add (a := n + b - 1) hb
  omega

/-- A position of the matrix and its position in the flattened one. -/
theorem flat_spec {r j : ℕ} (hr : r < e.rows) (hj : j < e.k) :
    r * e.k + j < e.rows * e.k ∧ (r * e.k + j) / e.k = r ∧ (r * e.k + j) % e.k = j := by
  have hk : 0 < e.k := Nat.zero_lt_of_lt hj
  refine ⟨?_, ?_, ?_⟩
  · calc r * e.k + j < r * e.k + e.k := Nat.add_lt_add_left hj _
      _ = (r + 1) * e.k := (Nat.succ_mul r e.k).symm
      _ ≤ e.rows * e.k := Nat.mul_le_mul_right _ hr
  · rw [Nat.mul_comm, Nat.mul_add_div hk, Nat.div_eq_of_lt hj, Nat.add_zero]
  · rw [Nat.mul_comm, Nat.mul_add_mod, Nat.mod_eq_of_lt hj]

/-- A position of the flattened matrix is one of the matrix. -/
theorem unflat_spec {p : ℕ} (hp : p < e.rows * e.k) : p / e.k < e.rows ∧ p % e.k < e.k := by
  have hk : 0 < e.k := Nat.pos_of_ne_zero fun h => by
    rw [h, Nat.mul_zero] at hp
    exact Nat.not_lt_zero p hp
  exact ⟨Nat.div_lt_of_lt_mul (Nat.mul_comm e.rows e.k ▸ hp), Nat.mod_lt p hk⟩

/-- **Slots by position are sound**, for the entries that pass and tokens that are theirs. -/
theorem sound_by_position {plan : Plan} (token : ℕ → ℤ)
    (hlist : plan.list = (List.range (e.rows * e.k)).map fun p => (token p, p))
    (hidx : ∀ r j, plan.newIdx r j = if e.live r j then ((r * e.k + j : ℕ) : ℤ) else -1)
    (hpages : plan.nPages = cdiv (e.rows * e.k) SUB)
    (htoken : ∀ r < e.rows, ∀ j < e.k, e.live r j = true → token (r * e.k + j) = e.entry r j)
    (hpool : ∀ p < e.rows * e.k, 0 ≤ token p → token p < nPool) : Sound e plan where
  dead r _ j _ hdead := by rw [hidx, hdead, if_neg Bool.false_ne_true]
  served r hr j hj hlive := by
    refine ⟨r * e.k + j, by rw [hidx, if_pos hlive], ?_⟩
    rw [hlist, List.mem_map]
    exact ⟨r * e.k + j, List.mem_range.mpr (flat_spec hr hj).1, by rw [htoken r hr j hj hlive]⟩
  inside w hw hpos := by
    rw [hlist] at hw
    obtain ⟨p, hp, rfl⟩ := List.mem_map.mp hw
    rw [hpages]
    exact ⟨lt_cdiv_mul (show 0 < SUB by decide) (List.mem_range.mp hp),
      hpool p (List.mem_range.mp hp) hpos⟩
  nodup := by
    rw [hlist, List.map_map]
    exact (List.map_id (List.range _)).symm ▸ List.nodup_range

/-- **The token plan** of a call without lengths. -/
theorem planTokenMode_sound (hpool : 0 < nPool) (hlen : e.topkLen = none) :
    Sound e (planTokenMode e) := by
  have hlive : ∀ r j, e.live r j = decide (0 ≤ e.entry r j) := fun r j => by
    unfold Call.live liveAt
    rw [hlen, Bool.and_true]
  refine sound_by_position (fun p => if 0 ≤ e.flat p then e.flat p else 0) rfl (fun r j => ?_) rfl
    (fun r hr j hj h => ?_) fun p hp _ => ?_
  · rw [hlive]
    simp only [decide_eq_true_eq]
    rfl
  · have hentry : e.flat (r * e.k + j) = e.entry r j := by
      unfold Call.flat
      rw [(flat_spec hr hj).2.1, (flat_spec hr hj).2.2]
    rw [hentry, if_pos (Call.entry_nonneg h)]
  · obtain ⟨hr, hj⟩ := unflat_spec hp
    split
    · next h => exact e.range _ hr _ hj ((hlive _ _).trans (decide_eq_true h))
    · exact Int.natCast_pos.mpr hpool

/-- **The group plan.** -/
theorem planGroupTorch_sound : Sound e (planGroupTorch e) := by
  refine sound_by_position (fun p => if e.flatLive p then e.flat p else -1) rfl (fun r j => rfl) rfl
    (fun r hr j hj h => ?_) fun p hp hpos => ?_
  · unfold Call.flatLive Call.flat
    rw [(flat_spec hr hj).2.1, (flat_spec hr hj).2.2, if_pos h]
  · obtain ⟨hr, hj⟩ := unflat_spec hp
    by_cases h : e.flatLive p = true
    · rw [if_pos h]
      exact e.range _ hr _ hj h
    · rw [if_neg h] at hpos
      exact absurd hpos (by decide)

end Entries

/-! ## One slot per distinct token of a block -/

theorem block_div {b r n : ℕ} (hr : r < n) : (b * n + r) / n = b := by
  rw [Nat.mul_comm, Nat.mul_add_div (Nat.zero_lt_of_lt hr), Nat.div_eq_of_lt hr, Nat.add_zero]

theorem block_mod {b r n : ℕ} (hr : r < n) : (b * n + r) % n = r := by
  rw [Nat.mul_comm, Nat.mul_add_mod, Nat.mod_eq_of_lt hr]

/-- Slots of different blocks differ, where the block of a slot is its quotient. -/
theorem nodup_blocks {ι : Type} {l : List ι} {f : ι → List (ℤ × ℕ)} {n : ℕ} (hl : l.Nodup)
    (hf : ∀ x ∈ l, ((f x).map Prod.snd).Nodup)
    (hblock : ∀ x ∈ l, ∀ y ∈ l, ∀ w ∈ f x, ∀ w' ∈ f y, w.2 / n = w'.2 / n → x = y) :
    ((l.flatMap f).map Prod.snd).Nodup := by
  rw [List.map_flatMap]
  refine List.nodup_flatMap.mpr ⟨hf, hl.pairwise_of_forall_ne fun x hx y hy hne s hs hs' => ?_⟩
  obtain ⟨w, hw, rfl⟩ := List.mem_map.mp hs
  obtain ⟨w', hw', hslot⟩ := List.mem_map.mp hs'
  exact hne (hblock x hx y hy w hw w' hw' (by rw [hslot]))

section Block

open SortedRank

variable {key : ℕ → ℤ} {N base n i : ℕ}

/-- The rewritten index of a sorted position depends on its key alone. -/
theorem dedupSlot_eq (hN : N ≤ 2 ^ 13) (hkey : ∀ p < N, -1 ≤ key p) (hi : i < N) :
    dedupSlot base key N i =
      if 0 ≤ key (sortedPos 13 key N i) then
        (base : ℤ) + rankOf (counted key N) (key (sortedPos 13 key N i)) else -1 := by
  have hspec := (sorted_spec hN hkey hi).2
  unfold dedupSlot
  rw [← hspec]
  by_cases h : 0 ≤ sortedKey 13 key N i
  · rw [if_pos h, if_pos h, rankAt_eq ascending_sortedKey hi h, counted_sortedKey hN hkey]
  · rw [if_neg h, if_neg h]

/-- The number of a marked position. -/
theorem rankAt_toNat (hN : N ≤ 2 ^ 13) (hkey : ∀ p < N, -1 ≤ key p) (hi : i < N)
    (hfirst : firstAt (sortedKey 13 key N) i) :
    (rankAt (sortedKey 13 key N) i).toNat = rankOf (counted key N) (sortedKey 13 key N i) := by
  rw [rankAt_eq ascending_sortedKey hi hfirst.2, counted_sortedKey hN hkey, Int.toNat_natCast]

/-- A marked position has a key that counts. -/
theorem sortedKey_mem (hN : N ≤ 2 ^ 13) (hkey : ∀ p < N, -1 ≤ key p) (hi : i < N)
    (hfirst : firstAt (sortedKey 13 key N) i) : sortedKey 13 key N i ∈ counted key N := by
  rw [← counted_sortedKey hN hkey]
  exact mem_counted.mpr ⟨⟨i, hi, rfl⟩, hfirst.2⟩

/-- **The list of the distinct tokens.** Writes that put the key of each marked position at
its number, and others past `n`, leave each token at its rank and nothing else below `n`. -/
theorem toks_spec (hN : N ≤ 2 ^ 13) (hkey : ∀ p < N, -1 ≤ key p) (writes : List (ℕ × ℤ))
    (hin : ∀ i < N, firstAt (sortedKey 13 key N) i →
      ((rankAt (sortedKey 13 key N) i).toNat, sortedKey 13 key N i) ∈ writes)
    (hout : ∀ w ∈ writes, w.1 < n → ∃ i < N, firstAt (sortedKey 13 key N) i ∧
      w = ((rankAt (sortedKey 13 key N) i).toNat, sortedKey 13 key N i)) :
    (∀ t ∈ counted key N, rankOf (counted key N) t < n →
        GridLoop.writeAll (fun _ => (-1 : ℤ)) writes (rankOf (counted key N) t) = t) ∧
      ∀ r < n, 0 ≤ GridLoop.writeAll (fun _ => (-1 : ℤ)) writes r →
        GridLoop.writeAll (fun _ => (-1 : ℤ)) writes r ∈ counted key N := by
  refine ⟨fun t ht hrank => ?_, fun r hr hpos => ?_⟩
  · refine GridLoop.writeAll_of_forall _ (fun w hw hfst => ?_) ?_
    · obtain ⟨i, hi, hfirst, rfl⟩ := hout w hw (hfst ▸ hrank)
      dsimp only at hfst
      rw [rankAt_toNat hN hkey hi hfirst] at hfst
      exact rankOf_injOn (sortedKey_mem hN hkey hi hfirst) ht hfst
    · have ht' : t ∈ counted (sortedKey 13 key N) N := by rwa [counted_sortedKey hN hkey]
      obtain ⟨i, hi, hfirst, rfl⟩ := exists_firstAt ht'
      refine List.mem_map.mpr ⟨_, hin i hi hfirst, ?_⟩
      exact rankAt_toNat hN hkey hi hfirst
  · rcases GridLoop.writeAll_eq_or (fun _ => (-1 : ℤ)) writes r with heq | ⟨w, hw, hfst, heq⟩
    · rw [heq] at hpos
      exact absurd hpos (by decide)
    · obtain ⟨i, hi, hfirst, rfl⟩ := hout w hw (hfst ▸ hr)
      rw [heq]
      exact sortedKey_mem hN hkey hi hfirst

end Block

section Dedup

open SortedRank

variable {nPool : ℕ} {e : Call nPool} {g : ℕ}

/-- The distinct tokens of a block. -/
def blockTokens (e : Call nPool) (g b : ℕ) : Finset ℤ := counted (torchKey e g b) (g * e.k)

/-- The rewritten index of an entry: the rank of its token in the block. -/
def dedupIdx (e : Call nPool) (g r j : ℕ) : ℤ :=
  if e.live r j then
    (((r * e.k + j) / (g * e.k) * (g * e.k) : ℕ) : ℤ) +
      rankOf (blockTokens e g ((r * e.k + j) / (g * e.k))) (e.entry r j)
  else -1

theorem Call.key_of_live {r j : ℕ} (h : e.live r j = true) : e.key r j = e.entry r j := if_pos h

theorem Call.key_nonneg {r j : ℕ} : 0 ≤ e.key r j ↔ e.live r j = true := by
  unfold Call.key
  split
  · next h => exact iff_of_true (Call.entry_nonneg h) h
  · next h => exact iff_of_false (by decide) h

theorem Call.neg_one_le_key (r j : ℕ) : -1 ≤ e.key r j := by
  unfold Call.key
  split
  · next h => exact (by decide : (-1 : ℤ) ≤ 0).trans (Call.entry_nonneg h)
  · exact le_rfl

theorem rows_eq (hg : g ∣ e.rows) : e.rows * e.k = e.rows / g * (g * e.k) := by
  rw [← Nat.mul_assoc, Nat.div_mul_cancel hg]

/-- The position of an entry in its block. -/
theorem block_spec (hg : g ∣ e.rows) {q : ℕ} (hq : q < e.rows * e.k) :
    q / (g * e.k) < e.rows / g ∧ q % (g * e.k) < g * e.k := by
  rw [rows_eq hg] at hq
  have hn : 0 < g * e.k := Nat.pos_of_ne_zero fun h => by
    rw [h, Nat.mul_zero] at hq
    exact Nat.not_lt_zero q hq
  exact ⟨Nat.div_lt_of_lt_mul (Nat.mul_comm (g * e.k) _ ▸ hq), Nat.mod_lt q hn⟩

theorem block_lt (hg : g ∣ e.rows) {b p : ℕ} (hb : b < e.rows / g) (hp : p < g * e.k) :
    b * (g * e.k) + p < e.rows * e.k := by
  rw [rows_eq hg]
  calc b * (g * e.k) + p < b * (g * e.k) + g * e.k := Nat.add_lt_add_left hp _
    _ = (b + 1) * (g * e.k) := (Nat.succ_mul b _).symm
    _ ≤ e.rows / g * (g * e.k) := Nat.mul_le_mul_right _ hb

/-- The key of an entry's position in its block. -/
theorem torchKey_eq {r j : ℕ} (hr : r < e.rows) (hj : j < e.k) :
    torchKey e g ((r * e.k + j) / (g * e.k)) ((r * e.k + j) % (g * e.k)) = e.key r j := by
  unfold torchKey
  rw [Nat.div_add_mod', (flat_spec hr hj).2.1, (flat_spec hr hj).2.2]

theorem mem_blockTokens {r j : ℕ} (hg : g ∣ e.rows) (hr : r < e.rows) (hj : j < e.k)
    (h : e.live r j = true) : e.entry r j ∈ blockTokens e g ((r * e.k + j) / (g * e.k)) := by
  refine mem_counted.mpr ⟨⟨_, (block_spec hg (flat_spec hr hj).1).2, ?_⟩, Call.entry_nonneg h⟩
  rw [torchKey_eq hr hj, Call.key_of_live h]

theorem blockTokens_lt (hg : g ∣ e.rows) {b : ℕ} (hb : b < e.rows / g) {t : ℤ}
    (ht : t ∈ blockTokens e g b) : t < nPool := by
  obtain ⟨⟨p, hp, rfl⟩, hpos⟩ := mem_counted.mp ht
  have hlive := Call.key_nonneg.mp hpos
  obtain ⟨hr, hj⟩ := unflat_spec (block_lt hg hb hp)
  have hlt := e.range _ hr _ hj hlive
  unfold torchKey
  rwa [Call.key_of_live hlive]

theorem rankOf_blockTokens_lt {b : ℕ} {t : ℤ} (ht : t ∈ blockTokens e g b) :
    rankOf (blockTokens e g b) t < g * e.k :=
  (rankOf_lt_card ht).trans_le (counted_card_le _ _)

/-- **Slots by rank are sound**, where every distinct token of a block is listed at its
rank. -/
theorem sound_by_rank {plan : Plan} (hg : g ∣ e.rows)
    (hidx : ∀ r < e.rows, ∀ j < e.k, plan.newIdx r j = dedupIdx e g r j)
    (hpages : plan.nPages = cdiv (e.rows * e.k) SUB)
    (hlisted : ∀ b < e.rows / g, ∀ t ∈ blockTokens e g b,
      (t, b * (g * e.k) + rankOf (blockTokens e g b) t) ∈ plan.list)
    (hlist : ∀ w ∈ plan.list, 0 ≤ w.1 → ∃ b < e.rows / g, ∃ r < g * e.k,
      w.2 = b * (g * e.k) + r ∧ w.1 ∈ blockTokens e g b)
    (hnodup : (plan.list.map Prod.snd).Nodup) : Sound e plan where
  dead r hr j hj hdead := by
    rw [hidx r hr j hj]
    unfold dedupIdx
    rw [hdead, if_neg Bool.false_ne_true]
  served r hr j hj hlive := by
    have hb := (block_spec hg (flat_spec hr hj).1).1
    refine ⟨_, ?_, hlisted _ hb _ (mem_blockTokens hg hr hj hlive)⟩
    rw [hidx r hr j hj]
    unfold dedupIdx
    rw [if_pos hlive, Nat.cast_add]
  inside w hw hpos := by
    obtain ⟨b, hb, r, hr, hslot, hmem⟩ := hlist w hw hpos
    rw [hpages, hslot]
    exact ⟨lt_cdiv_mul (show 0 < SUB by decide) (block_lt hg hb hr), blockTokens_lt hg hb hmem⟩
  nodup := hnodup

variable (empty : ℕ → ℕ → ℤ)

theorem neg_one_le_torchKey (b p : ℕ) : -1 ≤ torchKey e g b p := Call.neg_one_le_key _ _

/-- **`plan_dedup_torch` rewrites each entry to the rank of its token.** -/
theorem planDedupTorch_newIdx (hn : g * e.k ≤ 2 ^ 13) (hg : g ∣ e.rows) {r j : ℕ}
    (hr : r < e.rows) (hj : j < e.k) :
    (planDedupTorch e g empty).newIdx r j = dedupIdx e g r j := by
  obtain ⟨-, hp⟩ := block_spec hg (flat_spec hr hj).1
  show GridLoop.writeAll _ _ _ = _
  refine GridLoop.writeAll_of_forall _ (fun w hw hfst => ?_) ?_
  · obtain ⟨i, hi, rfl⟩ := List.mem_map.mp hw
    dsimp only at hfst ⊢
    rw [dedupSlot_eq hn (fun p _ => neg_one_le_torchKey _ p) (List.mem_range.mp hi), hfst,
      torchKey_eq hr hj]
    unfold dedupIdx
    by_cases hlive : e.live r j = true
    · rw [if_pos (Call.key_nonneg.mpr hlive), if_pos hlive, Call.key_of_live hlive]
      rfl
    · rw [if_neg fun h => hlive (Call.key_nonneg.mp h), if_neg hlive]
  · obtain ⟨i, hi, hpos⟩ := exists_sortedPos (torchKey e g ((r * e.k + j) / (g * e.k))) hn hp
    rw [List.map_map]
    exact List.mem_map.mpr ⟨i, List.mem_range.mpr hi, hpos⟩

/-- **The dedup plan.** -/
theorem planDedupTorch_sound (hn : g * e.k ≤ 2 ^ 13) (hg : g ∣ e.rows) :
    Sound e (planDedupTorch e g empty) := by
  have htoks : ∀ b, _ := fun b => toks_spec (n := g * e.k) hn
    (fun p _ => neg_one_le_torchKey (e := e) (g := g) b p)
    ((List.range (g * e.k)).map fun i =>
      (if firstAt (sortedKey 13 (torchKey e g b) (g * e.k)) i then
        (rankAt (sortedKey 13 (torchKey e g b) (g * e.k)) i).toNat else g * e.k,
        sortedKey 13 (torchKey e g b) (g * e.k) i))
    (fun i hi hfirst => List.mem_map.mpr ⟨i, List.mem_range.mpr hi, by rw [if_pos hfirst]⟩)
    (fun w hw hlt => by
      obtain ⟨i, hi, rfl⟩ := List.mem_map.mp hw
      by_cases hfirst : firstAt (sortedKey 13 (torchKey e g b) (g * e.k)) i
      · exact ⟨i, List.mem_range.mp hi, hfirst, by rw [if_pos hfirst]⟩
      · dsimp only at hlt
        rw [if_neg hfirst] at hlt
        exact absurd hlt (lt_irrefl _))
  refine sound_by_rank hg (fun r hr j hj => planDedupTorch_newIdx empty hn hg hr hj) rfl
    (fun b hb t ht => ?_) (fun w hw hpos => ?_) ?_
  · refine List.mem_flatMap.mpr ⟨b, List.mem_range.mpr hb, List.mem_map.mpr ?_⟩
    refine ⟨_, List.mem_range.mpr (rankOf_blockTokens_lt ht), Prod.ext ?_ rfl⟩
    exact (htoks b).1 t ht (rankOf_blockTokens_lt ht)
  · obtain ⟨b, hb, hw⟩ := List.mem_flatMap.mp hw
    obtain ⟨r, hr, rfl⟩ := List.mem_map.mp hw
    exact ⟨b, List.mem_range.mp hb, r, List.mem_range.mp hr, rfl,
      (htoks b).2 r (List.mem_range.mp hr) hpos⟩
  · refine nodup_blocks (n := g * e.k) List.nodup_range (fun b _ => ?_)
      fun b _ b' _ w hw w' hw' hslot => ?_
    · rw [List.map_map]
      exact List.nodup_range.map fun r r' h => Nat.add_left_cancel h
    · obtain ⟨r, hr, rfl⟩ := List.mem_map.mp hw
      obtain ⟨r', hr', rfl⟩ := List.mem_map.mp hw'
      rwa [block_div (List.mem_range.mp hr), block_div (List.mem_range.mp hr')] at hslot

/-! ### The GPU kernels -/

theorem tritonKey_of_lt {b p : ℕ} (hp : p < g * e.k) : tritonKey e g b p = torchKey e g b p := by
  have hk : 0 < e.k := Nat.pos_of_ne_zero fun h => by
    rw [h, Nat.mul_zero] at hp
    exact Nat.not_lt_zero p hp
  have hq : b * (g * e.k) + p = e.k * (b * g) + p := by
    rw [← Nat.mul_assoc, Nat.mul_comm]
  unfold tritonKey torchKey
  rw [if_pos hp, hq, Nat.mul_add_div hk, Nat.mul_add_mod]

theorem neg_one_le_tritonKey (b p : ℕ) : -1 ≤ tritonKey e g b p := by
  unfold tritonKey
  split
  · exact Call.neg_one_le_key _ _
  · exact le_rfl

/-- The padding adds no token. -/
theorem counted_tritonKey (b : ℕ) {N : ℕ} (hN : g * e.k ≤ N) :
    counted (tritonKey e g b) N = blockTokens e g b := by
  ext t
  unfold blockTokens
  rw [mem_counted, mem_counted]
  refine and_congr_left fun hpos => ⟨?_, ?_⟩
  · rintro ⟨p, -, hp⟩
    have hlt : p < g * e.k := by
      by_contra hge
      unfold tritonKey at hp
      rw [if_neg hge] at hp
      rw [← hp] at hpos
      exact absurd hpos (by decide)
    exact ⟨p, hlt, tritonKey_of_lt hlt ▸ hp⟩
  · rintro ⟨p, hp, rfl⟩
    exact ⟨p, hp.trans_le hN, tritonKey_of_lt hp⟩

theorem le_nextPowerOf2 (n : ℕ) : n ≤ nextPowerOf2 n := Nat.le_pow_clog Nat.one_lt_two n

theorem nextPowerOf2_le {n w : ℕ} (h : n ≤ 2 ^ w) : nextPowerOf2 n ≤ 2 ^ w :=
  Nat.pow_le_pow_right Nat.two_pos (Nat.clog_le_of_le_pow h)

/-- The address of a position of a block. -/
theorem triton_address (b : ℕ) {p : ℕ} : (b * g + p / e.k) * e.k + p % e.k = b * (g * e.k) + p := by
  rw [Nat.add_mul, Nat.add_assoc, Nat.div_add_mod', Nat.mul_assoc]

variable (scratch : ℕ → ℤ)

/-- **The GPU kernel rewrites each entry to the rank of its token**, whatever the padding. -/
theorem dedupTriton_newIdx (hn : g * e.k ≤ 2 ^ 13) (hg : g ∣ e.rows) {r j : ℕ}
    (hr : r < e.rows) (hj : j < e.k) :
    (dedupTriton e g scratch).newIdx r j = dedupIdx e g r j := by
  have hN := nextPowerOf2_le hn
  obtain ⟨hb, hp⟩ := block_spec hg (flat_spec hr hj).1
  show GridLoop.writeAll _ _ _ = _
  refine GridLoop.writeAll_of_forall _ (fun w hw hfst => ?_) ?_
  · obtain ⟨b, hb', hw⟩ := List.mem_flatMap.mp hw
    obtain ⟨i, hi, rfl⟩ := List.mem_map.mp hw
    obtain ⟨hiN, hpos⟩ := List.mem_filter.mp hi
    have hlt := of_decide_eq_true hpos
    dsimp only at hfst ⊢
    rw [triton_address] at hfst
    have hdiv : b = (r * e.k + j) / (g * e.k) := by rw [← hfst, block_div hlt]
    have hmod : sortedPos 13 (tritonKey e g b) (nextPowerOf2 (g * e.k)) i =
        (r * e.k + j) % (g * e.k) := by rw [← hfst, block_mod hlt]
    rw [dedupSlot_eq hN (fun p _ => neg_one_le_tritonKey _ p) (List.mem_range.mp hiN),
      tritonKey_of_lt hlt, hmod, hdiv, torchKey_eq hr hj, counted_tritonKey _ (le_nextPowerOf2 _)]
    unfold dedupIdx
    by_cases hlive : e.live r j = true
    · rw [if_pos (Call.key_nonneg.mpr hlive), if_pos hlive, Call.key_of_live hlive]
    · rw [if_neg fun h => hlive (Call.key_nonneg.mp h), if_neg hlive]
  · obtain ⟨i, hi, hpos⟩ := exists_sortedPos (tritonKey e g ((r * e.k + j) / (g * e.k))) hN
      (hp.trans_le (le_nextPowerOf2 _))
    rw [List.map_flatMap]
    refine List.mem_flatMap.mpr ⟨_, List.mem_range.mpr hb, ?_⟩
    unfold tritonStores
    rw [List.map_map]
    refine List.mem_map.mpr ⟨i, List.mem_filter.mpr ⟨List.mem_range.mpr hi, ?_⟩, ?_⟩
    · exact decide_eq_true (hpos ▸ hp)
    · dsimp only [Function.comp]
      rw [triton_address, hpos, Nat.div_add_mod']

/-- **Both ways to deduplicate rewrite the indices alike.** -/
theorem dedup_newIdx_eq (hn : g * e.k ≤ 2 ^ 13) (hg : g ∣ e.rows) {r j : ℕ} (hr : r < e.rows)
    (hj : j < e.k) : (dedupTriton e g scratch).newIdx r j = (planDedupTorch e g empty).newIdx r j := by
  rw [dedupTriton_newIdx scratch hn hg hr hj, planDedupTorch_newIdx empty hn hg hr hj]

/-- **The dedup plan of the GPU kernels.** -/
theorem dedupTriton_sound (hn : g * e.k ≤ 2 ^ 13) (hg : g ∣ e.rows) :
    Sound e (dedupTriton e g scratch) := by
  have hN := nextPowerOf2_le hn
  have hcounted := fun b => counted_tritonKey (e := e) (g := g) b (le_nextPowerOf2 (g * e.k))
  have htoks : ∀ b, _ := fun b => toks_spec (n := g * e.k) hN
    (fun p _ => neg_one_le_tritonKey (e := e) (g := g) b p)
    (((List.range (nextPowerOf2 (g * e.k))).filter fun i =>
      decide (firstAt (sortedKey 13 (tritonKey e g b) (nextPowerOf2 (g * e.k))) i)).map fun i =>
        ((rankAt (sortedKey 13 (tritonKey e g b) (nextPowerOf2 (g * e.k))) i).toNat,
          sortedKey 13 (tritonKey e g b) (nextPowerOf2 (g * e.k)) i))
    (fun i hi hfirst => List.mem_map.mpr
      ⟨i, List.mem_filter.mpr ⟨List.mem_range.mpr hi, decide_eq_true hfirst⟩, rfl⟩)
    (fun w hw _ => by
      obtain ⟨i, hi, rfl⟩ := List.mem_map.mp hw
      obtain ⟨hi, hfirst⟩ := List.mem_filter.mp hi
      exact ⟨i, List.mem_range.mp hi, of_decide_eq_true hfirst, rfl⟩)
  have hcnt : ∀ b, tritonCnt e g b = (blockTokens e g b).card := fun b => by
    unfold tritonCnt
    rw [count_firstAt ascending_sortedKey le_rfl,
      counted_sortedKey hN fun p _ => neg_one_le_tritonKey b p, hcounted]
  have hcntle : ∀ b, (blockTokens e g b).card ≤ g * e.k := fun b => counted_card_le _ _
  simp only [hcounted] at htoks
  refine sound_by_rank hg (fun r hr j hj => dedupTriton_newIdx scratch hn hg hr hj) rfl
    (fun b hb t ht => ?_) (fun w hw hpos => ?_) ?_
  · have hrank := rankOf_lt_card ht
    refine List.mem_flatMap.mpr ⟨b, List.mem_range.mpr hb, List.mem_map.mpr ?_⟩
    refine ⟨rankOf (blockTokens e g b) t, List.mem_filter.mpr ⟨?_, ?_⟩, Prod.ext ?_ rfl⟩
    · exact List.mem_range.mpr (lt_cdiv_mul (show 0 < TOK_R by decide) (rankOf_blockTokens_lt ht))
    · exact decide_eq_true (hcnt b ▸ hrank)
    · exact (htoks b).1 t ht (rankOf_blockTokens_lt ht)
  · obtain ⟨b, hb, hw⟩ := List.mem_flatMap.mp hw
    obtain ⟨r, hr, rfl⟩ := List.mem_map.mp hw
    have hr' := of_decide_eq_true (List.mem_filter.mp hr).2
    rw [hcnt] at hr'
    have hlt := hr'.trans_le (hcntle b)
    exact ⟨b, List.mem_range.mp hb, r, hlt, rfl, (htoks b).2 r hlt hpos⟩
  · refine nodup_blocks (n := g * e.k) List.nodup_range (fun b _ => ?_)
      fun b _ b' _ w hw w' hw' hslot => ?_
    · rw [List.map_map]
      exact (List.nodup_range.filter _).map fun r r' h => Nat.add_left_cancel h
    · obtain ⟨r, hr, rfl⟩ := List.mem_map.mp hw
      obtain ⟨r', hr', rfl⟩ := List.mem_map.mp hw'
      have hlt := of_decide_eq_true (List.mem_filter.mp hr).2
      have hlt' := of_decide_eq_true (List.mem_filter.mp hr').2
      rw [hcnt] at hlt hlt'
      rwa [block_div (hlt.trans_le (hcntle b)), block_div (hlt'.trans_le (hcntle b'))] at hslot

end Dedup

/-! ## The touched sub-pages, compacted -/

section Count

variable {mark : ℕ → Prop} [DecidablePred mark]

/-- The compacted page of a touched sub-page is the number of touched ones before it. -/
theorem cmap_of_mark {s : ℕ} (h : mark s) : cmap mark s = (Nat.count mark s : ℕ) := by
  unfold cmap
  rw [Nat.count_succ, if_pos h]
  omega

/-- **The touched sub-pages are compacted to the first pages, in order.** -/
theorem count_touched (n : ℕ) :
    ((List.range n).filter fun s => decide (mark s)).map (Nat.count mark) =
      List.range (Nat.count mark n) := by
  induction n with
  | zero => rfl
  | succ n ih =>
    rw [List.range_succ, List.filter_append, List.map_append, ih, Nat.count_succ]
    by_cases h : mark n
    · have hlast : [n].filter (fun s => decide (mark s)) = [n] := by simp [h]
      rw [hlast, if_pos h, List.range_succ]
      rfl
    · have hlast : [n].filter (fun s => decide (mark s)) = [] := by simp [h]
      rw [hlast, if_neg h, List.map_nil, List.append_nil, Nat.add_zero]

theorem length_touched (n : ℕ) :
    ((List.range n).filter fun s => decide (mark s)).length = Nat.count mark n := by
  have h : (((List.range n).filter fun s => decide (mark s)).map (Nat.count mark)).length =
      (List.range (Nat.count mark n)).length := congrArg List.length (count_touched n)
  rwa [List.length_map, List.length_range] at h

end Count

/-- Tokens and slots of the touched sub-pages, side by side. -/
theorem zip_pages (f : ℕ → ℕ) (touched : List ℕ) :
    (touched.flatMap subTokens).zip (touched.flatMap fun s => subSlots (f s)) =
      touched.flatMap fun s => (List.range SUB).map fun j =>
        (((s * SUB + j : ℕ) : ℤ), f s * SUB + j) := by
  induction touched with
  | nil => rfl
  | cons s touched ih =>
    have hlen : (subTokens s).length = (subSlots (f s)).length := by
      unfold subTokens subSlots
      rw [List.length_map, List.length_map]
    rw [List.flatMap_cons, List.flatMap_cons, List.flatMap_cons, List.zip_append hlen, ih]
    refine congrArg (· ++ _) ?_
    unfold subTokens subSlots
    exact List.zip_map'

section Pages

variable {nPool : ℕ} {e : Call nPool}

/-- What is listed for the touched sub-pages: their tokens in the pool, each in the page
that the sub-page is compacted to. -/
def pageListed (e : Call nPool) (w : ℤ × ℕ) : Prop :=
  ∃ s, marked e e.flatLive s ∧ ∃ j < SUB, s * SUB + j < nPool ∧
    w = (((s * SUB + j : ℕ) : ℤ), Nat.count (marked e e.flatLive) s * SUB + j)

theorem lt_cdiv_of_mul_lt {s j n : ℕ} (h : s * SUB + j < n) : s < cdiv n SUB := by
  unfold cdiv SUB at *
  omega

/-- A live entry marks its sub-page. -/
theorem marked_of_live {r j : ℕ} (hr : r < e.rows) (hj : j < e.k) (h : e.live r j = true) :
    marked e e.flatLive (e.entry r j / (SUB : ℤ)).toNat := by
  obtain ⟨hlt, hdiv, hmod⟩ := flat_spec hr hj
  have hnonneg : 0 ≤ e.entry r j / (SUB : ℤ) :=
    Int.ediv_nonneg (Call.entry_nonneg h) (Int.natCast_nonneg SUB)
  refine ⟨r * e.k + j, hlt, ?_, ?_⟩
  · unfold Call.flatLive
    rwa [hdiv, hmod]
  · unfold Call.flat
    rw [hdiv, hmod, Int.toNat_of_nonneg hnonneg]

/-- **Slots by touched sub-page are sound.** -/
theorem sound_by_page {plan : Plan}
    (hidx : ∀ r < e.rows, ∀ j < e.k,
      plan.newIdx r j = pageIdx (marked e e.flatLive) (e.live r j) (e.entry r j))
    (hpages : plan.nPages = Nat.count (marked e e.flatLive) (cdiv nPool SUB))
    (hlist : ∀ w, w ∈ plan.list ↔ pageListed e w)
    (hnodup : (plan.list.map Prod.snd).Nodup) : Sound e plan where
  dead r hr j hj hdead := by
    rw [hidx r hr j hj]
    unfold pageIdx
    rw [hdead, if_neg Bool.false_ne_true]
  served r hr j hj hlive := by
    have hmark := marked_of_live hr hj hlive
    have hrange := e.range r hr j hj hlive
    have hnonneg := Call.entry_nonneg hlive
    obtain ⟨t, ht⟩ := Int.eq_ofNat_of_zero_le hnonneg
    have hs : (e.entry r j / (SUB : ℤ)).toNat = t / SUB := by
      rw [ht]
      rfl
    have hmod : e.entry r j % (SUB : ℤ) = ((t % SUB : ℕ) : ℤ) := by
      rw [ht]
      rfl
    rw [hs] at hmark
    refine ⟨Nat.count (marked e e.flatLive) (t / SUB) * SUB + t % SUB, ?_, ?_⟩
    · rw [hidx r hr j hj]
      unfold pageIdx
      rw [if_pos hlive, hs, cmap_of_mark hmark, hmod, Nat.cast_add, Nat.cast_mul]
    · refine (hlist _).mpr ⟨t / SUB, hmark, t % SUB, Nat.mod_lt t (show 0 < SUB by decide), ?_, ?_⟩
      · rw [Nat.div_add_mod']
        omega
      · rw [Nat.div_add_mod', ht]
  inside w hw _ := by
    obtain ⟨s, hmark, j, hj, hlt, rfl⟩ := (hlist w).mp hw
    have hcount := Nat.count_strict_mono hmark (lt_cdiv_of_mul_lt hlt)
    rw [hpages]
    refine ⟨?_, Int.ofNat_lt.mpr hlt⟩
    show Nat.count (marked e e.flatLive) s * SUB + j < _
    calc Nat.count (marked e e.flatLive) s * SUB + j
        < (Nat.count (marked e e.flatLive) s + 1) * SUB := by
          rw [Nat.succ_mul]
          exact Nat.add_lt_add_left hj _
      _ ≤ _ := Nat.mul_le_mul_right SUB hcount
  nodup := hnodup

/-- The tokens of the touched sub-pages with their slots, as the torch plans list them. -/
def touchedList (e : Call nPool) : List (ℤ × ℕ) :=
  (((List.range (cdiv nPool SUB)).filter fun s => decide (marked e e.flatLive s)).flatMap fun s =>
    (List.range SUB).map fun j =>
      (((s * SUB + j : ℕ) : ℤ), Nat.count (marked e e.flatLive) s * SUB + j)).filter
    fun w => decide (w.1 < nPool)

theorem mem_touchedList {w : ℤ × ℕ} : w ∈ touchedList e ↔ pageListed e w := by
  unfold touchedList pageListed
  rw [List.mem_filter, List.mem_flatMap]
  constructor
  · rintro ⟨⟨s, hs, hw⟩, hlt⟩
    obtain ⟨j, hj, rfl⟩ := List.mem_map.mp hw
    exact ⟨s, of_decide_eq_true (List.mem_filter.mp hs).2, j, List.mem_range.mp hj,
      Int.ofNat_lt.mp (of_decide_eq_true hlt), rfl⟩
  · rintro ⟨s, hmark, j, hj, hlt, rfl⟩
    refine ⟨⟨s, List.mem_filter.mpr ⟨?_, decide_eq_true hmark⟩, ?_⟩, ?_⟩
    · exact List.mem_range.mpr (lt_cdiv_of_mul_lt hlt)
    · exact List.mem_map.mpr ⟨j, List.mem_range.mpr hj, rfl⟩
    · exact decide_eq_true (Int.ofNat_lt.mpr hlt)

theorem nodup_touchedList : ((touchedList e).map Prod.snd).Nodup := by
  refine List.Nodup.sublist (List.filter_sublist.map Prod.snd) ?_
  refine nodup_blocks (n := SUB) (List.nodup_range.filter _) (fun s _ => ?_)
    fun s hs s' hs' w hw w' hw' hslot => ?_
  · rw [List.map_map]
    exact List.nodup_range.map fun j j' h => Nat.add_left_cancel h
  · obtain ⟨j, hj, rfl⟩ := List.mem_map.mp hw
    obtain ⟨j', hj', rfl⟩ := List.mem_map.mp hw'
    rw [block_div (List.mem_range.mp hj), block_div (List.mem_range.mp hj')] at hslot
    exact Nat.count_injective (of_decide_eq_true (List.mem_filter.mp hs).2)
      (of_decide_eq_true (List.mem_filter.mp hs').2) hslot

/-- **The page plan** of a call without lengths. -/
theorem planPageMode_sound (hlen : e.topkLen = none) : Sound e (planPageMode e) := by
  have hlive : ∀ r j, e.live r j = decide (0 ≤ e.entry r j) := fun r j => by
    unfold Call.live liveAt
    rw [hlen, Bool.and_true]
  have hpass : (fun p => decide (0 ≤ e.flat p)) = e.flatLive := funext fun p => (hlive _ _).symm
  have hlist : (planPageMode e).list = touchedList e := by
    unfold planPageMode touchedList
    dsimp only
    simp only [hpass]
    rw [length_touched, ← count_touched, List.flatMap_map, zip_pages]
  refine sound_by_page (fun r _ j _ => ?_) ?_ (fun w => by rw [hlist]; exact mem_touchedList)
    (by rw [hlist]; exact nodup_touchedList)
  · rw [hlive]
    show pageIdx (marked e fun p => decide (0 ≤ e.flat p)) _ _ = _
    simp only [hpass]
  · show ((List.range (cdiv nPool SUB)).filter fun s =>
      decide (marked e (fun p => decide (0 ≤ e.flat p)) s)).length = _
    simp only [hpass]
    exact length_touched _

/-- The call that the page plan of a layer group sees has the same live entries. -/
theorem masked_live (r j : ℕ) : e.masked.live r j = e.live r j := by
  have hkey := Call.key_nonneg (e := e) (r := r) (j := j)
  show (decide (0 ≤ e.key r j) && true) = e.live r j
  rw [Bool.and_true]
  cases hlive : e.live r j with
  | true => exact decide_eq_true (hkey.mpr hlive)
  | false => exact decide_eq_false fun h => Bool.false_ne_true (hlive.symm.trans (hkey.mp h))

/-- **The page plan of a layer group.** -/
theorem groupPage_sound : Sound e (planPageMode e.masked) := by
  have h := planPageMode_sound (e := e.masked) rfl
  exact {
    dead := fun r hr j hj hdead => h.dead r hr j hj ((masked_live r j).trans hdead)
    served := fun r hr j hj hlive => by
      have hserved := h.served r hr j hj ((masked_live r j).trans hlive)
      rwa [show e.masked.entry r j = e.entry r j from Call.key_of_live hlive] at hserved
    inside := h.inside
    nodup := h.nodup }

theorem nativePages_eq : nativePages e = Nat.count (marked e e.flatLive) (cdiv nPool SUB) := by
  unfold nativePages
  by_cases h : cdiv nPool SUB = 0
  · rw [if_pos h, h]
    rfl
  · rw [if_neg h]
    unfold cmap
    rw [show max (cdiv nPool SUB) 1 - 1 + 1 = cdiv nPool SUB by omega]
    omega

/-- **The native page plan.** -/
theorem nativeTorchPlan_sound : Sound e (nativeTorchPlan e) := by
  have hlist : (nativeTorchPlan e).list = touchedList e := by
    unfold nativeTorchPlan touchedList
    dsimp only
    rw [zip_pages]
    refine congrArg (List.filter _) (List.flatMap_congr fun s hs => ?_)
    rw [cmap_of_mark (of_decide_eq_true (List.mem_filter.mp hs).2), Int.toNat_natCast]
  exact sound_by_page (fun r _ j _ => rfl) nativePages_eq
    (fun w => by rw [hlist]; exact mem_touchedList) (by rw [hlist]; exact nodup_touchedList)

/-- What the page kernel does for one sub-page. -/
theorem mem_nativePageProgram {s : ℕ} {w : ℤ × ℕ} : w ∈ nativePageProgram e s ↔
    marked e e.flatLive s ∧ ∃ j < SUB, s * SUB + j < nPool ∧
      w = (((s * SUB + j : ℕ) : ℤ), Nat.count (marked e e.flatLive) s * SUB + j) := by
  unfold nativePageProgram
  dsimp only
  by_cases hmark : marked e e.flatLive s
  · rw [if_pos hmark, GridLoop.gridIndices_eq, cmap_of_mark hmark, Int.toNat_natCast]
    constructor
    · intro hw
      obtain ⟨j, hj, rfl⟩ := List.mem_map.mp hw
      obtain ⟨hj, hlt⟩ := List.mem_filter.mp hj
      exact ⟨hmark, j, List.mem_range.mp hj, of_decide_eq_true hlt, rfl⟩
    · rintro ⟨-, j, hj, hlt, rfl⟩
      exact List.mem_map.mpr
        ⟨j, List.mem_filter.mpr ⟨List.mem_range.mpr hj, decide_eq_true hlt⟩, rfl⟩
  · rw [if_neg hmark]
    exact iff_of_false List.not_mem_nil fun h => hmark h.1

theorem nodup_nativePageProgram (s : ℕ) : ((nativePageProgram e s).map Prod.snd).Nodup := by
  unfold nativePageProgram
  dsimp only
  split
  · rw [List.map_map, GridLoop.gridIndices_eq]
    exact (List.nodup_range.filter _).map fun j j' h => Nat.add_left_cancel h
  · exact List.nodup_nil

/-- **The native page plan of the GPU kernels.** -/
theorem nativeTritonPlan_sound : Sound e (nativeTritonPlan e) := by
  refine sound_by_page (fun r hr j hj => ?_) nativePages_eq (fun w => ?_) ?_
  · obtain ⟨-, hdiv, hmod⟩ := flat_spec (e := e) hr hj
    unfold nativeTritonPlan Call.flatLive Call.flat
    dsimp only
    rw [hdiv, hmod]
  · unfold nativeTritonPlan pageListed
    rw [List.mem_flatMap]
    constructor
    · rintro ⟨s, -, hw⟩
      exact ⟨s, mem_nativePageProgram.mp hw⟩
    · rintro ⟨s, hmark, j, hj, hlt, hw⟩
      exact ⟨s, List.mem_range.mpr (lt_max_of_lt_left (lt_cdiv_of_mul_lt hlt)),
        mem_nativePageProgram.mpr ⟨hmark, j, hj, hlt, hw⟩⟩
  · refine nodup_blocks (n := SUB) List.nodup_range (fun s _ => nodup_nativePageProgram s)
      fun s _ s' _ w hw w' hw' hslot => ?_
    obtain ⟨hmark, j, hj, -, rfl⟩ := mem_nativePageProgram.mp hw
    obtain ⟨hmark', j', hj', -, rfl⟩ := mem_nativePageProgram.mp hw'
    rw [block_div hj, block_div hj'] at hslot
    exact Nat.count_injective hmark hmark' hslot

/-- **The native page view** has a sound plan, where its scratch is within the cap. -/
theorem nativePageView_sound {cuda : Bool} {cap : ℕ} {plan : Plan}
    (h : nativePageView e cuda cap = some plan) : Sound e plan := by
  have hplan := (Option.ite_none_right_eq_some.mp h).2
  cases cuda with
  | true => exact Option.some_inj.mp hplan ▸ nativeTritonPlan_sound
  | false => exact Option.some_inj.mp hplan ▸ nativeTorchPlan_sound

end Pages

/-! ## The planners -/

theorem Pool.tokens_pos (P : Pool) : 0 < P.tokens := Nat.mul_pos P.pages_pos P.pbs_pos

/-- **Every plan is exact.** The group, dedup, page and native plans of a layer group are so
for the entries below the row's length; the token plan and the page plan by itself, which
take no lengths, for all entries that are not negative. Both ways to deduplicate rewrite the
indices alike. -/
theorem plans_exact (P : Pool) (rule : V4Rule) (e : Call P.tokens) :
    (e.topkLen = none → Exact P rule e (planTokenMode e) ∧ Exact P rule e (planPageMode e)) ∧
      Exact P rule e (planGroupTorch e) ∧
      Exact P rule e (planPageMode e.masked) ∧
      (∀ cuda cap plan, nativePageView e cuda cap = some plan → Exact P rule e plan) ∧
      ∀ g, g * e.k ≤ 8192 → g ∣ e.rows → ∀ empty scratch,
        Exact P rule e (planDedupTorch e g empty) ∧ Exact P rule e (dedupTriton e g scratch) ∧
          ∀ r < e.rows, ∀ j < e.k,
            (dedupTriton e g scratch).newIdx r j = (planDedupTorch e g empty).newIdx r j := by
  refine ⟨fun hlen => ⟨?_, ?_⟩, planGroupTorch_sound.exact, groupPage_sound.exact,
    fun cuda cap plan h => (nativePageView_sound h).exact, fun g hn hg empty scratch => ?_⟩
  · exact (planTokenMode_sound P.tokens_pos hlen).exact
  · exact (planPageMode_sound hlen).exact
  · exact ⟨(planDedupTorch_sound empty hn hg).exact, (dedupTriton_sound scratch hn hg).exact,
      fun r hr j hj => dedup_newIdx_eq empty scratch hn hg hr hj⟩

/-- A pool of 65 zero records. -/
def samplePool : Pool := ⟨65, 1, fun _ _ => 0, by decide, by decide⟩

/-- What the transcoding makes of a zero record. -/
def zeroRule : V4Rule where
  apply _ := (List.replicate ROW 0, List.replicate 7 105 ++ [0])
  length_data _ := List.length_replicate
  length_scales _ := rfl

/-- Two rows that share a token, with a hole. -/
def sampleCall : Call samplePool.tokens where
  rows := 2
  k := 2
  entry r j := if j = 0 then 64 else if r = 0 then -1 else 3
  topkLen := none
  range r _ j _ _ := by
    show (if j = 0 then 64 else if r = 0 then -1 else 3 : ℤ) < ((65 * 1 : ℕ) : ℤ)
    split
    · decide
    · split <;> decide

theorem plans_exact_two_rows :
    Exact samplePool zeroRule sampleCall (planTokenMode sampleCall) ∧
      Exact samplePool zeroRule sampleCall (planDedupTorch sampleCall 2 fun _ _ => 0) ∧
      (dedupTriton sampleCall 2 fun _ => 0).newIdx 1 0 =
        (planDedupTorch sampleCall 2 fun _ _ => 0).newIdx 1 0 := by
  obtain ⟨htoken, -, -, -, hdedup⟩ := plans_exact samplePool zeroRule sampleCall
  obtain ⟨htorch, -, hsame⟩ := hdedup 2 (by decide) (by decide) (fun _ _ => 0) fun _ => 0
  exact ⟨(htoken rfl).1, htorch, hsame 1 (by decide) 0 (by decide)⟩

/-- One entry beyond the length of its row. -/
def beyondCall : Call samplePool.tokens where
  rows := 1
  k := 1
  entry _ _ := 0
  topkLen := some fun _ => 0
  range _ _ _ _ _ := by decide

/-- The token plan takes no lengths: it gives an entry beyond the length of its row a slot. -/
theorem planTokenMode_ignores_lengths :
    ¬∀ (P : Pool) (rule : V4Rule) (e : Call P.tokens), Exact P rule e (planTokenMode e) := by
  intro h
  have hdead := (h samplePool zeroRule beyondCall).dead 0 (by decide) 0 (by decide) (by decide)
  exact absurd hdead (by decide)

end KvPlan
