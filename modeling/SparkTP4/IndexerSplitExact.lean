import Mathlib.Data.List.Sort
import Mathlib.Order.Fin.Basic
import SparkTP4.IndexerSplit

/-!
# The split indexer selects what the unsplit one selects

Every row has ids and, on a source layer, block ids of its own: what the kernels make of
the row alone (`selectedId`, `blockId`). The chunks of the unsplit path compute them
(`chunkLoop_selected`, `chunkLoop_maskB`), and so do the chunks of a rank, which cut the
rows without regard to the requests (`splitLocal_row`). As the parts of the ranks are the
rows in order, both paths return the same ids and the same masks (`sharded_scan_exact`).
-/

namespace IndexerSplit

/-! ## Where the rows of a request are -/

section Places

variable {index offset : ℕ} {rs : List Request} {p q : Place} {g : ℕ}

theorem bounds_of_mem_places (hp : p ∈ places index offset rs) :
    index ≤ p.index ∧ offset ≤ p.start ∧
      p.stop ≤ offset + (rs.map Request.count).sum ∧ p.request ∈ rs := by
  induction rs generalizing index offset with
  | nil => exact absurd hp List.not_mem_nil
  | cons r rs ih =>
    rw [List.map_cons, List.sum_cons]
    rcases List.mem_cons.mp hp with rfl | hp
    · refine ⟨le_rfl, le_rfl, ?_, List.mem_cons_self⟩
      show offset + r.count ≤ _
      omega
    · obtain ⟨hindex, hstart, hstop, hmem⟩ := ih hp
      exact ⟨by omega, by omega, by omega, List.mem_cons_of_mem r hmem⟩

theorem nodup_places : (places index offset rs).Nodup := by
  induction rs generalizing index offset with
  | nil => exact List.nodup_nil
  | cons r rs ih =>
    refine List.nodup_cons.mpr ⟨fun hmem => ?_, ih⟩
    have hlt : index + 1 ≤ index := (bounds_of_mem_places hmem).1
    exact Nat.not_succ_le_self index hlt

variable (index) in
/-- Every row belongs to a request. -/
theorem exists_place (hlo : offset ≤ g) (hhi : g < offset + (rs.map Request.count).sum) :
    ∃ p ∈ places index offset rs, p.start ≤ g ∧ g < p.stop := by
  induction rs generalizing index offset with
  | nil => exact absurd hhi (Nat.not_lt.mpr hlo)
  | cons r rs ih =>
    rw [List.map_cons, List.sum_cons] at hhi
    by_cases hr : g < offset + r.count
    · exact ⟨⟨index, offset, r⟩, List.mem_cons_self, hlo, hr⟩
    · obtain ⟨p, hp, hg⟩ := ih (index + 1) (Nat.not_lt.mp hr) (by omega)
      exact ⟨p, List.mem_cons_of_mem _ hp, hg⟩

/-- No row belongs to two requests. -/
theorem place_unique (hp : p ∈ places index offset rs) (hq : q ∈ places index offset rs)
    (hgp : p.start ≤ g ∧ g < p.stop) (hgq : q.start ≤ g ∧ g < q.stop) : p = q := by
  induction rs generalizing index offset with
  | nil => exact absurd hp List.not_mem_nil
  | cons r rs ih =>
    have hfirst : ∀ {q : Place}, q ∈ places (index + 1) (offset + r.count) rs →
        q.start ≤ g → ¬g < offset + r.count := fun hq hle =>
      Nat.not_lt.mpr ((bounds_of_mem_places hq).2.1.trans hle)
    rcases List.mem_cons.mp hp with rfl | hp <;> rcases List.mem_cons.mp hq with rfl | hq
    · rfl
    · exact absurd hgp.2 (hfirst hq hgq.1)
    · exact absurd hgq.2 (hfirst hp hgp.1)
    · exact ih hp hq

end Places

variable {R α : Type} [LinearOrder α] [OrderBot α] [OrderTop α]
  {K : Kernels R α} {ix : Indexer} {budget : ℕ} {B : Batch R}

theorem Batch.stop_le {p : Place} (hp : p ∈ B.places) : p.stop ≤ B.numTokens := by
  have h := (bounds_of_mem_places hp).2.2.1
  rwa [Nat.zero_add] at h

theorem Batch.nodup_places (B : Batch R) : B.places.Nodup :=
  IndexerSplit.nodup_places

/-! ## What the kernels make of one row -/

/-- The scores of row `g` after the masking of its request. -/
def fillRow (ix : Indexer) (B : Batch R) (p : Place) (g : ℕ) (l : ℕ → α) (j : ℕ) : α :=
  if p.request.width ≤ j then l j
  else if ix.isCandidateSource then if (B.row g).len ≤ j then ⊥ else l j
  else if ix.consumes then if B.published p.index (g - p.start) j then l j else ⊥
  else l j

/-- The scores of row `g`, masked. -/
def liveScores (K : Kernels R α) (ix : Indexer) (B : Batch R) (p : Place) (g : ℕ) : ℕ → α :=
  fillRow ix B p g (K.score (B.row g))

/-- The top-k and its masking on one row of scores. -/
def picked (K : Kernels R α) (ix : Indexer) (cols : ℕ) (l : ℕ → α) (r : Row R) (c : ℕ) : ℤ :=
  let id := K.topk cols l r.len r.ks ix.indexTopk c
  if ix.consumes then if K.valid cols l r.ks id then id else -1 else id

/-- The ids selected for row `g`. -/
def selectedId (K : Kernels R α) (ix : Indexer) (B : Batch R) (p : Place) (g c : ℕ) : ℤ :=
  picked K ix (B.row g).len (liveScores K ix B p g) (B.row g) c

/-- The candidate blocks of row `g`. -/
def blockId (K : Kernels R α) (ix : Indexer) (B : Batch R) (p : Place) (g : ℕ) : ℕ → ℤ :=
  candidateBlockIds K.top (liveScores K ix B p g) p.request.width (B.row g).len
    ix.candidateTopkBlocks ix.candidateBlockSize

/-- The candidate mask of row `g`. -/
def rowMask (K : Kernels R α) (ix : Indexer) (B : Batch R) (p : Place) (g : ℕ) : ℕ → Bool :=
  candidateMask ((List.range (nblocks ix p.request.width)).map (blockId K ix B p g))
    p.request.width ix.candidateBlockSize

/-- Neither kernel reads at or beyond the length. -/
theorem picked_congr {cols cols' : ℕ} {l l' : ℕ → α} {r : Row R} (hcols : r.len ≤ cols)
    (hcols' : r.len ≤ cols') (h : ∀ j < r.len, l j = l' j) (c : ℕ) :
    picked K ix cols l r c = picked K ix cols' l' r c := by
  unfold picked
  dsimp only
  rw [K.valid_congr cols cols' l l' r.len r.ks ix.indexTopk c hcols hcols' h,
    K.topk_congr cols cols' l l' r.len r.ks ix.indexTopk c hcols hcols' h]

/-- A row that sees no position selects nothing. -/
theorem picked_of_len_eq_zero {cols c : ℕ} {l : ℕ → α} {r : Row R} (hlen : r.len = 0)
    (hc : c < ix.indexTopk) : picked K ix cols l r c = -1 := by
  unfold picked
  rw [hlen, K.topk_zero cols l r.ks ix.indexTopk c hc]
  simp

section Row

variable {p : Place} {g : ℕ} {l : ℕ → α}

/-- The masked scores are the masked scores of the row where the scorer wrote its scores. -/
theorem fillRow_of_lt {j : ℕ} (hl : l j = K.score (B.row g) j) :
    fillRow ix B p g l j = liveScores K ix B p g j := by
  unfold liveScores fillRow
  rw [hl]

/-- On a source layer they agree up to the width, as what is beyond the length is masked. -/
theorem fillRow_of_source (hsource : ix.isCandidateSource = true)
    (hl : ∀ j < (B.row g).len, l j = K.score (B.row g) j) {j : ℕ} (hj : j < p.request.width) :
    fillRow ix B p g l j = liveScores K ix B p g j := by
  by_cases hlen : j < (B.row g).len
  · exact fillRow_of_lt (hl j hlen)
  · unfold liveScores fillRow
    rw [if_neg (Nat.not_le.mpr hj), if_neg (Nat.not_le.mpr hj), if_pos hsource, if_pos hsource,
      if_pos (Nat.not_lt.mp hlen), if_pos (Nat.not_lt.mp hlen)]

variable (ix p) in
/-- The ids from a chunk's scores are the row's ids. -/
theorem picked_fillRow {cols : ℕ} (hcols : (B.row g).len ≤ cols)
    (hl : ∀ j < (B.row g).len, l j = K.score (B.row g) j) (c : ℕ) :
    picked K ix cols (fillRow ix B p g l) (B.row g) c = selectedId K ix B p g c :=
  picked_congr hcols le_rfl (fun j hj => fillRow_of_lt (hl j hj)) c

/-- The block ids from a chunk's scores are the row's block ids. -/
theorem candidateBlockIds_fillRow (hsource : ix.isCandidateSource = true)
    (hl : ∀ j < (B.row g).len, l j = K.score (B.row g) j) :
    candidateBlockIds K.top (fillRow ix B p g l) p.request.width (B.row g).len
      ix.candidateTopkBlocks ix.candidateBlockSize = blockId K ix B p g :=
  candidateBlockIds_congr (fun _ hj => fillRow_of_source hsource hl hj) _ _ _

/-- The top-k and its masking on a chunk of rows act on each of them. -/
theorem masked_topk_row {c0 cols c : ℕ} {logits : ℕ → ℕ → α} (hc0 : c0 ≤ g) :
    (if ix.consumes then maskTopk K B c0 cols logits (topkRows K ix B c0 cols logits)
      else topkRows K ix B c0 cols logits) (g - c0) c =
      picked K ix cols (logits (g - c0)) (B.row g) c := by
  unfold picked
  split
  · simp only [maskTopk, topkRows, Nat.add_sub_cancel' hc0]
  · simp only [topkRows, Nat.add_sub_cancel' hc0]

/-- The scores that the scorer writes for a chunk. -/
theorem scorer_rows {lo hi cols : ℕ} (hlo : lo ≤ g) (hhi : g < hi) (hcols : (B.row g).len ≤ cols) :
    ∀ j < (B.row g).len, K.scorer (B.rows lo hi) cols (g - lo) j = K.score (B.row g) j := by
  intro j hj
  have hlen : (B.rows lo hi).length = hi - lo := by
    unfold Batch.rows
    rw [List.length_map, List.length_range]
  have hi' : g - lo < (B.rows lo hi).length := by omega
  have hget : (B.rows lo hi)[g - lo] = B.row g := by
    simp only [Batch.rows, List.getElem_map, List.getElem_range, Nat.add_sub_cancel' hlo]
  rw [K.scorer_eq _ cols _ j hi' (by rwa [hget]) (hj.trans_le hcols), hget]

end Row

theorem le_ceilAlign (x : ℕ) : x ≤ ceilAlign x 4 := by
  unfold ceilAlign
  omega

theorem rowsPerChunk_pos (budget cols : ℕ) : 0 < rowsPerChunk budget cols :=
  lt_max_of_lt_left Nat.one_pos

omit [OrderTop α] in
/-- The masking of a source layer, on one row. -/
theorem maskedFill_beyond {m : ℕ → ℕ → α} {r0 r1 i lo g : ℕ} {p : Place}
    (hsource : ix.isCandidateSource = true) (h0 : r0 ≤ i) (h1 : i < r1)
    (hg : lo + (i - r0) = g) :
    maskedFill m r0 r1 p.request.width (beyond B lo) i = fillRow ix B p g (m i) := by
  rw [maskedFill_of_row h0 h1]
  funext j
  unfold fillRow beyond
  rw [hg, if_pos hsource]
  simp only [decide_eq_true_eq]

omit [OrderTop α] in
/-- The masking of a consumer, on one row. -/
theorem maskedFill_published {m : ℕ → ℕ → α} {r0 r1 i off g : ℕ} {p : Place}
    (hconsume : ix.consumes = true) (h0 : r0 ≤ i) (h1 : i < r1)
    (hg : off + (i - r0) = g - p.start) :
    (maskedFill m r0 r1 p.request.width fun i j => !B.published p.index (off + i) j) i =
      fillRow ix B p g (m i) := by
  have hsource : ix.isCandidateSource = false := by
    unfold Indexer.consumes at hconsume
    simp only [Bool.and_eq_true, Bool.not_eq_true'] at hconsume
    exact hconsume.2
  rw [maskedFill_of_row h0 h1]
  funext j
  unfold fillRow
  rw [hg, hsource, if_neg Bool.false_ne_true, if_pos hconsume]
  cases B.published p.index (g - p.start) j <;> rfl

omit [OrderTop α] in
/-- A plain layer masks nothing. -/
theorem fillRow_plain {p : Place} {g : ℕ} (l : ℕ → α) (hsource : ix.isCandidateSource ≠ true)
    (hconsume : ix.consumes ≠ true) : fillRow ix B p g l = l := by
  funext j
  unfold fillRow
  rw [if_neg hsource, if_neg hconsume]
  exact ite_self _

/-! ## The unsplit path -/

section Chunk

variable {p : Place} {c0 c1 g : ℕ}

omit [OrderTop α] in
/-- The scores of a chunk of a request after the masking. -/
theorem maskScores_row {logits : ℕ → ℕ → α} (hlo : p.start + c0 ≤ g) (hhi : g < p.start + c1) :
    maskScores ix B p c0 c1 logits (g - (p.start + c0)) =
      fillRow ix B p g (logits (g - (p.start + c0))) := by
  have h1 : g - (p.start + c0) < c1 - c0 := by omega
  unfold maskScores
  by_cases hsource : ix.isCandidateSource = true
  · rw [if_pos hsource]
    exact maskedFill_beyond hsource (Nat.zero_le _) h1 (by omega)
  · rw [if_neg hsource]
    by_cases hconsume : ix.consumes = true
    · rw [if_pos hconsume]
      exact maskedFill_published hconsume (Nat.zero_le _) h1 (by omega)
    · rw [if_neg hconsume, fillRow_plain _ hsource hconsume]

/-- The row after the last one of the chunk of a request that starts at `c0`. -/
def chunkEnd (budget : ℕ) (p : Place) (c0 : ℕ) : ℕ :=
  min (c0 + rowsPerChunk budget (ceilAlign p.request.width 4)) p.request.count

theorem chunkBody_selected_of_not (st : ChunkState)
    (hg : ¬(p.start + c0 ≤ g ∧ g < p.start + chunkEnd budget p c0)) :
    (chunkBody K ix budget B p st c0).selected g = st.selected g := by
  unfold chunkBody
  dsimp only
  split
  · exact (assign_of_not_row hg).trans (assign_of_not_row hg)
  · exact assign_of_not_row hg

/-- **A chunk of a request selects the ids of its rows.** -/
theorem chunkBody_selected (st : ChunkState) (hlen : (B.row g).len ≤ p.request.width)
    (hlo : p.start + c0 ≤ g) (hhi : g < p.start + chunkEnd budget p c0) {c : ℕ}
    (hc : c < ix.indexTopk) :
    (chunkBody K ix budget B p st c0).selected g c = selectedId K ix B p g c := by
  have hcols := hlen.trans (le_ceilAlign p.request.width)
  rw [← picked_fillRow ix p hcols (scorer_rows (K := K) hlo hhi hcols) c]
  unfold chunkBody picked
  dsimp only
  unfold chunkEnd at hhi
  by_cases hconsume : ix.consumes = true
  · rw [if_pos hconsume, if_pos hconsume, assign_of_mem hlo hhi (Nat.zero_le c) hc]
    unfold maskTopk
    simp only [topkRows, maskScores_row hlo hhi, Nat.add_sub_cancel' hlo, Nat.sub_zero,
      assign_of_mem hlo hhi (Nat.zero_le c) hc]
    rfl
  · rw [if_neg hconsume, if_neg hconsume, assign_of_mem hlo hhi (Nat.zero_le c) hc, Nat.sub_zero]
    unfold topkRows
    rw [Nat.add_sub_cancel' hlo]
    rw [maskScores_row hlo hhi]
    rfl

/-- The first row of a request whose mask is published. -/
def firstPub (B : Batch R) (p : Place) : ℕ := p.request.count - B.pubRows p

theorem chunkBody_maskB_of_not (st : ChunkState) {i : ℕ}
    (hi : ¬(c0 ≤ firstPub B p + i ∧ firstPub B p + i < chunkEnd budget p c0)) :
    (chunkBody K ix budget B p st c0).maskB i = st.maskB i := by
  unfold chunkBody
  dsimp only
  split
  · refine assign_of_not_row fun h => hi ?_
    unfold firstPub chunkEnd
    omega
  · rfl

/-- **A chunk of a request of a source layer publishes the masks of its rows.** -/
theorem chunkBody_maskB (st : ChunkState) (hsource : ix.isCandidateSource = true)
    (hlen : (B.row g).len ≤ p.request.width) {i : ℕ} (hg : p.start + (firstPub B p + i) = g)
    (hlo : c0 ≤ firstPub B p + i) (hhi : firstPub B p + i < chunkEnd budget p c0) {j : ℕ}
    (hj : j < p.request.width) :
    (chunkBody K ix budget B p st c0).maskB i j = rowMask K ix B p g j := by
  have hcols := hlen.trans (le_ceilAlign p.request.width)
  have hlo' : p.start + c0 ≤ g := by omega
  have hhi' : g < p.start + chunkEnd budget p c0 := by omega
  unfold rowMask
  rw [← candidateBlockIds_fillRow hsource (scorer_rows (K := K) hlo' hhi' hcols)]
  unfold chunkBody
  dsimp only
  unfold firstPub at hg hlo hhi
  unfold chunkEnd at hhi hhi'
  rw [if_pos ⟨hsource, by omega⟩, assign_of_mem (by omega) (by omega) (Nat.zero_le j) hj,
    K.select_eq _ _ _ _ _ _ _ _ (by omega) (by omega)]
  have hrow : max c0 (p.request.count - B.pubRows p) - c0 +
      (i - (max c0 (p.request.count - B.pubRows p) - (p.request.count - B.pubRows p))) =
      g - (p.start + c0) := by omega
  have hg' : p.start + max c0 (p.request.count - B.pubRows p) +
      (i - (max c0 (p.request.count - B.pubRows p) - (p.request.count - B.pubRows p))) = g := by
    omega
  rw [hrow, hg', maskScores_row hlo' hhi', Nat.sub_zero]
  rfl

end Chunk

section Request

variable {p : Place} {g : ℕ}

/-- **The chunks of a request select the ids of its rows.** -/
theorem chunkLoop_selected (blank : ℕ → ℕ → Bool) (selected : ℕ → ℕ → ℤ)
    (hlen : (B.row g).len ≤ p.request.width) (hlo : p.start ≤ g) (hhi : g < p.stop) {c : ℕ}
    (hc : c < ix.indexTopk) :
    (chunkLoop K ix budget B blank p selected).selected g c = selectedId K ix B p g c := by
  have hstep := rowsPerChunk_pos budget (ceilAlign p.request.width 4)
  unfold Place.stop at hhi
  obtain ⟨c0, hmem, hc0⟩ := GridLoop.exists_chunk hstep (Nat.zero_le (g - p.start))
    (show g - p.start < p.request.count by omega)
  have hother : ∀ c1 ∈ chunkStarts budget p, c1 ≠ c0 → ∀ st,
      (chunkBody K ix budget B p st c1).selected g = st.selected g := by
    refine fun c1 hc1 hne st => chunkBody_selected_of_not st fun h => hne ?_
    unfold chunkEnd at h
    exact GridLoop.chunk_start_unique hstep hc1 hmem (by omega) hc0
  obtain ⟨st, -, hst⟩ := GridLoop.foldl_obs_once (fun st : ChunkState => st.selected g)
    (GridLoop.nodup_strided hstep 0) hmem hother ⟨selected, blank⟩
  refine (congrFun hst c).trans (chunkBody_selected st hlen (by omega) ?_ hc)
  unfold chunkEnd
  omega

/-- The chunks of a request change no other row. -/
theorem chunkLoop_selected_of_not (blank : ℕ → ℕ → Bool) (selected : ℕ → ℕ → ℤ)
    (hg : ¬(p.start ≤ g ∧ g < p.stop)) :
    (chunkLoop K ix budget B blank p selected).selected g = selected g := by
  refine GridLoop.foldl_obs_of_forall (fun st : ChunkState => st.selected g)
    (fun c0 _ st => chunkBody_selected_of_not st fun h => hg ?_) ⟨selected, blank⟩
  unfold chunkEnd at h
  unfold Place.stop
  omega

/-- **The chunks of a request of a source layer publish the masks of its last rows.** -/
theorem chunkLoop_maskB (blank : ℕ → ℕ → Bool) (selected : ℕ → ℕ → ℤ)
    (hsource : ix.isCandidateSource = true) (hlen : (B.row g).len ≤ p.request.width) {i : ℕ}
    (hi : i < B.pubRows p) (hpub : B.pubRows p ≤ p.request.count)
    (hg : p.start + (firstPub B p + i) = g) {j : ℕ} (hj : j < p.request.width) :
    (chunkLoop K ix budget B blank p selected).maskB i j = rowMask K ix B p g j := by
  have hstep := rowsPerChunk_pos budget (ceilAlign p.request.width 4)
  obtain ⟨c0, hmem, hc0⟩ := GridLoop.exists_chunk hstep (Nat.zero_le (firstPub B p + i))
    (show firstPub B p + i < p.request.count by unfold firstPub; omega)
  have hother : ∀ c1 ∈ chunkStarts budget p, c1 ≠ c0 → ∀ st,
      (chunkBody K ix budget B p st c1).maskB i = st.maskB i := fun c1 hc1 hne st =>
    chunkBody_maskB_of_not st fun h => hne (GridLoop.chunk_start_unique hstep hc1 hmem h hc0)
  obtain ⟨st, -, hst⟩ := GridLoop.foldl_obs_once (fun st : ChunkState => st.maskB i)
    (GridLoop.nodup_strided hstep 0) hmem hother ⟨selected, blank⟩
  exact (congrFun hst j).trans (chunkBody_maskB st hsource hlen hg hc0.1 hc0.2 hj)

theorem Batch.pubRows_le (B : Batch R) (p : Place) : B.pubRows p ≤ p.request.count := by
  unfold Batch.pubRows
  split
  · exact le_rfl
  · exact min_le_right _ _

/-- The mask of a request: the masks of its last rows. -/
def requestMask (K : Kernels R α) (ix : Indexer) (B : Batch R) (p : Place) : RowMatrix Bool :=
  if p.request.width = 0 ∨ p.request.count = 0 then emptyMask
  else toMatrix (fun i => rowMask K ix B p (p.start + (firstPub B p + i))) (B.pubRows p)
    p.request.width

/-- A row of a request without compressed positions selects nothing. -/
theorem selectedId_of_width_eq_zero (hp : p ∈ B.places) (hlo : p.start ≤ g) (hhi : g < p.stop)
    (hwidth : p.request.width = 0) {c : ℕ} (hc : c < ix.indexTopk) :
    selectedId K ix B p g c = -1 :=
  picked_of_len_eq_zero (Nat.eq_zero_of_le_zero (hwidth ▸ B.len_le p hp g hlo hhi)) hc

theorem requestBody_selected_of_not (blank : ℕ → ℕ → Bool) (st : LoopState)
    (hg : ¬(p.start ≤ g ∧ g < p.stop)) :
    (requestBody K ix budget B blank st p).selected g = st.selected g := by
  unfold requestBody
  split
  · dsimp only
    exact assign_of_not_row hg
  · exact chunkLoop_selected_of_not blank st.selected hg

/-- **A request selects the ids of its rows.** -/
theorem requestBody_selected (blank : ℕ → ℕ → Bool) (st : LoopState) (hp : p ∈ B.places)
    (hlo : p.start ≤ g) (hhi : g < p.stop) {c : ℕ} (hc : c < ix.indexTopk) :
    (requestBody K ix budget B blank st p).selected g c = selectedId K ix B p g c := by
  unfold requestBody
  split
  · next h =>
    have hcount : p.request.count ≠ 0 := by
      unfold Place.stop at hhi
      omega
    rw [selectedId_of_width_eq_zero hp hlo hhi (h.resolve_right hcount) hc]
    dsimp only
    rw [assign_of_mem hlo hhi (Nat.zero_le c) hc]
  · exact chunkLoop_selected blank st.selected (B.len_le p hp g hlo hhi) hlo hhi hc

/-- **A request of a source layer appends the mask of its last rows.** -/
theorem requestBody_publish (blank : ℕ → ℕ → Bool) (st : LoopState)
    (hsource : ix.isCandidateSource = true) (hp : p ∈ B.places) :
    (requestBody K ix budget B blank st p).publish = st.publish ++ [requestMask K ix B p] := by
  unfold requestBody requestMask
  split
  · rfl
  · refine congrArg (fun m => st.publish ++ [m]) (toMatrix_congr fun i hi j hj => ?_)
    have hpub := B.pubRows_le p
    have hrow : p.start + (firstPub B p + i) < p.stop := by
      unfold firstPub Place.stop
      omega
    exact chunkLoop_maskB blank st.selected hsource
      (B.len_le p hp _ (Nat.le_add_right _ _) hrow) hi hpub rfl hj

end Request

/-- **The unsplit path selects the ids of every row.** -/
theorem requestLoop_selected (empty : ℕ → ℕ → ℤ) (blank : ℕ → ℕ → Bool) {p : Place}
    (hp : p ∈ B.places) {g : ℕ} (hlo : p.start ≤ g) (hhi : g < p.stop) :
    (requestLoop K ix budget B empty blank).1.row g =
      (List.range ix.indexTopk).map (selectedId K ix B p g) := by
  have hother : ∀ q ∈ B.places, q ≠ p → ∀ st : LoopState,
      (requestBody K ix budget B blank st q).selected g = st.selected g := fun q hq hne st =>
    requestBody_selected_of_not blank st fun h => hne (place_unique hq hp h ⟨hlo, hhi⟩)
  obtain ⟨st, -, hst⟩ := GridLoop.foldl_obs_once (fun st : LoopState => st.selected g)
    B.nodup_places hp hother ⟨empty, []⟩
  unfold requestLoop
  rw [row_toMatrix _ (hhi.trans_le (Batch.stop_le hp))]
  refine List.map_congr_left fun c hc => (congrFun hst c).trans ?_
  exact requestBody_selected blank st hp hlo hhi (List.mem_range.mp hc)

/-- **The unsplit path of a source layer publishes the masks of every request.** -/
theorem requestLoop_masks (empty : ℕ → ℕ → ℤ) (blank : ℕ → ℕ → Bool) :
    (requestLoop K ix budget B empty blank).2 =
      if ix.isCandidateSource then some (B.places.map (requestMask K ix B)) else none := by
  unfold requestLoop
  dsimp only
  by_cases hsource : ix.isCandidateSource = true
  · rw [if_pos hsource, if_pos hsource]
    have key : ∀ (l : List Place), (∀ p ∈ l, p ∈ B.places) → ∀ st : LoopState,
        (l.foldl (requestBody K ix budget B blank) st).publish =
          st.publish ++ l.map (requestMask K ix B) := by
      intro l
      induction l with
      | nil => exact fun _ st => (List.append_nil st.publish).symm
      | cons p l ih =>
        intro hl st
        rw [List.foldl_cons, ih (fun q hq => hl q (List.mem_cons_of_mem p hq)),
          requestBody_publish blank st hsource (hl p List.mem_cons_self), List.append_assoc]
        rfl
    exact congrArg some (key B.places (fun p hp => hp) ⟨empty, []⟩)
  · rw [if_neg hsource, if_neg hsource]

/-! ## The split path -/

section Split

variable {p : Place} {g start c0 c1 : ℕ}

variable (K ix B c1) in
/-- The rows of a request in a chunk of a rank. -/
theorem splitRequest_of_not (st : SplitState α) (hstart : start ≤ c0) (hc0 : c0 ≤ g)
    (hg : ¬(p.start ≤ g ∧ g < p.stop)) :
    (splitRequest K ix B start c0 c1 st p).logits (g - c0) = st.logits (g - c0) ∧
      (splitRequest K ix B start c0 c1 st p).packed (g - start) = st.packed (g - start) := by
  unfold splitRequest
  dsimp only
  split
  · exact ⟨rfl, rfl⟩
  · split
    · dsimp only
      exact ⟨maskedFill_of_not_row (by omega), assign_of_not_row (by omega)⟩
    · split
      · dsimp only
        exact ⟨maskedFill_of_not_row (by omega), rfl⟩
      · exact ⟨rfl, rfl⟩

variable (K ix B start) in
/-- The scores of a row after its request has been masked. -/
theorem splitRequest_logits (st : SplitState α) (hlo : p.start ≤ g) (hhi : g < p.stop)
    (hc0 : c0 ≤ g) (hc1 : g < c1) :
    (splitRequest K ix B start c0 c1 st p).logits (g - c0) = fillRow ix B p g (st.logits (g - c0)) := by
  unfold splitRequest
  dsimp only
  split
  · next h =>
    have hwidth : p.request.width = 0 := h.resolve_right (by omega)
    funext j
    unfold fillRow
    rw [hwidth, if_pos (Nat.zero_le j)]
  · by_cases hsource : ix.isCandidateSource = true
    · rw [if_pos hsource]
      exact maskedFill_beyond hsource (by omega) (by omega) (by omega)
    · rw [if_neg hsource]
      by_cases hconsume : ix.consumes = true
      · rw [if_pos hconsume]
        exact maskedFill_published hconsume (by omega) (by omega) (by omega)
      · rw [if_neg hconsume, fillRow_plain _ hsource hconsume]

/-- The block ids of a row on a source layer. -/
theorem splitRequest_packed (st : SplitState α) (hsource : ix.isCandidateSource = true)
    (hlo : p.start ≤ g) (hhi : g < p.stop) (hstart : start ≤ c0) (hc0 : c0 ≤ g) (hc1 : g < c1)
    (hl : ∀ j < (B.row g).len, st.logits (g - c0) j = K.score (B.row g) j) {c : ℕ}
    (hc : c < nblocks ix p.request.width) :
    (splitRequest K ix B start c0 c1 st p).packed (g - start) (ix.indexTopk + c) =
      blockId K ix B p g c := by
  have hwidth : p.request.width ≠ 0 := by
    intro h
    unfold nblocks blockCount at hc
    rw [h, Nat.zero_add, Nat.div_eq_of_lt (Nat.sub_lt ix.block_pos Nat.one_pos)] at hc
    omega
  have hlogits := splitRequest_logits K ix B start st hlo hhi hc0 hc1
  rw [← candidateBlockIds_fillRow hsource hl, ← hlogits]
  unfold splitRequest
  dsimp only
  rw [if_neg (by omega), if_pos hsource]
  dsimp only
  rw [assign_of_mem (by omega) (by omega) (by omega) (by omega)]
  have hg : max c0 p.start + (g - start - (max c0 p.start - start)) = g := by omega
  have hi : max c0 p.start - c0 + (g - start - (max c0 p.start - start)) = g - c0 := by omega
  rw [hg, hi, Nat.add_sub_cancel_left]

/-- A chunk has no business with the rows of other chunks. -/
theorem splitRequest_packed_of_not (st : SplitState α) (hstart : start ≤ c0) (hg0 : start ≤ g)
    (hg : ¬(c0 ≤ g ∧ g < c1)) :
    (splitRequest K ix B start c0 c1 st p).packed (g - start) = st.packed (g - start) := by
  unfold splitRequest
  dsimp only
  split
  · rfl
  · split
    · dsimp only
      exact assign_of_not_row (by omega)
    · split <;> rfl

/-- The requests in a chunk of a rank, after the scorer. -/
def splitScores (K : Kernels R α) (ix : Indexer) (B : Batch R) (start c0 c1 cols : ℕ)
    (packed : ℕ → ℕ → ℤ) : SplitState α :=
  B.places.foldl (splitRequest K ix B start c0 c1) ⟨K.scorer (B.rows c0 c1) cols, packed⟩

variable (K ix) in
/-- **In a chunk of a rank every row is masked as its request says**, whatever other
requests the chunk has rows of. -/
theorem splitScores_row {cols : ℕ} (packed : ℕ → ℕ → ℤ) (hp : p ∈ B.places) (hlo : p.start ≤ g)
    (hhi : g < p.stop) (hstart : start ≤ c0) (hc0 : c0 ≤ g) (hc1 : g < c1)
    (hcols : (B.row g).len ≤ cols) :
    (splitScores K ix B start c0 c1 cols packed).logits (g - c0) =
        fillRow ix B p g (K.scorer (B.rows c0 c1) cols (g - c0)) ∧
      (ix.isCandidateSource = true → ∀ c < nblocks ix p.request.width,
        (splitScores K ix B start c0 c1 cols packed).packed (g - start) (ix.indexTopk + c) =
          blockId K ix B p g c) := by
  have hother : ∀ q ∈ B.places, q ≠ p → ∀ st : SplitState α,
      ((splitRequest K ix B start c0 c1 st q).logits (g - c0),
        (splitRequest K ix B start c0 c1 st q).packed (g - start)) =
      (st.logits (g - c0), st.packed (g - start)) := by
    intro q hq hne st
    have h := splitRequest_of_not K ix B c1 (p := q) st hstart hc0
      fun h => hne (place_unique hq hp h ⟨hlo, hhi⟩)
    rw [h.1, h.2]
  obtain ⟨st, hst, hend⟩ := GridLoop.foldl_obs_once
    (fun st : SplitState α => (st.logits (g - c0), st.packed (g - start)))
    B.nodup_places hp hother ⟨K.scorer (B.rows c0 c1) cols, packed⟩
  obtain ⟨hl, -⟩ := Prod.ext_iff.mp hst
  obtain ⟨hlogits, hpacked⟩ := Prod.ext_iff.mp hend
  dsimp only at hl hlogits hpacked
  unfold splitScores
  refine ⟨?_, fun hsource c hc => ?_⟩
  · rw [hlogits, splitRequest_logits K ix B start st hlo hhi hc0 hc1, hl]
  · rw [hpacked]
    refine splitRequest_packed st hsource hlo hhi hstart hc0 hc1 ?_ hc
    rw [hl]
    exact scorer_rows hc0 hc1 hcols

theorem splitScores_packed_of_not {cols : ℕ} (packed : ℕ → ℕ → ℤ) (hstart : start ≤ c0)
    (hg0 : start ≤ g) (hg : ¬(c0 ≤ g ∧ g < c1)) :
    (splitScores K ix B start c0 c1 cols packed).packed (g - start) = packed (g - start) :=
  GridLoop.foldl_obs_of_forall (fun st : SplitState α => st.packed (g - start))
    (fun _ _ st => splitRequest_packed_of_not st hstart hg0 hg) _

variable {stop cols : ℕ} {packed : ℕ → ℕ → ℤ}

theorem splitChunk_of_not (hstart : start ≤ c0) (hg0 : start ≤ g)
    (hg : ¬(c0 ≤ g ∧ g < min (c0 + rowsPerChunk budget cols) stop)) :
    splitChunk K ix budget B start stop cols packed c0 (g - start) = packed (g - start) := by
  unfold splitChunk
  exact (assign_of_not_row (by omega)).trans (splitScores_packed_of_not packed hstart hg0 hg)

/-- **A chunk of a rank selects the ids of its rows.** -/
theorem splitChunk_selected (hp : p ∈ B.places) (hlo : p.start ≤ g) (hhi : g < p.stop)
    (hstart : start ≤ c0) (hc0 : c0 ≤ g) (hc1 : g < min (c0 + rowsPerChunk budget cols) stop)
    (hcols : (B.row g).len ≤ cols) {c : ℕ} (hc : c < ix.indexTopk) :
    splitChunk K ix budget B start stop cols packed c0 (g - start) c =
      selectedId K ix B p g c := by
  have hrow := (splitScores_row K ix packed hp hlo hhi hstart hc0 hc1 hcols).1
  unfold splitScores at hrow
  rw [← picked_fillRow ix p hcols (scorer_rows (K := K) hc0 hc1 hcols) c, ← hrow]
  unfold splitChunk
  rw [assign_of_mem (by omega) (by omega) (Nat.zero_le c) hc, Nat.sub_zero,
    show g - start - (c0 - start) = g - c0 by omega]
  exact masked_topk_row hc0

/-- **A chunk of a rank of a source layer packs the block ids of its rows.** -/
theorem splitChunk_blocks (hsource : ix.isCandidateSource = true) (hp : p ∈ B.places)
    (hlo : p.start ≤ g) (hhi : g < p.stop) (hstart : start ≤ c0) (hc0 : c0 ≤ g)
    (hc1 : g < min (c0 + rowsPerChunk budget cols) stop) (hcols : (B.row g).len ≤ cols) {c : ℕ}
    (hc : c < nblocks ix p.request.width) :
    splitChunk K ix budget B start stop cols packed c0 (g - start) (ix.indexTopk + c) =
      blockId K ix B p g c := by
  have hrow := (splitScores_row K ix packed hp hlo hhi hstart hc0 hc1 hcols).2
    hsource c hc
  unfold splitChunk
  exact (assign_of_not_col (by omega)).trans hrow

end Split

/-! ## The parts of the ranks -/

section Lists

variable {β : Type} {f : ℕ → β} {k m n : ℕ}

theorem take_map_range (h : k ≤ n) : ((List.range n).map f).take k = (List.range k).map f := by
  rw [← List.map_take, List.take_range, Nat.min_eq_left h]

theorem take_drop_map_range (h : m ≤ n) :
    (((List.range (k + n)).map f).drop k).take m = (List.range m).map fun c => f (k + c) := by
  rw [List.range_add, List.map_append, List.drop_left' (by simp), List.map_map]
  exact take_map_range h

end Lists

theorem width_le_widthMax {r : Request} (hr : r ∈ B.requests) : r.width ≤ widthMax B :=
  List.le_max_of_le' 0 (List.mem_map_of_mem hr) le_rfl

theorem request_mem {p : Place} (hp : p ∈ B.places) : p.request ∈ B.requests :=
  (bounds_of_mem_places hp).2.2.2

theorem nblocks_le_packedBlocks (hsource : ix.isCandidateSource = true) {p : Place}
    (hp : p ∈ B.places) : nblocks ix p.request.width ≤ packedBlocks ix B := by
  unfold packedBlocks nblocks blockCount
  rw [if_pos hsource]
  have hle := width_le_widthMax (request_mem hp)
  exact min_le_min_left _ (Nat.div_le_div_right (by omega))

/-- The packed ids of a row, as the gathered matrix holds them. -/
structure PackedRow (K : Kernels R α) (ix : Indexer) (B : Batch R) (p : Place) (g : ℕ)
    (row : List ℤ) : Prop where
  selected : row.take ix.indexTopk = (List.range ix.indexTopk).map (selectedId K ix B p g)
  blocks : ix.isCandidateSource = true →
    (row.drop ix.indexTopk).take (nblocks ix p.request.width) =
      (List.range (nblocks ix p.request.width)).map (blockId K ix B p g)

variable (K ix budget) in
/-- **A rank packs the ids of its rows.** -/
theorem splitLocal_row (world rank : ℕ) (hwidth : ∃ r ∈ B.requests, r.width ≠ 0) :
    ∃ m, splitLocal K ix budget B world rank = some m ∧
      m.cols = ix.indexTopk + packedBlocks ix B ∧ m.height = partitionExtent B.numTokens world ∧
      ∀ p ∈ B.places, ∀ g, p.start ≤ g → g < p.stop →
        partitionStart B.numTokens world rank ≤ g → g < partitionEnd B.numTokens world rank →
        PackedRow K ix B p g (m.row (g - partitionStart B.numTokens world rank)) := by
  obtain ⟨r, hr, hr0⟩ := hwidth
  have hmax := width_le_widthMax hr
  have hcols := le_ceilAlign (widthMax B)
  unfold splitLocal
  dsimp only
  by_cases hrows : partitionEnd B.numTokens world rank ≤ partitionStart B.numTokens world rank
  · rw [if_pos hrows]
    refine ⟨_, rfl, rfl, height_toMatrix _ _ _, fun p _ g _ _ hg hg' => ?_⟩
    exact absurd (hg.trans_lt hg') (Nat.not_lt.mpr hrows)
  · rw [if_neg hrows, if_neg (by omega)]
    refine ⟨_, rfl, rfl, height_toMatrix _ _ _, fun p hp g hlo hhi hg hg' => ?_⟩
    have hstep := rowsPerChunk_pos budget (ceilAlign (widthMax B) 4)
    obtain ⟨c0, hmem, hc0⟩ := GridLoop.exists_chunk hstep hg hg'
    have hc0' := ((GridLoop.mem_strided hstep).mp hmem).1
    have hlen : (B.row g).len ≤ ceilAlign (widthMax B) 4 :=
      (B.len_le p hp g hlo hhi).trans ((width_le_widthMax (request_mem hp)).trans hcols)
    have hother : ∀ c1 ∈ GridLoop.strided _ (partitionEnd B.numTokens world rank) _, c1 ≠ c0 →
        ∀ packed, splitChunk K ix budget B (partitionStart B.numTokens world rank)
          (partitionEnd B.numTokens world rank) (ceilAlign (widthMax B) 4) packed c1
          (g - partitionStart B.numTokens world rank) =
            packed (g - partitionStart B.numTokens world rank) := fun c1 hc1 hne packed =>
      splitChunk_of_not ((GridLoop.mem_strided hstep).mp hc1).1 hg fun h =>
        hne (GridLoop.chunk_start_unique hstep hc1 hmem h hc0)
    obtain ⟨packed, -, hend⟩ := GridLoop.foldl_obs_once
      (fun packed : ℕ → ℕ → ℤ => packed (g - partitionStart B.numTokens world rank))
      (GridLoop.nodup_strided hstep _) hmem hother fun _ _ => -1
    have hextent : g - partitionStart B.numTokens world rank < partitionExtent B.numTokens world := by
      unfold partitionEnd at hg'
      omega
    rw [row_toMatrix _ hextent]
    refine ⟨?_, fun hsource => ?_⟩
    · rw [take_map_range (Nat.le_add_right _ _)]
      refine List.map_congr_left fun c hc => (congrFun hend c).trans ?_
      exact splitChunk_selected hp hlo hhi hc0' hc0.1 hc0.2 hlen (List.mem_range.mp hc)
    · rw [take_drop_map_range (nblocks_le_packedBlocks hsource hp)]
      refine List.map_congr_left fun c hc => (congrFun hend (ix.indexTopk + c)).trans ?_
      exact splitChunk_blocks hsource hp hlo hhi hc0' hc0.1 hc0.2 hlen (List.mem_range.mp hc)

/-! ## Gathering -/

theorem numTokens_le (rows : ℕ) {world : ℕ} (hworld : 0 < world) :
    rows ≤ world * partitionExtent rows world := by
  unfold partitionExtent
  have hpos : 0 < world * 128 := Nat.mul_pos hworld (by omega)
  have hdiv := Nat.lt_div_mul_add (a := rows + world * 128 - 1) hpos
  have hcomm : world * ((rows + world * 128 - 1) / (world * 128) * 128) =
      (rows + world * 128 - 1) / (world * 128) * (world * 128) := by ring
  omega

/-- The rank that scores a row. -/
theorem exists_rank {rows world g : ℕ} (hworld : 0 < world) (hg : g < rows) :
    g / partitionExtent rows world < world ∧
      partitionStart rows world (g / partitionExtent rows world) ≤ g ∧
      g < partitionEnd rows world (g / partitionExtent rows world) ∧
      g % partitionExtent rows world < partitionExtent rows world := by
  have hle := hg.trans_le (numTokens_le rows hworld)
  have hpos : 0 < partitionExtent rows world := by
    refine Nat.pos_of_ne_zero fun h => ?_
    rw [h, Nat.mul_zero] at hle
    exact Nat.not_lt_zero g hle
  have hdiv := Nat.div_add_mod' g (partitionExtent rows world)
  have hmod := Nat.mod_lt g hpos
  refine ⟨Nat.div_lt_of_lt_mul (Nat.mul_comm world _ ▸ hle), ?_, ?_, hmod⟩
  · unfold partitionStart
    omega
  · unfold partitionEnd partitionStart
    omega

variable (K ix budget) in
/-- **The gathered rows are the packed ids of all rows in order.** -/
theorem gathered_rows {world : ℕ} (hworld : 0 < world) (hwidth : ∃ r ∈ B.requests, r.width ≠ 0) :
    ∃ all, ((List.range world).mapM (splitLocal K ix budget B world)).bind RowMatrix.catRows =
        some all ∧
      all.cols = ix.indexTopk + packedBlocks ix B ∧ B.numTokens ≤ all.height ∧
      ∀ p ∈ B.places, ∀ g, p.start ≤ g → g < p.stop → PackedRow K ix B p g (all.row g) := by
  choose parts hsome hcols hheight hrow using fun rank =>
    splitLocal_row K ix budget world rank hwidth
  have hmap : (List.range world).mapM (splitLocal K ix budget B world) =
      some ((List.range world).map parts) := by
    rw [funext hsome]
    exact List.mapM_pure
  obtain ⟨all, hall, hallCols, hallHeight, hallRow⟩ :=
    RowMatrix.catRows_eq_some hworld (fun r _ => hheight r) (fun r _ => hcols r)
  refine ⟨all, by rw [hmap]; exact hall, hallCols, ?_, fun p hp g hlo hhi => ?_⟩
  · rw [hallHeight]
    exact numTokens_le B.numTokens hworld
  · obtain ⟨hr, hstart, hstop, hmod⟩ := exists_rank hworld (hhi.trans_le (Batch.stop_le hp))
    have hg := hallRow _ hr _ hmod
    rw [Nat.div_add_mod'] at hg
    rw [hg]
    have hpacked := hrow _ p hp g hlo hhi hstart hstop
    rwa [show g - partitionStart B.numTokens world (g / partitionExtent B.numTokens world) =
      g % partitionExtent B.numTokens world from Nat.sub_eq_of_eq_add' (Nat.div_add_mod' g _).symm] at hpacked

theorem row_takeRows {β : Type} {m : RowMatrix β} {n i : ℕ} (hi : i < n) :
    (takeRows m n).row i = m.row i := by
  unfold RowMatrix.row takeRows
  rw [List.getD_eq_getElem?_getD, List.getD_eq_getElem?_getD, List.getElem?_take_of_lt hi]

theorem height_takeRows {β : Type} {m : RowMatrix β} {n : ℕ} (hn : n ≤ m.height) :
    (takeRows m n).height = n := by
  unfold RowMatrix.height takeRows
  rw [List.length_take]
  exact Nat.min_eq_left hn

/-- The mask of a request from the gathered ids. -/
theorem splitMask_eq {gathered : RowMatrix ℤ} (hsource : ix.isCandidateSource = true) {p : Place}
    (hrow : ∀ g, p.start ≤ g → g < p.stop → PackedRow K ix B p g (gathered.row g)) :
    splitMask ix B gathered p = requestMask K ix B p := by
  unfold splitMask requestMask
  split
  · rfl
  · refine toMatrix_congr fun i hi j _ => ?_
    have hpub := B.pubRows_le p
    have hg : p.start + p.request.count - B.pubRows p + i = p.start + (firstPub B p + i) := by
      unfold firstPub
      omega
    have hpacked := (hrow (p.start + (firstPub B p + i)) (Nat.le_add_right _ _) (by
      unfold firstPub Place.stop
      omega)).blocks hsource
    rw [hg, RowMatrix.row_slice, Nat.add_sub_cancel_left, hpacked]
    rfl

/-- **The split path returns what the unsplit path returns**: the same ids for every row,
and the same masks. -/
theorem splitSelect_eq {world : ℕ} (hworld : 0 < world) (hwidth : ∃ r ∈ B.requests, r.width ≠ 0)
    (empty : ℕ → ℕ → ℤ) (blank : ℕ → ℕ → Bool) :
    splitSelect K ix budget B world = some (requestLoop K ix budget B empty blank) := by
  obtain ⟨all, hall, hcols, hheight, hrow⟩ :=
    gathered_rows K ix budget hworld hwidth
  have hgathered : ∀ p ∈ B.places, ∀ g, p.start ≤ g → g < p.stop →
      PackedRow K ix B p g ((takeRows all B.numTokens).row g) := fun p hp g hlo hhi => by
    rw [row_takeRows (hhi.trans_le (Batch.stop_le hp))]
    exact hrow p hp g hlo hhi
  have hselected : (takeRows all B.numTokens).slice 0 ix.indexTopk =
      (requestLoop K ix budget B empty blank).1 := by
    refine RowMatrix.ext_row ?_ ?_ fun g hg => ?_
    · show min ix.indexTopk all.cols - 0 = ix.indexTopk
      omega
    · rw [RowMatrix.height_slice, height_takeRows hheight]
      exact (height_toMatrix _ _ _).symm
    · rw [RowMatrix.height_slice, height_takeRows hheight] at hg
      obtain ⟨p, hp, hlo, hhi⟩ := exists_place 0 (Nat.zero_le g)
        (show g < 0 + (B.requests.map Request.count).sum by rwa [Nat.zero_add])
      rw [requestLoop_selected empty blank hp hlo hhi, RowMatrix.row_slice, List.drop_zero]
      exact (hgathered p hp g hlo hhi).selected
  have hmasks : (if ix.isCandidateSource then
        some (B.places.map (splitMask ix B (takeRows all B.numTokens))) else none) =
      (requestLoop K ix budget B empty blank).2 := by
    rw [requestLoop_masks]
    split
    · next hsource =>
      exact congrArg some (List.map_congr_left fun p hp => splitMask_eq hsource (hgathered p hp))
    · rfl
  obtain ⟨parts, hparts, hcat⟩ := Option.bind_eq_some_iff.mp hall
  unfold splitSelect
  rw [hparts]
  show (RowMatrix.catRows parts).bind _ = _
  rw [hcat]
  exact congrArg some (Prod.ext hselected hmasks)

variable (K ix budget B) in
/-- **Splitting the indexer changes nothing**: whatever the requests and their widths, the
number of ranks, the budget, the block configuration, the role of the layer and the
published tail are, the dense indexer leaves behind the same ids and the same masks, and
where there is a compressed position at all the two paths themselves agree. -/
theorem sharded_scan_exact {world : ℕ} (hworld : 0 < world) (empty : ℕ → ℕ → ℤ)
    (blank : ℕ → ℕ → Bool) :
    indexTopkDense K ix budget B (some world) empty blank =
        indexTopkDense K ix budget B none empty blank ∧
      ((∃ r ∈ B.requests, r.width ≠ 0) →
        splitSelect K ix budget B world = some (requestLoop K ix budget B empty blank)) := by
  refine ⟨?_, fun hwidth => splitSelect_eq hworld hwidth empty blank⟩
  unfold indexTopkDense
  split
  · rfl
  · next h =>
    have hwidth : ∃ r ∈ B.requests, r.width ≠ 0 := by
      by_contra hno
      refine h (Or.inl fun r hr => ?_)
      by_contra hr0
      exact hno ⟨r, hr, hr0⟩
    dsimp only
    rw [splitSelect_eq hworld hwidth empty blank]
    rfl

/-! ## Kernels that the results apply to -/

/-- The positions of the first scores, best first. -/
def bestFirst (s : ℕ → α) (n : ℕ) : List ℕ := (List.range n).insertionSort fun a b => s b ≤ s a

/-- The position that the top-k ranks at `c`. It sees the scores below the length only. -/
def bestAt (s : ℕ → α) (len c : ℕ) : Option ℕ :=
  (bestFirst (fun j => if j < len then s j else ⊥) len)[c]?

omit [OrderTop α] in
theorem bestAt_congr {s s' : ℕ → α} {len : ℕ} (h : ∀ j < len, s j = s' j) :
    bestAt s len = bestAt s' len := by
  have hs : (fun j => if j < len then s j else ⊥) = fun j => if j < len then s' j else ⊥ := by
    funext j
    split
    · next hj => exact h j hj
    · rfl
  unfold bestAt
  rw [hs]

omit [OrderTop α] in
theorem bestAt_lt {s : ℕ → α} {len c j : ℕ} (h : bestAt s len c = some j) : j < len := by
  have hmem := List.mem_of_getElem? h
  unfold bestFirst at hmem
  rwa [List.mem_insertionSort, List.mem_range] at hmem

/-- The id at rank `c` of the `len` scores after a position. -/
def bestId (s : ℕ → α) (len ks c : ℕ) : ℤ :=
  match bestAt s len c with
  | some j => (ks + j : ℕ)
  | none => -1

omit [OrderTop α] in
theorem bestId_congr {s s' : ℕ → α} {len : ℕ} (h : ∀ j < len, s j = s' j) (ks c : ℕ) :
    bestId s len ks c = bestId s' len ks c := by
  unfold bestId
  rw [bestAt_congr h]

/-- The masking keeps an id of a score above `-inf`. -/
def aboveBot (cols : ℕ) (s : ℕ → α) (ks : ℕ) (id : ℤ) : Bool :=
  decide ((ks : ℤ) ≤ id ∧ id - ks < cols) && decide (⊥ < s (id - ks).toNat)

omit [OrderTop α] in
theorem aboveBot_congr {cols cols' len : ℕ} {s s' : ℕ → α} (hcols : len ≤ cols)
    (hcols' : len ≤ cols') (h : ∀ j < len, s j = s' j) (ks c : ℕ) :
    aboveBot cols s ks (bestId s len ks c) = aboveBot cols' s' ks (bestId s len ks c) := by
  unfold bestId aboveBot
  cases hbest : bestAt s len c with
  | none =>
    have hneg : ∀ n : ℕ, ¬((ks : ℤ) ≤ -1 ∧ -1 - (ks : ℤ) < n) := fun n => by omega
    simp [hneg]
  | some j =>
    have hj := bestAt_lt hbest
    have hid : ((ks + j : ℕ) : ℤ) - ks = j := by omega
    have hrange : ∀ n : ℕ, len ≤ n → ((ks : ℤ) ≤ (ks + j : ℕ) ∧ (j : ℤ) < n) :=
      fun n hn => by omega
    dsimp only
    rw [hid, Int.toNat_natCast, h j hj, decide_eq_true (hrange cols hcols),
      decide_eq_true (hrange cols' hcols')]

/-- Kernels as the tests have them: the scorer leaves `garbage` beyond the length of a row,
the top-k sorts, and the masking keeps an id of a score above `-inf`. -/
def referenceKernels (score : Row R → ℕ → α) (garbage : α) : Kernels R α where
  scorer rows _ i j :=
    match rows[i]? with
    | some r => if j < r.len then score r j else garbage
    | none => garbage
  score := score
  scorer_eq rows cols i j hi hj _ := by
    rw [List.getElem?_eq_getElem hi]
    exact if_pos hj
  topk _ s len ks _ c := bestId s len ks c
  topk_congr _ _ s s' len ks k c _ _ h := bestId_congr h ks c
  topk_zero _ s ks k c _ := rfl
  valid := aboveBot
  valid_congr cols cols' s s' len ks k c hcols hcols' h := aboveBot_congr hcols hcols' h ks c
  top s n k c := ((bestFirst s n).take k).getD c 0
  selectCandidateBlocks _ scores lens width topkBlocks blockSize i j :=
    candidateMask ((List.range (min topkBlocks (blockCount width blockSize))).map
      (candidateBlockIds (fun s n k c => ((bestFirst s n).take k).getD c 0) (scores i) width (lens i)
        topkBlocks blockSize)) width blockSize j
  select_eq _ _ _ _ _ _ _ _ _ _ := rfl

/-- The literals of the scores below. -/
theorem scores_neZero : NeZero 8 := inferInstance

attribute [local instance] scores_neZero

/-- The least score of the samples below. -/
local instance leastScore : OrderBot (Fin 8) where
  bot := 0
  bot_le := Fin.zero_le

/-- The greatest score of the samples below. -/
local instance greatestScore : OrderTop (Fin 8) where
  top := 7
  le_top := Fin.le_last

/-- Two ranks, a request without compressed positions between two others, a source layer. -/
def sampleIndexer : Indexer := ⟨true, false, 2, 1, 2, Nat.two_pos⟩

@[inherit_doc sampleIndexer]
def sampleBatch : Batch ℕ where
  requests := [⟨3, 2⟩, ⟨0, 1⟩, ⟨4, 130⟩]
  row g := ⟨g, if g < 3 then 0 else 3, if g = 2 then 0 else 3⟩
  published _ _ _ := false
  publishRows := some fun _ => 1
  len_le := by
    intro p hp g hlo hhi
    simp only [places, List.mem_cons, List.not_mem_nil, or_false] at hp
    rcases hp with rfl | rfl | rfl <;> simp only [Place.stop] at hlo hhi ⊢ <;> split <;> omega

@[inherit_doc sampleIndexer]
def sampleKernels : Kernels ℕ (Fin 8) :=
  referenceKernels (fun r j => Fin.ofNat 8 (r.query * 3 + j * 5 + 1)) 7

theorem sharded_scan_exact_two_ranks :
    indexTopkDense sampleKernels sampleIndexer 64 sampleBatch (some 2) (fun _ _ => 0)
          (fun _ _ => true) =
        indexTopkDense sampleKernels sampleIndexer 64 sampleBatch none (fun _ _ => 0)
          (fun _ _ => true) ∧
      splitSelect sampleKernels sampleIndexer 64 sampleBatch 2 =
        some (requestLoop sampleKernels sampleIndexer 64 sampleBatch (fun _ _ => 0)
          fun _ _ => true) :=
  have h := sharded_scan_exact sampleKernels sampleIndexer 64 sampleBatch Nat.two_pos (fun _ _ => 0) fun _ _ => true
  ⟨h.1, h.2 ⟨⟨3, 2⟩, List.mem_cons_self, Nat.succ_ne_zero 2⟩⟩

end IndexerSplit
