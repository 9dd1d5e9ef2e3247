import Mathlib.Data.List.MinMax
import Mathlib.Order.BoundedOrder.Basic
import SparkTP4.GridLoop
import SparkTP4.RowMatrix

/-!
# Splitting the prefill indexer over the ranks

The dense indexer scores every query row of a prefill against the compressed positions of
the row's request and keeps the best ids. The unsplit path goes request by request, in
chunks of rows that bound the score matrix (`requestLoop`). On an eligible prefill each
rank scores a slice of the rows instead, in chunks sized by the widest request, and the
packed ids of all ranks are gathered (`splitLocal`, `splitSelect`). `indexTopkDense` is
the function that chooses between the two.

The scorer, the top-k and the top-k masking are the engine's, and so are the candidate
blocks of the unsplit path: they are the fields of `Kernels`, with what the code relies on.
-/

namespace IndexerSplit

/-! ## Tensors

A tensor of two dimensions is a function of the row and the column; what is outside its
shape is never read by the definitions below.
-/

section Tensor

variable {β : Type}

/-- `m[r0:r1, c0:c1] = v` -/
def assign (m : ℕ → ℕ → β) (r0 r1 c0 c1 : ℕ) (v : ℕ → ℕ → β) (i c : ℕ) : β :=
  if (r0 ≤ i ∧ i < r1) ∧ c0 ≤ c ∧ c < c1 then v (i - r0) (c - c0) else m i c

theorem assign_of_not_row {m v : ℕ → ℕ → β} {r0 r1 c0 c1 i : ℕ} (hi : ¬(r0 ≤ i ∧ i < r1)) :
    assign m r0 r1 c0 c1 v i = m i := by
  funext c
  exact if_neg fun h => hi h.1

theorem assign_of_not_col {m v : ℕ → ℕ → β} {r0 r1 c0 c1 i c : ℕ} (hc : ¬(c0 ≤ c ∧ c < c1)) :
    assign m r0 r1 c0 c1 v i c = m i c :=
  if_neg fun h => hc h.2

theorem assign_of_mem {m v : ℕ → ℕ → β} {r0 r1 c0 c1 i c : ℕ} (h0 : r0 ≤ i) (h1 : i < r1)
    (hc0 : c0 ≤ c) (hc1 : c < c1) : assign m r0 r1 c0 c1 v i c = v (i - r0) (c - c0) :=
  if_pos ⟨⟨h0, h1⟩, hc0, hc1⟩

/-- `m[r0:r1, :cols].masked_fill_(dead, -inf)` -/
def maskedFill [Bot β] (m : ℕ → ℕ → β) (r0 r1 cols : ℕ) (dead : ℕ → ℕ → Bool) : ℕ → ℕ → β :=
  assign m r0 r1 0 cols fun i j => if dead i j then ⊥ else m (r0 + i) j

theorem maskedFill_of_not_row [Bot β] {m : ℕ → ℕ → β} {r0 r1 cols i : ℕ} {dead : ℕ → ℕ → Bool}
    (hi : ¬(r0 ≤ i ∧ i < r1)) : maskedFill m r0 r1 cols dead i = m i :=
  assign_of_not_row hi

theorem maskedFill_of_row [Bot β] {m : ℕ → ℕ → β} {r0 r1 cols i : ℕ} {dead : ℕ → ℕ → Bool}
    (h0 : r0 ≤ i) (h1 : i < r1) : maskedFill m r0 r1 cols dead i =
      fun j => if cols ≤ j then m i j else if dead (i - r0) j then ⊥ else m i j := by
  funext j
  unfold maskedFill
  by_cases hj : cols ≤ j
  · rw [if_pos hj]
    exact assign_of_not_col fun h => absurd h.2 (Nat.not_lt.mpr hj)
  · rw [if_neg hj, assign_of_mem h0 h1 (Nat.zero_le j) (Nat.not_le.mp hj), Nat.add_sub_cancel' h0,
      Nat.sub_zero]

/-- The matrix of the first rows and columns of a tensor. -/
def toMatrix (m : ℕ → ℕ → β) (height cols : ℕ) : RowMatrix β :=
  RowMatrix.ofFn height cols (fun i => (List.range cols).map (m i)) fun i => by
    rw [List.length_map, List.length_range]

theorem height_toMatrix (m : ℕ → ℕ → β) (height cols : ℕ) :
    (toMatrix m height cols).height = height :=
  RowMatrix.height_ofFn

theorem row_toMatrix (m : ℕ → ℕ → β) {height cols i : ℕ} (hi : i < height) :
    (toMatrix m height cols).row i = (List.range cols).map (m i) :=
  RowMatrix.row_ofFn hi

/-- Tensors that agree within a shape make one matrix. -/
theorem toMatrix_congr {m m' : ℕ → ℕ → β} {height cols : ℕ}
    (h : ∀ i < height, ∀ c < cols, m i c = m' i c) :
    toMatrix m height cols = toMatrix m' height cols := by
  refine RowMatrix.ext_row rfl (by rw [height_toMatrix, height_toMatrix]) fun i hi => ?_
  rw [height_toMatrix] at hi
  rw [row_toMatrix m hi, row_toMatrix m' hi]
  exact List.map_congr_left fun c hc => h i hi c (List.mem_range.mp hc)

end Tensor

/-! ## Candidate blocks -/

section Blocks

variable {α : Type} [LinearOrder α] [OrderBot α] [OrderTop α]

/-- The number of blocks of a width: `(width + block_size - 1) // block_size`. -/
def blockCount (width blockSize : ℕ) : ℕ := (width + blockSize - 1) / blockSize

/-- The scores of a row by block: padded to whole blocks, the maximum of each, and `inf`
for the block of the newest position. -/
def blockScores (scores : ℕ → α) (width len blockSize : ℕ) (b : ℕ) : α :=
  if (b : ℤ) = ((len : ℤ) - 1) / (blockSize : ℤ) then ⊤ else
    (List.range blockSize).foldl
      (fun m i => max m (if b * blockSize + i < width then scores (b * blockSize + i) else ⊥)) ⊥

/-- `candidate_block_ids` on one row. `top scores n k` are the indices that
`scores.topk(k)` returns on a row of `n` scores. -/
def candidateBlockIds (top : (ℕ → α) → ℕ → ℕ → ℕ → ℕ) (scores : ℕ → α)
    (width len topkBlocks blockSize c : ℕ) : ℤ :=
  let n := blockCount width blockSize
  let s := blockScores scores width len blockSize
  let b := top s n (min topkBlocks n) c
  if ⊥ < s b then b else -1

/-- `candidate_mask` on one row of ids: negative ids go to a column past the blocks, and
each block is repeated for its positions. -/
def candidateMask (ids : List ℤ) (width blockSize : ℕ) (j : ℕ) : Bool :=
  let blocks := blockCount width blockSize
  let cols := ids.map fun id => if id < 0 then blocks else id.toNat
  cols.contains (j / blockSize)

/-- The ids of a row depend on the scores below the width. -/
theorem candidateBlockIds_congr {top : (ℕ → α) → ℕ → ℕ → ℕ → ℕ} {s s' : ℕ → α} {width : ℕ}
    (h : ∀ j < width, s j = s' j) (len topkBlocks blockSize : ℕ) :
    candidateBlockIds top s width len topkBlocks blockSize =
      candidateBlockIds top s' width len topkBlocks blockSize := by
  have hscores : blockScores s width len blockSize = blockScores s' width len blockSize := by
    funext b
    unfold blockScores
    have hpad : (fun i => if b * blockSize + i < width then s (b * blockSize + i) else ⊥) =
        fun i => if b * blockSize + i < width then s' (b * blockSize + i) else ⊥ := by
      funext i
      split
      · next hi => exact h _ hi
      · rfl
    exact if_congr Iff.rfl rfl (congrArg
      (fun f : ℕ → α => (List.range blockSize).foldl (fun m i => max m (f i)) ⊥) hpad)
  funext c
  unfold candidateBlockIds
  rw [hscores]

end Blocks

/-! ## The engine's kernels -/

/-- A query row: what the scorer reads of it, the offset of its keys (`ks`) and the number
of compressed positions it sees (`lens`). -/
structure Row (R : Type) where
  query : R
  ks : ℕ
  len : ℕ

/-- What an indexer layer is configured with. -/
structure Indexer where
  isCandidateSource : Bool
  usesCandidates : Bool
  indexTopk : ℕ
  candidateTopkBlocks : ℕ
  candidateBlockSize : ℕ
  block_pos : 0 < candidateBlockSize

/-- A consumer masks its scores by the published candidates. -/
def Indexer.consumes (ix : Indexer) : Bool := ix.usesCandidates && !ix.isCandidateSource

/-- The kernels of the engine. A score matrix has a number of columns of its own; no kernel
reads a row of it at or beyond the row's length. -/
structure Kernels (R α : Type) [LinearOrder α] [OrderBot α] [OrderTop α] where
  /-- `_dense_fp4_mqa_logits` over these rows, with this number of columns. -/
  scorer : List (Row R) → ℕ → ℕ → ℕ → α
  /-- The score of a row at a compressed position of its request. -/
  score : Row R → ℕ → α
  scorer_eq : ∀ rows cols i j, (hi : i < rows.length) → j < rows[i].len → j < cols →
    scorer rows cols i j = score rows[i] j
  /-- `topk_transform_ragged_v2` on one row: columns, scores, length, offset, number of ids. -/
  topk : ℕ → (ℕ → α) → ℕ → ℕ → ℕ → ℕ → ℤ
  topk_congr : ∀ cols cols' s s' len ks k c, len ≤ cols → len ≤ cols' →
    (∀ j < len, s j = s' j) → topk cols s len ks k c = topk cols' s' len ks k c
  topk_zero : ∀ cols s ks k c, c < k → topk cols s 0 ks k c = -1
  /-- Whether `mask_topk_scores` keeps an id: columns, scores, offset, id. -/
  valid : ℕ → (ℕ → α) → ℕ → ℤ → Bool
  valid_congr : ∀ cols cols' s s' len ks k c, len ≤ cols → len ≤ cols' →
    (∀ j < len, s j = s' j) → valid cols s ks (topk cols s len ks k c) =
      valid cols' s' ks (topk cols s len ks k c)
  /-- `scores.topk(k).indices` on one row of a number of scores. -/
  top : (ℕ → α) → ℕ → ℕ → ℕ → ℕ
  /-- `select_candidate_blocks` on a number of rows: scores, lengths, width, blocks, size. -/
  selectCandidateBlocks : ℕ → (ℕ → ℕ → α) → (ℕ → ℕ) → ℕ → ℕ → ℕ → ℕ → ℕ → Bool
  select_eq : ∀ n scores lens width topkBlocks blockSize i j, i < n → j < width →
    selectCandidateBlocks n scores lens width topkBlocks blockSize i j =
      candidateMask ((List.range (min topkBlocks (blockCount width blockSize))).map
        (candidateBlockIds top (scores i) width (lens i) topkBlocks blockSize)) width blockSize j

/-! ## Requests and their rows -/

/-- A request of a prefill: its compressed width (`lc`) and its number of query rows. -/
structure Request where
  width : ℕ
  count : ℕ
  deriving DecidableEq

/-- A request with its number and the first of its rows. -/
structure Place where
  index : ℕ
  start : ℕ
  request : Request
  deriving DecidableEq

/-- The row after the last one of a request. -/
def Place.stop (p : Place) : ℕ := p.start + p.request.count

/-- `offset` and the request number as both loops carry them along. -/
def places : ℕ → ℕ → List Request → List Place
  | _, _, [] => []
  | index, offset, r :: rs => ⟨index, offset, r⟩ :: places (index + 1) (offset + r.count) rs

/-- The rows of a prefill, request after request. -/
structure Batch (R : Type) where
  requests : List Request
  row : ℕ → Row R
  /-- `published_masks(…).request_masks`: request, row of the request, position. -/
  published : ℕ → ℕ → ℕ → Bool
  /-- The rows of each request that the later layers run on, when that is a tail. -/
  publishRows : Option (ℕ → ℕ)
  /-- A row sees positions of its own request only. -/
  len_le : ∀ p ∈ places 0 0 requests, ∀ g, p.start ≤ g → g < p.stop →
    (row g).len ≤ p.request.width

namespace Batch

variable {R : Type}

/-- `num_tokens`, the sum of `q_lens_cpu`. -/
def numTokens (B : Batch R) : ℕ := (B.requests.map Request.count).sum

/-- The requests as the loops enumerate them. -/
def places (B : Batch R) : List Place := IndexerSplit.places 0 0 B.requests

/-- The rows from `lo` to `hi`, as slices of the query tensors. -/
def rows (B : Batch R) (lo hi : ℕ) : List (Row R) :=
  (List.range (hi - lo)).map fun i => B.row (lo + i)

/-- The last rows of a request whose mask is published. -/
def pubRows (B : Batch R) (p : Place) : ℕ :=
  match B.publishRows with
  | none => p.request.count
  | some tail => min (tail p.index) p.request.count

end Batch

/-- `torch.zeros((0, 0))` -/
def emptyMask : RowMatrix Bool := ⟨0, [], fun _ h => absurd h List.not_mem_nil⟩

/-- `ceil_align` -/
def ceilAlign (x a : ℕ) : ℕ := (x + a - 1) / a * a

/-- The rows of a chunk whose fp32 scores fit the budget. -/
def rowsPerChunk (budget lcAligned : ℕ) : ℕ := max 1 (budget / (lcAligned * 4))

section Paths

variable {R α : Type} [LinearOrder α] [OrderBot α] [OrderTop α]
  (K : Kernels R α) (ix : Indexer) (budget : ℕ) (B : Batch R)

/-- `topk_fn(logits, lens, out_offsets=ks)` on the rows from `c0` on. -/
def topkRows (c0 cols : ℕ) (logits : ℕ → ℕ → α) (i c : ℕ) : ℤ :=
  K.topk cols (logits i) (B.row (c0 + i)).len (B.row (c0 + i)).ks ix.indexTopk c

/-- `mask_topk(logits, selected, ks)` on the rows from `c0` on. -/
def maskTopk (c0 cols : ℕ) (logits : ℕ → ℕ → α) (selected : ℕ → ℕ → ℤ) (i c : ℕ) : ℤ :=
  if K.valid cols (logits i) (B.row (c0 + i)).ks (selected i c) then selected i c else -1

/-- The positions of the rows from `lo` on that are at or beyond the row's length. -/
def beyond (lo i j : ℕ) : Bool := decide ((B.row (lo + i)).len ≤ j)

/-! ## The unsplit path -/

/-- What the loop over the chunks of a request changes. -/
structure ChunkState where
  selected : ℕ → ℕ → ℤ
  maskB : ℕ → ℕ → Bool

/-- The masking of the scores of the rows `c0` to `c1` of a request. -/
def maskScores (p : Place) (c0 c1 : ℕ) (logits : ℕ → ℕ → α) : ℕ → ℕ → α :=
  if ix.isCandidateSource then
    maskedFill logits 0 (c1 - c0) p.request.width (beyond B (p.start + c0))
  else if ix.consumes then
    maskedFill logits 0 (c1 - c0) p.request.width fun i j => !B.published p.index (c0 + i) j
  else logits

/-- One chunk of a request: the rows from `c0` of the request on. -/
def chunkBody (p : Place) (st : ChunkState) (c0 : ℕ) : ChunkState :=
  let cols := ceilAlign p.request.width 4
  let c1 := min (c0 + rowsPerChunk budget cols) p.request.count
  let r0 := p.start + c0
  let r1 := p.start + c1
  let firstPub := p.request.count - B.pubRows p
  let p0 := max c0 firstPub
  let scores := maskScores ix B p c0 c1 (K.scorer (B.rows r0 r1) cols)
  let maskB :=
    if ix.isCandidateSource ∧ p0 < c1 then
      assign st.maskB (p0 - firstPub) (c1 - firstPub) 0 p.request.width
        (K.selectCandidateBlocks (c1 - p0) (fun i => scores (p0 - c0 + i))
          (fun i => (B.row (p.start + p0 + i)).len) p.request.width
          ix.candidateTopkBlocks ix.candidateBlockSize)
    else st.maskB
  let selected := assign st.selected r0 r1 0 ix.indexTopk (topkRows K ix B r0 cols scores)
  { selected :=
      if ix.consumes then
        assign selected r0 r1 0 ix.indexTopk
          (maskTopk K B r0 cols scores fun i => selected (r0 + i))
      else selected
    maskB := maskB }

/-- `range(0, t_len, rows_per_chunk)` -/
def chunkStarts (p : Place) : List ℕ :=
  GridLoop.strided (rowsPerChunk budget (ceilAlign p.request.width 4)) p.request.count 0

/-- The chunks of a request. `blank` is what `torch.empty` leaves in the mask. -/
def chunkLoop (blank : ℕ → ℕ → Bool) (p : Place) (selected : ℕ → ℕ → ℤ) : ChunkState :=
  (chunkStarts budget p).foldl (chunkBody K ix budget B p) ⟨selected, blank⟩

/-- What the loop over the requests changes: the ids and the masks appended so far. -/
structure LoopState where
  selected : ℕ → ℕ → ℤ
  publish : List (RowMatrix Bool)

/-- One request. -/
def requestBody (blank : ℕ → ℕ → Bool) (st : LoopState) (p : Place) : LoopState :=
  if p.request.width = 0 ∨ p.request.count = 0 then
    { selected := assign st.selected p.start p.stop 0 ix.indexTopk fun _ _ => -1
      publish := st.publish ++ [emptyMask] }
  else
    let done := chunkLoop K ix budget B blank p st.selected
    { selected := done.selected
      publish := st.publish ++ [toMatrix done.maskB (B.pubRows p) p.request.width] }

/-- The unsplit path. `empty` is what `torch.empty` leaves in `selected`. The masks are
published by a source layer only. -/
def requestLoop (empty : ℕ → ℕ → ℤ) (blank : ℕ → ℕ → Bool) :
    RowMatrix ℤ × Option (List (RowMatrix Bool)) :=
  let done := B.places.foldl (requestBody K ix budget B blank) ⟨empty, []⟩
  (toMatrix done.selected B.numTokens ix.indexTopk,
    if ix.isCandidateSource then some done.publish else none)

/-! ## The split path -/

/-- `partition`: the first row of a rank, the row after its last one, and the rows of a
rank's part. -/
def partitionExtent (rows world : ℕ) : ℕ := (rows + world * 128 - 1) / (world * 128) * 128

@[inherit_doc partitionExtent]
def partitionStart (rows world rank : ℕ) : ℕ := rank * partitionExtent rows world

@[inherit_doc partitionExtent]
def partitionEnd (rows world rank : ℕ) : ℕ :=
  min rows (partitionStart rows world rank + partitionExtent rows world)

/-- `max(lengths)` -/
def widthMax : ℕ := (B.requests.map Request.width).foldr max 0

/-- The columns of the packed tensor that hold block ids. -/
def packedBlocks : ℕ :=
  if ix.isCandidateSource then
    min ix.candidateTopkBlocks (blockCount (widthMax B) ix.candidateBlockSize)
  else 0

/-- The block ids of a request. -/
def nblocks (width : ℕ) : ℕ := min ix.candidateTopkBlocks (blockCount width ix.candidateBlockSize)

/-- What the loop over the requests in a chunk of a rank changes. -/
structure SplitState (α : Type) where
  logits : ℕ → ℕ → α
  packed : ℕ → ℕ → ℤ

/-- One request in the chunk of the rows from `c0` to `c1`, on the rank whose rows start at
`start`. -/
def splitRequest (start c0 c1 : ℕ) (st : SplitState α) (p : Place) : SplitState α :=
  let lo := max c0 p.start
  let hi := min c1 p.stop
  if p.request.width = 0 ∨ hi ≤ lo then st
  else if ix.isCandidateSource then
    let logits := maskedFill st.logits (lo - c0) (hi - c0) p.request.width (beyond B lo)
    { logits := logits
      packed := assign st.packed (lo - start) (hi - start) ix.indexTopk
        (ix.indexTopk + nblocks ix p.request.width) fun i =>
          candidateBlockIds K.top (logits (lo - c0 + i)) p.request.width (B.row (lo + i)).len
            ix.candidateTopkBlocks ix.candidateBlockSize }
  else if ix.consumes then
    { st with
      logits := maskedFill st.logits (lo - c0) (hi - c0) p.request.width fun i j =>
        !B.published p.index (lo - p.start + i) j }
  else st

/-- One chunk of a rank: the rows from `c0` on. -/
def splitChunk (start stop cols : ℕ) (packed : ℕ → ℕ → ℤ) (c0 : ℕ) : ℕ → ℕ → ℤ :=
  let c1 := min (c0 + rowsPerChunk budget cols) stop
  let st := B.places.foldl (splitRequest K ix B start c0 c1)
    ⟨K.scorer (B.rows c0 c1) cols, packed⟩
  let selected := topkRows K ix B c0 cols st.logits
  let selected := if ix.consumes then maskTopk K B c0 cols st.logits selected else selected
  assign st.packed (c0 - start) (c1 - start) 0 ix.indexTopk selected

/-- `_split_local`: the packed ids of the rows of one rank. There is no result where the
chunk size divides by a width of zero. -/
def splitLocal (world rank : ℕ) : Option (RowMatrix ℤ) :=
  let start := partitionStart B.numTokens world rank
  let stop := partitionEnd B.numTokens world rank
  let extent := partitionExtent B.numTokens world
  let packed : ℕ → ℕ → ℤ := fun _ _ => -1
  let cols := ceilAlign (widthMax B) 4
  if stop ≤ start then some (toMatrix packed extent (ix.indexTopk + packedBlocks ix B))
  else if cols = 0 then none
  else
    let done := (GridLoop.strided (rowsPerChunk budget cols) stop start).foldl
      (splitChunk K ix budget B start stop cols) packed
    some (toMatrix done extent (ix.indexTopk + packedBlocks ix B))

/-- The first rows of a matrix, `m[:n]`. -/
def takeRows {β : Type} (m : RowMatrix β) (n : ℕ) : RowMatrix β :=
  ⟨m.cols, m.rows.take n, fun row h => m.length_row row (List.mem_of_mem_take h)⟩

/-- The mask of a request, from the gathered ids. -/
def splitMask (gathered : RowMatrix ℤ) (p : Place) : RowMatrix Bool :=
  if p.request.width = 0 ∨ p.request.count = 0 then emptyMask
  else
    let ids := gathered.slice ix.indexTopk (ix.indexTopk + nblocks ix p.request.width)
    let pub := B.pubRows p
    toMatrix (fun i => candidateMask (ids.row (p.start + p.request.count - pub + i))
      p.request.width ix.candidateBlockSize) pub p.request.width

/-- `_split_select` on `world` ranks. -/
def splitSelect (world : ℕ) : Option (RowMatrix ℤ × Option (List (RowMatrix Bool))) := do
  let parts ← (List.range world).mapM (splitLocal K ix budget B world)
  let all ← RowMatrix.catRows parts
  let gathered := takeRows all B.numTokens
  let masks := if ix.isCandidateSource then some (B.places.map (splitMask ix B gathered)) else none
  pure (gathered.slice 0 ix.indexTopk, masks)

/-! ## The dense indexer -/

/-- What `_low_ratio_index_topk_dense` leaves behind: the selected ids, which it turns into
page indices, and the candidate masks of a source layer. -/
structure Outcome where
  selected : Option (RowMatrix ℤ)
  masks : Option (List (RowMatrix Bool))

/-- `_low_ratio_index_topk_dense`. `split` is the number of ranks on an eligible prefill.
A prefill without rows or without compressed positions selects nothing. -/
def indexTopkDense (split : Option ℕ) (empty : ℕ → ℕ → ℤ) (blank : ℕ → ℕ → Bool) :
    Option Outcome :=
  if (∀ r ∈ B.requests, r.width = 0) ∨ B.numTokens = 0 then
    some ⟨none, if ix.isCandidateSource then some (B.requests.map fun _ => emptyMask) else none⟩
  else
    match split with
    | some world => (splitSelect K ix budget B world).map fun r => ⟨some r.1, r.2⟩
    | none =>
      let r := requestLoop K ix budget B empty blank
      some ⟨some r.1, r.2⟩

end Paths

end IndexerSplit
