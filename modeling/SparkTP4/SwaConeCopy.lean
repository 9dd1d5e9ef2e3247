import SparkTP4.RowCopy
import SparkTP4.SwaConePlan

/-!
# The copy of a cone replay

The forward side of `adapter/swa_cone.py`. Before the forward, the resident pages of every
replay are copied into the fresh pages of its rows, in every buffer that the pool addresses by
full page id (`replayCopy`). The rows of the replays are floored at their `s`
(`floorVector`), and what they would write to the compressed pools goes to slot 0
(`maskCompressorWrites`).

A buffer is a list of rows of bytes, and the memory of the pool gives the rows of every buffer.
The writes of the forward are those of the engine: any list of stores, in any order, each to
the slot that `c1_out_loc` or `c2_out_loc` names for its row. How a slot lies in the row of a
buffer is a parameter. Row offsets are sums of extend lengths and therefore not negative.
-/

namespace SwaCone

/-! ## The pool -/

/-- A compressed pool: its page size, and the number of its buffers. -/
structure LayerPool where
  pageSize : ℕ
  buffers : ℕ

/-- What `full_page_buffers` reads of a pool. The keys of its dictionaries are the ratios. -/
structure KvPool where
  unifiedKv : Bool
  requestWindow : Bool
  pageSize : ℕ
  kvPools : List (ℕ × Option LayerPool)
  indexPools : List (ℕ × LayerPool)
  kvKeys : (kvPools.map Prod.fst).Nodup
  indexKeys : (indexPools.map Prod.fst).Nodup

/-- A buffer of a pool, by the ratio and the number of the buffer. -/
inductive Buffer where
  | kv (ratio layer : ℕ)
  | index (ratio layer : ℕ)
deriving DecidableEq

variable {Byte : Type}

/-- A row of a buffer. -/
abbrev PoolRow (Byte : Type) : Type := ℕ → Byte

/-- The rows of every buffer. -/
abbrev PoolMem (Byte : Type) : Type := Buffer → List (PoolRow Byte)

/-- The rows of a full page in the index pool of a ratio; none where the assertion fails. -/
def indexPer (page ratio : ℕ) (ipool : LayerPool) : Option ℕ :=
  if ratio = 1 ∨ ratio = 2 then
    let slots := page / ratio
    if ipool.pageSize = 0 ∨ slots % ipool.pageSize ≠ 0 then none
    else some (slots / ipool.pageSize)
  else some 1

/-- The buffers of the latents: one row for each page. -/
def kvBuffers (pool : KvPool) : List (Buffer × ℕ) :=
  pool.kvPools.flatMap fun (ratio, kvPool) =>
    match kvPool with
    | none => []
    | some kvPool => (List.range kvPool.buffers).map fun i => (.kv ratio i, 1)

/-- The buffers of the index keys. -/
def indexBuffers (page : ℕ) : List (ℕ × LayerPool) → Option (List (Buffer × ℕ))
  | [] => some []
  | (ratio, ipool) :: pools => do
    let per ← indexPer page ratio ipool
    let out ← indexBuffers page pools
    some ((List.range ipool.buffers).map (fun i => (.index ratio i, per)) ++ out)

/-- `full_page_buffers` -/
def fullPageBuffers (pool : KvPool) : Option (List (Buffer × ℕ)) :=
  if pool.unifiedKv || pool.requestWindow then none
  else do
    let out ← indexBuffers pool.pageSize pool.indexPools
    some (kvBuffers pool ++ out)

/-! ## The copy -/

/-- The rows of pages in a buffer of `per` rows for each page. -/
def fullRows (per : ℕ) (pages : List ℤ) : List ℤ :=
  if per = 1 then pages else RowCopy.blockRows per pages

/-- `copy_full_pages` for one buffer. -/
def copyBuffer (srcPages dstPages : List ℤ) (mem : PoolMem Byte) (buf : Buffer × ℕ) :
    Option (PoolMem Byte) := do
  let rows ← RowCopy.copy (mem buf.1) (fullRows buf.2 srcPages) (fullRows buf.2 dstPages)
  some (Function.update mem buf.1 rows)

/-- `copy_full_pages` -/
def copyFullPages (buffers : List (Buffer × ℕ)) (srcPages dstPages : List ℤ)
    (mem : PoolMem Byte) : Option (PoolMem Byte) :=
  if srcPages.isEmpty then some mem
  else buffers.foldlM (copyBuffer srcPages dstPages) mem

/-- `xs[start:stop:step]` -/
def stepSlice (xs : List ℤ) (start stop step : ℕ) : List ℤ :=
  (List.range ((min stop xs.length - start + step - 1) / step)).filterMap fun k =>
    xs[start + k * step]?

/-- `replay_copy` for one entry. -/
def copyEntry (buffers : List (Buffer × ℕ)) (page : ℕ) (outCacheLoc : List ℤ)
    (mem : PoolMem Byte) (e : ConeEntry) : Option (PoolMem Byte) :=
  let dst := (stepSlice outCacheLoc e.start.toNat (e.start + e.n).toNat page).map
    fun slot => Int.fdiv slot page
  if dst.length = e.srcPages.length then copyFullPages buffers e.srcPages dst mem else none

/-- `replay_copy` -/
def replayCopy (pool : KvPool) (cone : ConeBatch) (outCacheLoc : List ℤ) (mem : PoolMem Byte) :
    Option (PoolMem Byte) := do
  let buffers ← fullPageBuffers pool
  cone.entries.foldlM (copyEntry buffers cone.page.toNat outCacheLoc) mem

/-! ## Floor and mask -/

/-- `xs[start:stop] = v` -/
def fillSlice (xs : List ℤ) (start stop : ℕ) (v : ℤ) : List ℤ :=
  xs.mapIdx fun i x => if start ≤ i ∧ i < stop then v else x

/-- `floor_vector` -/
def floorVector (cone : ConeBatch) (paddedRows : ℕ) : List ℤ :=
  cone.entries.foldl (fun floor e => fillSlice floor e.start.toNat (e.start + e.ext).toNat e.s)
    (List.replicate paddedRows 0)

/-- The slot vectors of the compressed pools, none where the metadata have none. -/
structure CoreMetadata where
  c1OutLoc : Option (List ℤ)
  c2OutLoc : Option (List ℤ)

/-- The mask of one entry. -/
def maskEntry (core : CoreMetadata) (e : ConeEntry) : CoreMetadata where
  c1OutLoc := core.c1OutLoc.map fun loc => fillSlice loc e.start.toNat (e.start + e.n).toNat 0
  c2OutLoc := core.c2OutLoc.map fun loc => fillSlice loc e.start.toNat (e.start + e.n).toNat 0

/-- `mask_compressor_writes` -/
def maskCompressorWrites (core : CoreMetadata) (cone : ConeBatch) : CoreMetadata :=
  cone.entries.foldl maskEntry core

/-! ## The forward -/

/-- The ratio of a buffer. -/
def Buffer.ratio : Buffer → ℕ
  | .kv ratio _ => ratio
  | .index ratio _ => ratio

/-- The slot vector of a ratio. -/
def CoreMetadata.outLoc (core : CoreMetadata) (ratio : ℕ) : Option (List ℤ) :=
  if ratio = 1 then core.c1OutLoc else if ratio = 2 then core.c2OutLoc else none

/-- The slot that a row writes in a buffer; a row without a slot writes slot 0. -/
def CoreMetadata.slot (core : CoreMetadata) (buf : Buffer) (row : ℕ) : Option ℕ :=
  ((core.outLoc buf.ratio).bind fun loc => loc[row]?).map Int.toNat

/-- The slots of one row of a buffer: the page size of its pool. -/
def KvPool.rowSlots (pool : KvPool) : Buffer → Option ℕ
  | .kv ratio layer => ((pool.kvPools.lookup ratio).bind id).bind fun p =>
      if layer < p.buffers then some p.pageSize else none
  | .index ratio layer => (pool.indexPools.lookup ratio).bind fun p =>
      if layer < p.buffers then some p.pageSize else none

/-- A store of the forward: the latent or the index key of a row of the batch. -/
structure Store (Payload : Type) where
  buf : Buffer
  row : ℕ
  payload : Payload

variable {Payload : Type}

/-- One store. `put` writes a payload into a slot of a row of the buffer. -/
def storeRow (pool : KvPool) (core : CoreMetadata)
    (put : Buffer → ℕ → Payload → PoolRow Byte → PoolRow Byte) (mem : PoolMem Byte)
    (w : Store Payload) : PoolMem Byte :=
  match core.slot w.buf w.row, pool.rowSlots w.buf with
  | some slot, some slots =>
    Function.update mem w.buf
      ((mem w.buf).modify (slot / slots) (put w.buf (slot % slots) w.payload))
  | _, _ => mem

/-- The stores of a forward. -/
def forwardStores (pool : KvPool) (core : CoreMetadata)
    (put : Buffer → ℕ → Payload → PoolRow Byte → PoolRow Byte) (stores : List (Store Payload))
    (mem : PoolMem Byte) : PoolMem Byte :=
  stores.foldl (storeRow pool core put) mem

end SwaCone
