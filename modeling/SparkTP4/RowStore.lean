import SparkTP4.ByteFile
import SparkTP4.Transition
import Mathlib.Logic.Function.Basic

/-!
# The Engram row store

`adapter/row_store.cpp` serves rows of an immutable table – 256 bytes of
weight and 8 bytes of scale per row, in two extents of one checkpoint file –
through a bounded set-associative cache and a shared thread pool. This file
is the store as the source has it: opening it over a file, the four ways a
missed row is read (directly, with the scales from a shard pinned in RAM,
from a repacked shard, or from the file mapped whole), the cache with its
round-robin replacement, the calls that own a range of rows, pin its scales
and attach a repacked shard, and the pool's threads, whose `fetch_row` is
three separate critical sections: the probe under the set lock, the read
outside it, and the fill under it again.

A call to `fail` aborts the process; it is the absence of a next state here.
A read transfers as many bytes as the device hands over, so every read takes
that number from the action. The statistics counters and the NVMe keepalive
thread have no part in a served row.
-/

namespace RowStore

/-- `kRowBytes`: 256 B weight and 8 B scale. -/
abbrev rowBytes : ℕ := 264

/-- `kWeightBytes`. -/
abbrev weightBytes : ℕ := 256

/-- `kScaleBytes`. -/
abbrev scaleBytes : ℕ := 8

/-- `kPage`. -/
abbrev page : ℕ := 4096

/-- `kPackedHeader`, which keeps row 0 page-aligned. -/
abbrev packedHeader : ℕ := 4096

/-- `kPackedMagic`, "DSV41EN1". -/
abbrev packedMagic : ℕ := 0x31344e4531565344

/-- A table inside a checkpoint file: the extents of its weights and of its
scales lie in the file. -/
structure Table where
  /-- The checkpoint file's content. -/
  file : Bytes
  /-- The number of rows. -/
  rows : ℕ
  /-- Where the weights start. -/
  weightOffset : ℕ
  /-- Where the scales start. -/
  scaleOffset : ℕ
  weightsFit : weightOffset + rows * weightBytes ≤ file.length
  scalesFit : scaleOffset + rows * scaleBytes ≤ file.length

/-- The two parts of a served row. -/
structure Row where
  /-- The 256 bytes written to `work->weights`. -/
  weights : Bytes
  /-- The 8 bytes written to `work->scales`. -/
  scales : Bytes
deriving DecidableEq

/-- The row of an id outside the owned range. -/
def Row.zero : Row := ⟨List.replicate weightBytes 0, List.replicate scaleBytes 0⟩

namespace Table

/-- The weight bytes of a row. -/
def weight (T : Table) (id : ℕ) : Bytes :=
  T.file.slice (T.weightOffset + id * weightBytes) weightBytes

/-- The scale bytes of a row. -/
def scale (T : Table) (id : ℕ) : Bytes :=
  T.file.slice (T.scaleOffset + id * scaleBytes) scaleBytes

/-- The 264 bytes of a row, weight and scale adjacent. -/
def record (T : Table) (id : ℕ) : Bytes := T.weight id ++ T.scale id

/-- What a lookup of `id` must give when the rows `[lo, hi)` are owned. -/
def owned (T : Table) (lo hi id : ℕ) : Row :=
  if lo ≤ id ∧ id < hi then ⟨T.weight id, T.scale id⟩ else Row.zero

/-- A row's weight bytes all exist. -/
theorem length_weight (T : Table) {id : ℕ} (h : id < T.rows) :
    (T.weight id).length = weightBytes := by
  have hmul : id * weightBytes + weightBytes ≤ T.rows * weightBytes := by
    rw [← Nat.succ_mul]
    exact Nat.mul_le_mul_right _ h
  have hfit := T.weightsFit
  exact Bytes.length_slice_of_le (by omega)

/-- A row's scale bytes all exist. -/
theorem length_scale (T : Table) {id : ℕ} (h : id < T.rows) :
    (T.scale id).length = scaleBytes := by
  have hmul : id * scaleBytes + scaleBytes ≤ T.rows * scaleBytes := by
    rw [← Nat.succ_mul]
    exact Nat.mul_le_mul_right _ h
  have hfit := T.scalesFit
  exact Bytes.length_slice_of_le (by omega)

/-- A record has `kRowBytes` bytes. -/
theorem length_record (T : Table) {id : ℕ} (h : id < T.rows) :
    (T.record id).length = rowBytes := by
  rw [record, List.length_append, T.length_weight h, T.length_scale h, weightBytes, scaleBytes]

end Table

/-- The row cache: `sets * ways` slots with their keys (`id + 1`, or 0 for a
free slot) and 264-byte rows, and one replacement cursor per set. -/
structure Cache where
  keys : ℕ → ℕ
  data : ℕ → Bytes
  victim : ℕ → ℕ

/-- The freshly mapped cache. -/
def Cache.empty : Cache := ⟨fun _ => 0, fun _ => [], fun _ => 0⟩

/-- The fill of one slot: the row and its key are stored, and the cursor of
the set moves on. -/
def Cache.put (c : Cache) (set slot key ways : ℕ) (row : Bytes) : Cache where
  keys := Function.update c.keys slot key
  data := Function.update c.data slot row
  victim := Function.update c.victim set ((c.victim set + 1) % ways)

/-- `struct Store`. -/
structure Store where
  table : Table
  rowLo : ℕ
  rowHi : ℕ
  sets : ℕ
  ways : ℕ
  cache : Cache
  /-- `OFFLOAD_MODE=ram`: the whole file is mapped. -/
  resident : Bool
  /-- The pinned scale rows of the owned range. -/
  scales : Option Bytes
  /-- The content of the repacked shard behind `packed_fd`. -/
  packed : Option Bytes

/-- The extent check of `row_store_open`: `rows` records of `size` bytes from
`off` on lie in the file. -/
theorem extent_fits {length off rows size : ℕ} (hoff : off ≤ length)
    (hrows : rows ≤ (length - off) / size) : off + rows * size ≤ length := by
  have hmul := Nat.le_trans (Nat.mul_le_mul_right size hrows) (Nat.div_mul_le_self _ _)
  omega

/-- `row_store_open(path, rows, woff, soff, budget)` over a file, with the
environment's `OFFLOAD_MODE` and `DSV41_CACHE_WAYS`; `none` when the table
does not fit in the file. -/
def rowStoreOpen (file : Bytes) (rows woff soff budget : ℕ) (ram : Bool) (cacheWays : ℕ) :
    Option Store :=
  if h : woff > file.length ∨ soff > file.length ∨ rows > (file.length - woff) / weightBytes ∨
      rows > (file.length - soff) / scaleBytes then none
  else
    let budget := if ram then 0 else budget
    let ways := max 1 (min 16 cacheWays)
    some
      { table := ⟨file, rows, woff, soff, extent_fits (by omega) (by omega),
          extent_fits (by omega) (by omega)⟩
        rowLo := 0
        rowHi := rows
        sets := budget / ((rowBytes + 8) * ways + 1)
        ways := ways
        cache := Cache.empty
        resident := ram
        scales := none
        packed := none }

/-- `read_from`: a page-aligned read around the extent, from which the
extent is copied out; from the mapped file when it is resident. A read that
does not reach the extent's end fails. -/
def readFrom (resident : Bool) (file : Bytes) (offset length got : ℕ) : Option Bytes :=
  if resident then some (file.slice offset length)
  else
    let base := offset / page * page
    let delta := offset - base
    let requested := (delta + length + page - 1) / page * page
    let buffer := file.pread base requested got
    if buffer.length < delta + length then none else some (buffer.slice delta length)

/-- The set an id belongs to. -/
def Store.set (s : Store) (id : ℕ) : ℕ := if s.sets = 0 then 0 else id % s.sets

/-- The probe of `fetch_row`, under the set lock: the way that holds the
row, if any. -/
def Store.probe (s : Store) (id : ℕ) : Option Bytes :=
  let base := s.set id * s.ways
  if s.sets = 0 then none
  else ((List.range s.ways).find? (fun w => s.cache.keys (base + w) == id + 1)).map
    (fun w => s.cache.data (base + w))

/-- The read of `fetch_row`, outside the lock: one read of the repacked
shard, or one of the weights and then the pinned scales or a second read.
`got` and `got'` are the bytes the two reads transfer. -/
def Store.readRow (s : Store) (id got got' : ℕ) : Option Bytes :=
  match s.packed with
  | some shard => readFrom false shard (packedHeader + (id - s.rowLo) * rowBytes) rowBytes got
  | none =>
    (readFrom s.resident s.table.file (s.table.weightOffset + id * weightBytes)
      weightBytes got).bind fun weight =>
    match s.scales with
    | some pinned => some (weight ++ pinned.slice ((id - s.rowLo) * scaleBytes) scaleBytes)
    | none =>
      (readFrom s.resident s.table.file (s.table.scaleOffset + id * scaleBytes)
        scaleBytes got').map fun scale => weight ++ scale

/-- The fill of `fetch_row`, under the set lock: the row replaces the way
the set's cursor points at, and the cursor moves on. -/
def Store.fill (s : Store) (id : ℕ) (row : Bytes) : Store :=
  let set := s.set id
  let slot := set * s.ways + s.cache.victim set % s.ways
  if s.sets = 0 then s else { s with cache := s.cache.put set slot (id + 1) s.ways row }

/-! ## Pinning the scales -/

/-- The loop of `pin_scales` from `offset` on, over the bytes that the
successive reads transfer: each read's overlap with the wanted extent
`[start, stop)` is copied to its place. A read of nothing (or a failed one,
which ends the list) gives the buffer up. -/
def pinLoop (file : Bytes) (start stop : ℕ) : List ℕ → ℕ → Bytes → Option Bytes
  | gots, offset, out =>
    if stop ≤ offset then some out
    else
      match gots with
      | [] => none
      | got :: gots =>
        let want := min (8 <<< 20) ((stop - offset + page - 1) / page * page)
        let buffer := file.pread offset want got
        if buffer.length = 0 then none
        else
          let lo := max offset start
          let hi := min (offset + buffer.length) stop
          let out := if lo < hi then out.splice (lo - start) (buffer.slice (lo - offset) (hi - lo))
            else out
          pinLoop file start stop gots (offset + buffer.length) out

/-- `pin_scales`: the owned scale rows as one buffer, or `none` when the
range is empty, memory is refused (`gots` is `none`) or a read fails. -/
def pinScales (T : Table) (resident : Bool) (lo hi : ℕ) (gots : Option (List ℕ)) : Option Bytes :=
  let bytes := (hi - lo) * scaleBytes
  let start := T.scaleOffset + lo * scaleBytes
  if hi - lo = 0 then none
  else
    match gots with
    | none => none
    | some gots =>
      if resident then some (T.file.slice start bytes)
      else pinLoop T.file start (start + bytes) gots (start / page * page)
        (List.replicate bytes 0)

/-! ## The calls -/

/-- `row_store_range(s, lo, hi)`, with the flag `DSV41_RESIDENT_SCALES` and
what pinning meets: it takes the range over, unless a scale shard is pinned
for another one, and pins the scales. -/
def rowStoreRange (s : Store) (lo hi : ℕ) (residentScales : Bool) (gots : Option (List ℕ)) :
    Option Store :=
  if lo > hi ∨ hi > s.table.rows then none
  else if s.scales.isSome ∧ (lo ≠ s.rowLo ∨ hi ≠ s.rowHi) then none
  else
    let s := { s with rowLo := lo, rowHi := hi }
    if s.scales = none ∧ lo < hi ∧ residentScales then
      some { s with scales := pinScales s.table s.resident lo hi gots }
    else some s

/-- The header fields of a repacked shard, at their offsets. -/
def headerMagic (shard : Bytes) : ℕ := shard.le64 0

/-- The header's `layer`. -/
def headerLayer (shard : Bytes) : ℕ := shard.le64 8

/-- The header's `lo`. -/
def headerLo (shard : Bytes) : ℕ := shard.le64 16

/-- The header's `hi`. -/
def headerHi (shard : Bytes) : ℕ := shard.le64 24

/-- The header's `rows`. -/
def headerRows (shard : Bytes) : ℕ := shard.le64 32

/-- The header's `row_bytes`. -/
def headerRowBytes (shard : Bytes) : ℕ := shard.le64 40

/-- `row_store_attach_packed(s, path, layer_id)`: a missing file is declined
(the call returns 0); a present one must carry the header of this rank's
range and be long enough for its rows, or the process aborts. `got` is what
the read of the header transfers. -/
def rowStoreAttachPacked (s : Store) (file : Option Bytes) (layerId got : ℕ) :
    Option (Store × Bool) :=
  match file with
  | none => some (s, false)
  | some shard =>
    let header := shard.pread 0 page got
    if header.length < page then none
    else if headerMagic header ≠ packedMagic ∨ headerLayer header ≠ layerId ∨
        headerLo header ≠ s.rowLo ∨ headerHi header ≠ s.rowHi ∨
        headerRows header ≠ s.table.rows ∨ headerRowBytes header ≠ rowBytes then none
    else if shard.length < packedHeader + (headerHi header - headerLo header) * rowBytes then none
    else some ({ s with packed := some shard }, true)

/-! ## Lookups on the pool -/

/-- Where a thread stands in `fetch_row` for the entry `index` of the work,
whose id is `id`. -/
inductive Phase where
  | idle
  | probing (index id : ℕ)
  | reading (index id : ℕ)
  | filling (index id : ℕ) (row : Bytes)
deriving DecidableEq

/-- The store, the work being served and the threads serving it. -/
structure Machine (threads : ℕ) where
  store : Store
  /-- `work->ids`. -/
  ids : List ℤ
  /-- The pool's ticket counter `next_`; a ticket is one id (`kChunk` is 1). -/
  next : ℕ
  phase : Fin threads → Phase
  /-- The rows written so far, by entry. -/
  out : ℕ → Option Row

/-- What can happen next: a host call, or a thread's next critical section.
The numbers of a read are the bytes it transfers. -/
inductive Action (threads : ℕ) where
  | range (lo hi : ℕ) (residentScales : Bool) (gots : Option (List ℕ))
  | attachPacked (file : Option Bytes) (layerId got : ℕ)
  | lookup (ids : List ℤ)
  | take (t : Fin threads)
  | probe (t : Fin threads)
  | read (t : Fin threads) (got got' : ℕ)
  | fill (t : Fin threads)

namespace Machine

variable {threads : ℕ}

/-- The machine over a store before any lookup. -/
def init (threads : ℕ) (s : Store) : Machine threads :=
  ⟨s, [], 0, fun _ => .idle, fun _ => none⟩

/-- No lookup is running: every ticket is taken and every thread has left
`drain`, which is what `Pool::run` waits for. -/
def quiescent (m : Machine threads) : Prop :=
  m.ids.length ≤ m.next ∧ ∀ t, m.phase t = .idle

instance (m : Machine threads) : Decidable m.quiescent :=
  inferInstanceAs (Decidable (_ ∧ _))

/-- Thread `t` moves on to phase `p`. -/
def goto (m : Machine threads) (t : Fin threads) (p : Phase) : Machine threads :=
  { m with phase := Function.update m.phase t p }

/-- The row of entry `index` is copied out. -/
def write (m : Machine threads) (index : ℕ) (row : Row) : Machine threads :=
  { m with out := Function.update m.out index (some row) }

section Updates

variable (m : Machine threads) (t : Fin threads) (p : Phase) (index : ℕ) (row : Row)

@[simp] theorem goto_store : (m.goto t p).store = m.store := rfl
@[simp] theorem goto_ids : (m.goto t p).ids = m.ids := rfl
@[simp] theorem goto_next : (m.goto t p).next = m.next := rfl
@[simp] theorem goto_out : (m.goto t p).out = m.out := rfl
@[simp] theorem goto_phase_self : (m.goto t p).phase t = p := Function.update_self ..
@[simp] theorem write_store : (m.write index row).store = m.store := rfl
@[simp] theorem write_ids : (m.write index row).ids = m.ids := rfl
@[simp] theorem write_next : (m.write index row).next = m.next := rfl
@[simp] theorem write_phase : (m.write index row).phase = m.phase := rfl
@[simp] theorem write_out_self : (m.write index row).out index = some row :=
  Function.update_self ..

variable {t index}

theorem goto_phase_of_ne {t' : Fin threads} (h : t' ≠ t) : (m.goto t p).phase t' = m.phase t' :=
  Function.update_of_ne h ..

theorem write_out_of_ne {i : ℕ} (h : i ≠ index) : (m.write index row).out i = m.out i :=
  Function.update_of_ne h ..

end Updates

/-- The copy at the end of `serve`: the weight and the scale part of the
fetched row. -/
def split (row : Bytes) : Row := ⟨row.take weightBytes, row.drop weightBytes⟩

/-- A thread claims the next ticket and starts on its id: out-of-bounds ids
abort, ids of other ranks are served as zeros, an owned id is probed for. -/
def take (m : Machine threads) (t : Fin threads) : Option (Machine threads) :=
  match m.phase t, m.ids[m.next]? with
  | .idle, some id =>
    let m' := { m with next := m.next + 1 }
    if id < 0 ∨ m.store.table.rows ≤ id.toNat then none
    else if id.toNat < m.store.rowLo ∨ m.store.rowHi ≤ id.toNat then
      some (m'.write m.next Row.zero)
    else some (m'.goto t (.probing m.next id.toNat))
  | _, _ => none

/-- A thread probes the cache: a hit is copied out, a miss is read. -/
def probe (m : Machine threads) (t : Fin threads) : Option (Machine threads) :=
  match m.phase t with
  | .probing index id =>
    match m.store.probe id with
    | some row => some ((m.write index (split row)).goto t .idle)
    | none => some (m.goto t (.reading index id))
  | _ => none

/-- A thread reads the row it missed. -/
def read (m : Machine threads) (t : Fin threads) (got got' : ℕ) : Option (Machine threads) :=
  match m.phase t with
  | .reading index id =>
    (m.store.readRow id got got').map fun row => m.goto t (.filling index id row)
  | _ => none

/-- A thread fills the cache with the row it read and copies it out. -/
def fill (m : Machine threads) (t : Fin threads) : Option (Machine threads) :=
  match m.phase t with
  | .filling index id row =>
    some (({ m with store := m.store.fill id row }.write index (split row)).goto t .idle)
  | _ => none

/-- A host call has returned: its work is the caller's again. -/
def returned (m : Machine threads) (s : Store) : Machine threads :=
  { m with store := s, ids := [], next := 0, out := fun _ => none }

/-- One step. The host calls come one at a time, with no lookup running. -/
def step (m : Machine threads) : Action threads → Option (Machine threads)
  | .range lo hi residentScales gots =>
    if m.quiescent then (rowStoreRange m.store lo hi residentScales gots).map m.returned
    else none
  | .attachPacked file layerId got =>
    if m.quiescent then
      (rowStoreAttachPacked m.store file layerId got).map fun r => m.returned r.1
    else none
  | .lookup ids =>
    if m.quiescent then some { m with ids := ids, next := 0, out := fun _ => none } else none
  | .take t => m.take t
  | .probe t => m.probe t
  | .read t got got' => m.read t got got'
  | .fill t => m.fill t

end Machine

end RowStore
