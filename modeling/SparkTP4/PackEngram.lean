import SparkTP4.RowStoreCalls
import Mathlib.Order.Monotone.Basic

/-!
# Packing a rank's rows

`scripts/pack_engram.py` rewrites the rows a rank owns as a local file: a
4 KiB header and 264-byte records, weight and scale adjacent, written chunk
by chunk through unbuffered I/O. The return values of the writes are
ignored, so a write that transfers less than asked leaves a file that is
short; what keeps such a file from being served is the size check of
`row_store_attach_packed`. A file that passes it was written in full, and
then every record sits where the store reads it.

The ranges of the ranks tile the table, so the rows the ranks look up –
their own bytes, zeros elsewhere – add up to the table's row.
-/

open RowStore

namespace PackEngram

/-- What raw reads and writes transfer: of the `n` bytes the `k`-th read (or
write) asks for, at most `read k n` (`write k n`). -/
structure RawIO where
  read : ℕ → ℕ → ℕ
  write : ℕ → ℕ → ℕ

/-- No transfer is short. -/
def RawIO.Full (io : RawIO) : Prop := ∀ k n, n ≤ io.read k n ∧ n ≤ io.write k n

/-- The first row of a rank: `rows * rank // tp`. -/
def rankLo (rows tp rank : ℕ) : ℕ := rows * rank / tp

/-- The end of a rank's rows: `rows * (rank + 1) // tp`. -/
def rankHi (rows tp rank : ℕ) : ℕ := rows * (rank + 1) / tp

/-- The header page; `struct.pack_into('<6Q', …)` refuses a number that does
not fit in 64 bits. -/
def header (layerId lo hi rows : ℕ) : Option Bytes :=
  if ∀ w ∈ [packedMagic, layerId, lo, hi, rows, rowBytes], w < 256 ^ 8 then
    some (Bytes.packWords [packedMagic, layerId, lo, hi, rows, rowBytes]
      ++ List.replicate (packedHeader - 48) 0)
  else none

/-- The `n` interleaved records of a chunk (`block.tobytes()`). -/
def block (weights scales : Bytes) (n : ℕ) : Bytes :=
  (List.range n).flatMap fun i =>
    weights.slice (i * weightBytes) weightBytes ++ scales.slice (i * scaleBytes) scaleBytes

/-- The `k`-th turn of the loop `for start in range(lo, hi, chunk_rows)`: read
the chunk's weights and scales, give up on a short read, write the block. -/
def packChunk (T : Table) (io : RawIO) (lo hi chunkRows k : ℕ) (dst : Bytes) : Option Bytes :=
  let start := lo + k * chunkRows
  let stop := min (start + chunkRows) hi
  let n := stop - start
  let weights := T.file.pread (T.weightOffset + start * weightBytes) (n * weightBytes)
    (io.read (2 * k) (n * weightBytes))
  let scales := T.file.pread (T.scaleOffset + start * scaleBytes) (n * scaleBytes)
    (io.read (2 * k + 1) (n * scaleBytes))
  if weights.length ≠ n * weightBytes ∨ scales.length ≠ n * scaleBytes then none
  else
    let bytes := block weights scales n
    some (dst ++ bytes.take (io.write (k + 1) bytes.length))

/-- The first turns of the loop, over the file the header was written to. -/
def packLoop (T : Table) (io : RawIO) (lo hi chunkRows : ℕ) (dst : Bytes) : ℕ → Option Bytes
  | 0 => some dst
  | k + 1 => (packLoop T io lo hi chunkRows dst k).bind (packChunk T io lo hi chunkRows k)

/-- `pack_layer`: the content of the rank's file when it returns, `none` when
it raises. `existing` is the target file already in the directory. -/
def packLayer (T : Table) (layerId rank tp chunkRows : ℕ) (io : RawIO) (existing : Option Bytes) :
    Option Bytes :=
  let lo := rankLo T.rows tp rank
  let hi := rankHi T.rows tp rank
  let expected := packedHeader + (hi - lo) * rowBytes
  match existing.filter (fun target => target.length == expected) with
  | some target => some target
  | none =>
    (header layerId lo hi T.rows).bind fun page =>
      packLoop T io lo hi chunkRows (page.take (io.write 0 packedHeader))
        ((hi - lo + chunkRows - 1) / chunkRows)

/-! ## The written file -/

/-- The records of the `n` rows from `lo` on. -/
def records (T : Table) (lo n : ℕ) : Bytes := (List.range n).flatMap fun i => T.record (lo + i)

/-- The records of rows of the table have their length. -/
theorem length_records {T : Table} {lo n : ℕ} (h : lo + n ≤ T.rows) :
    (records T lo n).length = n * rowBytes :=
  Bytes.length_records fun i hi => T.length_record (by omega)

/-- The records of adjacent extents concatenate. -/
theorem records_append (T : Table) (lo m n : ℕ) :
    records T lo m ++ records T (lo + m) n = records T lo (m + n) := by
  rw [records, records, records, Bytes.records_append]
  simp only [Nat.add_assoc]

/-- A chunk read in full is interleaved to its rows' records. -/
theorem block_eq_records (T : Table) (start n : ℕ) :
    block (T.file.slice (T.weightOffset + start * weightBytes) (n * weightBytes))
      (T.file.slice (T.scaleOffset + start * scaleBytes) (n * scaleBytes)) n
        = records T start n := by
  rw [block, records]
  refine List.flatMap_congr fun i hi => ?_
  have hin : ∀ size : ℕ, i * size + size ≤ n * size := fun size => by
    rw [← Nat.succ_mul]
    exact Nat.mul_le_mul_right _ (List.mem_range.mp hi)
  rw [Bytes.slice_slice _ _ (hin _), Bytes.slice_slice _ _ (hin _), Nat.add_assoc, Nat.add_assoc,
    ← Nat.add_mul, ← Nat.add_mul]
  rfl

/-- What the file can be once `n` records were due after the page `head`: no
longer than that, and exactly the head and the records if it is as long. -/
structure WrittenUpTo (T : Table) (lo : ℕ) (head : Bytes) (n : ℕ) (dst : Bytes) : Prop where
  length_le : dst.length ≤ head.length + n * rowBytes
  complete : dst.length = head.length + n * rowBytes → dst = head ++ records T lo n

/-- The header's write starts it, however much it transfers. -/
theorem WrittenUpTo.header (T : Table) (lo : ℕ) (head : Bytes) (k : ℕ) :
    WrittenUpTo T lo head 0 (head.take k) := by
  refine ⟨?_, fun hfull => ?_⟩
  · rw [List.length_take]
    omega
  · rw [List.length_take] at hfull
    rw [List.take_of_length_le (by omega), records, List.range_zero, List.flatMap_nil,
      List.append_nil]

/-- A write keeps it, however much it transfers. -/
theorem WrittenUpTo.write {T : Table} {lo m n : ℕ} {head dst : Bytes}
    (h : WrittenUpTo T lo head m dst) (hrows : lo + m + n ≤ T.rows) (k : ℕ) :
    WrittenUpTo T lo head (m + n) (dst ++ (records T (lo + m) n).take k) := by
  have hlen : (records T (lo + m) n).length = n * rowBytes := length_records hrows
  have hmul : (m + n) * rowBytes = m * rowBytes + n * rowBytes := Nat.add_mul _ _ _
  have hle := h.length_le
  refine ⟨?_, fun hfull => ?_⟩
  · rw [List.length_append, List.length_take]
    omega
  · rw [List.length_append, List.length_take] at hfull
    rw [h.complete (by omega), List.take_of_length_le (by omega), List.append_assoc,
      records_append]

section Loop

variable {T : Table} {io : RawIO} {lo hi chunkRows k : ℕ} {head dst dst' : Bytes}

/-- The rows due after `k` turns of the loop. -/
def due (lo hi chunkRows k : ℕ) : ℕ := min (k * chunkRows) (hi - lo)

/-- A turn's chunk starts at the rows that are due, and ends where the next
turn's does. -/
theorem due_succ (hk : k * chunkRows < hi - lo) :
    due lo hi chunkRows k = k * chunkRows ∧ due lo hi chunkRows (k + 1) =
      k * chunkRows + (min (lo + k * chunkRows + chunkRows) hi - (lo + k * chunkRows)) := by
  rw [due, due, Nat.succ_mul]
  omega

/-- After the last turn all rows are due. -/
theorem due_chunks (hchunk : 1 ≤ chunkRows) :
    due lo hi chunkRows ((hi - lo + chunkRows - 1) / chunkRows) = hi - lo := by
  have hlast := Nat.lt_div_mul_add (a := hi - lo + chunkRows - 1) (b := chunkRows) hchunk
  rw [due]
  omega

/-- A turn of the loop happens only with rows left. -/
theorem lt_of_lt_chunks (hchunk : 1 ≤ chunkRows)
    (hk : k < (hi - lo + chunkRows - 1) / chunkRows) : k * chunkRows < hi - lo := by
  have hmul := (Nat.le_div_iff_mul_le hchunk).mp hk
  rw [Nat.succ_mul] at hmul
  omega

/-- What one turn of the loop writes. -/
theorem packChunk_eq_some (hstep : packChunk T io lo hi chunkRows k dst = some dst') :
    ∃ c, dst' = dst ++ (records T (lo + k * chunkRows)
      (min (lo + k * chunkRows + chunkRows) hi - (lo + k * chunkRows))).take c := by
  rw [packChunk] at hstep
  simp only at hstep
  split_ifs at hstep with hshort
  push Not at hshort
  obtain ⟨hweights, hscales⟩ := hshort
  rw [Bytes.pread_eq_slice, hweights, Bytes.pread_eq_slice _ (T.scaleOffset + _), hscales,
    block_eq_records] at hstep
  exact ⟨_, (Option.some.inj hstep).symm⟩

/-- One turn of the loop: the chunk's rows are due, and what is written of
them are their records. -/
theorem WrittenUpTo.packChunk (hhi : hi ≤ T.rows) (hk : k * chunkRows < hi - lo)
    (h : WrittenUpTo T lo head (due lo hi chunkRows k) dst)
    (hstep : packChunk T io lo hi chunkRows k dst = some dst') :
    WrittenUpTo T lo head (due lo hi chunkRows (k + 1)) dst' := by
  obtain ⟨hdue, hnext⟩ := due_succ hk
  obtain ⟨c, rfl⟩ := packChunk_eq_some hstep
  rw [hdue] at h
  rw [hnext]
  exact h.write (by omega) c

/-- A turn of the loop whose transfers are full succeeds, and writes the
chunk in full. -/
theorem packChunk_full (hio : io.Full) (hhi : hi ≤ T.rows) (hk : k * chunkRows < hi - lo)
    (hdst : dst.length = head.length + due lo hi chunkRows k * rowBytes) :
    ∃ dst', packChunk T io lo hi chunkRows k dst = some dst' ∧
      dst'.length = head.length + due lo hi chunkRows (k + 1) * rowBytes := by
  obtain ⟨hdue, hnext⟩ := due_succ hk
  have hrows : lo + k * chunkRows +
      (min (lo + k * chunkRows + chunkRows) hi - (lo + k * chunkRows)) ≤ T.rows := by
    omega
  rw [hdue] at hdst
  rw [hnext, packChunk]
  simp only
  generalize min (lo + k * chunkRows + chunkRows) hi - (lo + k * chunkRows) = n at hrows ⊢
  have hextent : ∀ size : ℕ, (lo + k * chunkRows) * size + n * size ≤ T.rows * size :=
    fun size => by
      rw [← Nat.add_mul]
      exact Nat.mul_le_mul_right _ hrows
  have hweights := T.weightsFit
  have hscales := T.scalesFit
  have hw := hextent weightBytes
  have hs := hextent scaleBytes
  rw [Bytes.pread_eq_slice, Bytes.length_pread_full (hio _ _).1 (by omega),
    Bytes.pread_eq_slice _ (T.scaleOffset + _), Bytes.length_pread_full (hio _ _).1 (by omega),
    block_eq_records, Bytes.length_slice_of_le (by omega), Bytes.length_slice_of_le (by omega),
    if_neg (by simp)]
  have hlen : (records T (lo + k * chunkRows) n).length = n * rowBytes := length_records hrows
  refine ⟨_, rfl, ?_⟩
  rw [List.length_append, List.take_of_length_le (hio _ _).2, hlen, hdst, Nat.add_mul,
    Nat.add_assoc]

/-- What the loop leaves, after any number of its turns. -/
theorem packLoop_writtenUpTo (hchunk : 1 ≤ chunkRows) (hhi : hi ≤ T.rows)
    (h : WrittenUpTo T lo head 0 dst) {n : ℕ} (hn : n ≤ (hi - lo + chunkRows - 1) / chunkRows)
    (hloop : packLoop T io lo hi chunkRows dst n = some dst') :
    WrittenUpTo T lo head (due lo hi chunkRows n) dst' := by
  induction n generalizing dst' with
  | zero =>
    obtain rfl := Option.some.inj hloop
    rw [due, Nat.zero_mul, Nat.zero_min]
    exact h
  | succ n ih =>
    obtain ⟨dst₁, hloop₁, hstep⟩ := Option.bind_eq_some_iff.mp hloop
    exact (ih (Nat.le_of_succ_le hn) hloop₁).packChunk hhi (lt_of_lt_chunks hchunk hn) hstep

/-- With full transfers the loop writes all its rows. -/
theorem packLoop_full (hio : io.Full) (hchunk : 1 ≤ chunkRows) (hhi : hi ≤ T.rows)
    (hdst : dst.length = head.length) {n : ℕ}
    (hn : n ≤ (hi - lo + chunkRows - 1) / chunkRows) :
    ∃ dst', packLoop T io lo hi chunkRows dst n = some dst' ∧
      dst'.length = head.length + due lo hi chunkRows n * rowBytes := by
  induction n with
  | zero => exact ⟨dst, rfl, by rw [hdst, due, Nat.zero_mul, Nat.zero_min, Nat.zero_mul]; rfl⟩
  | succ n ih =>
    obtain ⟨dst₁, hloop₁, hlen₁⟩ := ih (Nat.le_of_succ_le hn)
    obtain ⟨dst₂, hstep, hlen₂⟩ := packChunk_full hio hhi (lt_of_lt_chunks hchunk hn) hlen₁
    exact ⟨dst₂, by rw [packLoop, hloop₁]; exact hstep, hlen₂⟩

end Loop

/-! ## The header -/

/-- The header is one page. -/
theorem length_header {layerId lo hi rows : ℕ} {head : Bytes}
    (h : header layerId lo hi rows = some head) : head.length = packedHeader := by
  rw [header] at h
  split_ifs at h
  rw [← Option.some.inj h, List.length_append, Bytes.length_packWords, List.length_replicate]
  rfl

/-- The fields of a written file are read back from its header. -/
theorem header_fields {layerId lo hi rows : ℕ} {head : Bytes}
    (h : header layerId lo hi rows = some head) (tail : Bytes) :
    headerMagic (head ++ tail) = packedMagic ∧ headerLayer (head ++ tail) = layerId ∧
      headerLo (head ++ tail) = lo ∧ headerHi (head ++ tail) = hi ∧
      headerRows (head ++ tail) = rows ∧ headerRowBytes (head ++ tail) = rowBytes := by
  rw [header] at h
  split_ifs at h with hwords
  rw [← Option.some.inj h, List.append_assoc]
  have hfield : ∀ i w, [packedMagic, layerId, lo, hi, rows, rowBytes][i]? = some w →
      Bytes.le64 (Bytes.packWords [packedMagic, layerId, lo, hi, rows, rowBytes]
        ++ (List.replicate (packedHeader - 48) 0 ++ tail)) (i * 8) = w := fun i w hi =>
    Bytes.le64_packWords _ hi (hwords w (List.mem_of_getElem? hi))
  exact ⟨hfield 0 _ rfl, hfield 1 _ rfl, hfield 2 _ rfl, hfield 3 _ rfl, hfield 4 _ rfl,
    hfield 5 _ rfl⟩

/-- **A file written in full is right**: its records are the table's rows over
the range of its header. -/
theorem packedRight_of_complete {T : Table} {layerId lo hi : ℕ} {head : Bytes} (hhi : hi ≤ T.rows)
    (h : header layerId lo hi T.rows = some head) :
    T.PackedRight (head ++ records T lo (hi - lo)) := by
  obtain ⟨-, -, hlo', hhi', -⟩ := header_fields h (records T lo (hi - lo))
  intro id hlo hid
  rw [hlo'] at hlo ⊢
  rw [hhi'] at hid
  have hright := Bytes.slice_append_right head (records T lo (hi - lo)) ((id - lo) * rowBytes)
    rowBytes
  rw [length_header h] at hright
  rw [hright, records, Bytes.slice_records (fun i hi' => T.length_record (by omega)) (by omega),
    Nat.add_sub_cancel' hlo]

/-! ## The ranks' ranges -/

section Ranges

variable (rows tp : ℕ)

/-- The ranges of the ranks follow each other. -/
theorem rankHi_eq (rank : ℕ) : rankHi rows tp rank = rankLo rows tp (rank + 1) := rfl

/-- The ranges start at the table's first row. -/
theorem rankLo_zero : rankLo rows tp 0 = 0 := by
  rw [rankLo, Nat.mul_zero, Nat.zero_div]

/-- The ranges end with the table. -/
theorem rankLo_tp (htp : 0 < tp) : rankLo rows tp tp = rows :=
  Nat.mul_div_cancel _ htp

/-- The ranges' starts are in order. -/
theorem rankLo_mono : Monotone (rankLo rows tp) := fun _ _ h =>
  Nat.div_le_div_right (Nat.mul_le_mul_left _ h)

variable {rows tp}

/-- A rank's rows are rows of the table. -/
theorem rankHi_le {rank : ℕ} (hrank : rank < tp) : rankHi rows tp rank ≤ rows := by
  have hle : rankLo rows tp (rank + 1) ≤ rankLo rows tp tp := rankLo_mono rows tp hrank
  rwa [rankLo_tp rows tp (by omega)] at hle

/-- Every row below a range's start is owned by an earlier rank. -/
theorem exists_rank {id : ℕ} (n : ℕ) (h : id < rankLo rows tp n) :
    ∃ rank < n, rankLo rows tp rank ≤ id ∧ id < rankHi rows tp rank := by
  induction n with
  | zero => exact absurd h (by rw [rankLo_zero]; omega)
  | succ n ih =>
    by_cases hn : id < rankLo rows tp n
    · obtain ⟨rank, hrank, howned⟩ := ih hn
      exact ⟨rank, Nat.lt_succ_of_lt hrank, howned⟩
    · exact ⟨n, Nat.lt_succ_self n, Nat.le_of_not_lt hn, h⟩

/-- No row is owned twice. -/
theorem rank_unique {id r r' : ℕ} (h : rankLo rows tp r ≤ id ∧ id < rankHi rows tp r)
    (h' : rankLo rows tp r' ≤ id ∧ id < rankHi rows tp r') : r = r' := by
  rcases Nat.lt_trichotomy r r' with hlt | heq | hlt
  · have hle : rankLo rows tp (r + 1) ≤ rankLo rows tp r' := rankLo_mono rows tp hlt
    rw [rankHi_eq] at h
    omega
  · exact heq
  · have hle : rankLo rows tp (r' + 1) ≤ rankLo rows tp r := rankLo_mono rows tp hlt
    rw [rankHi_eq] at h'
    omega

/-- **The ranges tile the table**: every row is owned by exactly one rank. -/
theorem exists_unique_rank {id : ℕ} (htp : 0 < tp) (hid : id < rows) :
    ∃! rank, rank < tp ∧ rankLo rows tp rank ≤ id ∧ id < rankHi rows tp rank := by
  have hend : id < rankLo rows tp tp := by
    rw [rankLo_tp rows tp htp]
    exact hid
  obtain ⟨rank, hrank, howned⟩ := exists_rank tp hend
  exact ⟨rank, ⟨hrank, howned⟩, fun r hr => rank_unique hr.2 howned⟩

end Ranges

/-! ## Combining the ranks' rows -/

/-- The bytewise sum of two rows. -/
def addRow (a b : Row) : Row :=
  ⟨List.zipWith (· + ·) a.weights b.weights, List.zipWith (· + ·) a.scales b.scales⟩

/-- The ranks' rows of one id, combined by adding them up. -/
def combine (rowOf : ℕ → Row) : ℕ → Row
  | 0 => Row.zero
  | tp + 1 => addRow (combine rowOf tp) (rowOf tp)

/-- Adding zeros on the left changes nothing. -/
theorem zipWith_add_zeros_left {n : ℕ} {b : Bytes} (h : b.length = n) :
    List.zipWith (· + ·) (List.replicate n (0 : UInt8)) b = b := by
  subst h
  induction b with
  | nil => rfl
  | cons x b ih => rw [List.length_cons, List.replicate_succ, List.zipWith_cons_cons, ih,
      UInt8.zero_add]

/-- Adding zeros on the right changes nothing. -/
theorem zipWith_add_zeros_right {n : ℕ} {b : Bytes} (h : b.length = n) :
    List.zipWith (· + ·) b (List.replicate n (0 : UInt8)) = b := by
  subst h
  induction b with
  | nil => rfl
  | cons x b ih => rw [List.length_cons, List.replicate_succ, List.zipWith_cons_cons, ih,
      UInt8.add_zero]

/-- Adding up rows of which one rank's alone is not zeros gives that rank's
row, once the rank is included. -/
theorem combine_eq {rowOf : ℕ → Row} {rank : ℕ} (hother : ∀ r, r ≠ rank → rowOf r = Row.zero)
    (hweights : (rowOf rank).weights.length = weightBytes)
    (hscales : (rowOf rank).scales.length = scaleBytes) (tp : ℕ) :
    combine rowOf tp = if rank < tp then rowOf rank else Row.zero := by
  induction tp with
  | zero => rfl
  | succ tp ih =>
    rw [combine, ih]
    rcases Nat.lt_trichotomy rank tp with hlt | rfl | hlt
    · rw [if_pos hlt, if_pos (by omega), hother tp (by omega), addRow, Row.zero,
        zipWith_add_zeros_right hweights, zipWith_add_zeros_right hscales]
    · rw [if_neg (lt_irrefl _), if_pos (Nat.lt_succ_self _), addRow, Row.zero,
        zipWith_add_zeros_left hweights, zipWith_add_zeros_left hscales]
    · rw [if_neg (by omega), if_neg (by omega), hother tp (by omega), addRow, Row.zero,
        zipWith_add_zeros_left List.length_replicate, zipWith_add_zeros_left List.length_replicate]

/-- The ranks' own rows, zeros elsewhere, combine to the table's row. -/
theorem combine_owned {T : Table} {tp id : ℕ} (htp : 0 < tp) (hid : id < T.rows) :
    combine (fun r => T.owned (rankLo T.rows tp r) (rankHi T.rows tp r) id) tp
      = ⟨T.weight id, T.scale id⟩ := by
  obtain ⟨rank, ⟨hrank, howned⟩, -⟩ := exists_unique_rank htp hid
  have hrow : T.owned (rankLo T.rows tp rank) (rankHi T.rows tp rank) id
      = ⟨T.weight id, T.scale id⟩ := by
    rw [Table.owned, if_pos howned]
  have hother : ∀ r, r ≠ rank →
      T.owned (rankLo T.rows tp r) (rankHi T.rows tp r) id = Row.zero := fun r hr => by
    rw [Table.owned, if_neg fun h => hr (rank_unique h howned)]
  rw [combine_eq hother (by rw [hrow]; exact T.length_weight hid)
    (by rw [hrow]; exact T.length_scale hid), if_pos hrank, hrow]

/-! ## The round trip -/

section RoundTrip

variable {T : Table} {layerId rank tp chunkRows : ℕ} {io : RawIO} {shard : Bytes}

/-- What `pack_layer` leaves of a directory without the target file. -/
theorem packLayer_writtenUpTo (hchunk : 1 ≤ chunkRows) (hrank : rank < tp)
    (h : packLayer T layerId rank tp chunkRows io none = some shard) :
    ∃ head, header layerId (rankLo T.rows tp rank) (rankHi T.rows tp rank) T.rows = some head ∧
      WrittenUpTo T (rankLo T.rows tp rank) head
        (rankHi T.rows tp rank - rankLo T.rows tp rank) shard := by
  obtain ⟨head, hhead, hloop⟩ := Option.bind_eq_some_iff.mp h
  have hwritten := packLoop_writtenUpTo hchunk (rankHi_le hrank)
    (WrittenUpTo.header T (rankLo T.rows tp rank) head _) le_rfl hloop
  rw [due_chunks hchunk] at hwritten
  exact ⟨head, hhead, hwritten⟩

/-- With full transfers `pack_layer` returns a file of the expected length,
whenever its header can be written at all. -/
theorem packLayer_full (hio : io.Full) (hchunk : 1 ≤ chunkRows) (hrank : rank < tp)
    (h : packLayer T layerId rank tp chunkRows io none = some shard) :
    shard.length = packedHeader + (rankHi T.rows tp rank - rankLo T.rows tp rank) * rowBytes := by
  obtain ⟨head, hhead, hloop⟩ := Option.bind_eq_some_iff.mp h
  have hlen := length_header hhead
  have htake : head.take (io.write 0 packedHeader) = head :=
    List.take_of_length_le (by rw [hlen]; exact (hio _ _).2)
  obtain ⟨dst, hdst, hdstlen⟩ := packLoop_full hio hchunk (rankHi_le hrank)
    (show (head.take (io.write 0 packedHeader)).length = head.length by rw [htake]) le_rfl
  rw [due_chunks hchunk, hlen] at hdstlen
  obtain rfl := Option.some.inj (hdst.symm.trans hloop)
  exact hdstlen

/-- **A shard that passes the size check is right**, and carries the header of
its rank's range. -/
theorem packLayer_right (hchunk : 1 ≤ chunkRows) (hrank : rank < tp)
    (h : packLayer T layerId rank tp chunkRows io none = some shard)
    (hsize : packedHeader + (rankHi T.rows tp rank - rankLo T.rows tp rank) * rowBytes
      ≤ shard.length) :
    T.PackedRight shard ∧ headerMagic shard = packedMagic ∧ headerLayer shard = layerId ∧
      headerLo shard = rankLo T.rows tp rank ∧ headerHi shard = rankHi T.rows tp rank ∧
      headerRows shard = T.rows ∧ headerRowBytes shard = rowBytes := by
  obtain ⟨head, hhead, hwritten⟩ := packLayer_writtenUpTo hchunk hrank h
  have hle := hwritten.length_le
  rw [length_header hhead] at hle
  rw [hwritten.complete (by rw [length_header hhead]; omega)]
  exact ⟨packedRight_of_complete (rankHi_le hrank) hhead, header_fields hhead _⟩

end RoundTrip

end PackEngram
