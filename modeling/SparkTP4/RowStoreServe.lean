import SparkTP4.RowStore
import Mathlib.Tactic.Ring

/-!
# Served rows are the table's

Whatever backs the store – direct reads, reads next to a pinned scale shard,
a repacked shard, or the mapped file – every row the pool writes is the
table's row, in every interleaving of the threads' critical sections. The
invariant is `Machine.Serving`: the store's side tables agree with the table
over the owned range (`Store.Backed`), every occupied cache slot holds its
key's row in its key's set, every fetched row is its id's record, and every
ticket taken is either written or held by a thread.
-/

namespace RowStore

/-! ## Reads -/

/-- A read that succeeds gives the bytes of the extent. -/
theorem readFrom_eq {resident : Bool} {file b : Bytes} {offset length got : ℕ}
    (h : readFrom resident file offset length got = some b) : b = file.slice offset length := by
  simp only [readFrom] at h
  split_ifs at h with hresident hshort
  · exact (Option.some.inj h).symm
  · have hbase : offset / page * page ≤ offset := Nat.div_mul_le_self _ _
    rw [← Option.some.inj h, Bytes.slice_pread (Nat.le_of_not_lt hshort),
      Nat.add_sub_cancel' hbase]

/-- The state of `pin_scales`' buffer with the file read up to `offset`. -/
structure PinnedUpTo (file : Bytes) (start stop offset : ℕ) (out : Bytes) : Prop where
  length : out.length = stop - start
  filled : out.take (min offset stop - start) = file.slice start (min offset stop - start)

/-- One read of `pin_scales` extends the exact part of the buffer. -/
theorem PinnedUpTo.read {file out : Bytes} {start stop offset n : ℕ}
    (h : PinnedUpTo file start stop offset out) (hstart : start < stop) (hoffset : offset < stop)
    (hn : 0 < n) (hfile : offset + n ≤ file.length) :
    PinnedUpTo file start stop (offset + n)
      (if max offset start < min (offset + n) stop then
        out.splice (max offset start - start)
          ((file.slice offset n).slice (max offset start - offset)
            (min (offset + n) stop - max offset start))
      else out) := by
  obtain ⟨hlen, hfilled⟩ := h
  by_cases hoverlap : max offset start < min (offset + n) stop
  · rw [if_pos hoverlap, Bytes.slice_slice _ _ (by omega),
      show offset + (max offset start - offset) = max offset start by omega]
    have hpiece : (file.slice (max offset start)
        (min (offset + n) stop - max offset start)).length
          = min (offset + n) stop - max offset start :=
      Bytes.length_slice_of_le (by omega)
    refine ⟨by rw [Bytes.length_splice (by omega), hlen], ?_⟩
    have htake := @Bytes.take_splice out
      (file.slice (max offset start) (min (offset + n) stop - max offset start))
      (max offset start - start) (by omega)
    rw [hpiece, show max offset start - start + (min (offset + n) stop - max offset start)
      = min (offset + n) stop - start by omega] at htake
    rw [htake]
    rw [show min offset stop - start = max offset start - start by omega] at hfilled
    have hcat := file.slice_append_slice start (max offset start - start)
      (min (offset + n) stop - max offset start)
    rw [show start + (max offset start - start) = max offset start by omega,
      show max offset start - start + (min (offset + n) stop - max offset start)
        = min (offset + n) stop - start by omega] at hcat
    rw [hfilled, hcat]
  · -- the read ends before the wanted extent starts
    rw [if_neg hoverlap]
    have hzero : min (offset + n) stop - start = 0 := by omega
    exact ⟨hlen, by rw [hzero, List.take_zero, Bytes.slice_zero]⟩

/-- The zeroed buffer, before the first read. -/
theorem PinnedUpTo.start {file : Bytes} {start bytes offset : ℕ} (hoffset : offset ≤ start) :
    PinnedUpTo file start (start + bytes) offset (List.replicate bytes 0) := by
  have hzero : min offset (start + bytes) - start = 0 := by omega
  refine ⟨by rw [List.length_replicate, Nat.add_sub_cancel_left], ?_⟩
  rw [hzero, List.take_zero, Bytes.slice_zero]

/-- Once the extent is read, the buffer is the extent. -/
theorem PinnedUpTo.complete {file out b : Bytes} {start stop offset : ℕ}
    (h : PinnedUpTo file start stop offset out) (hstop : stop ≤ offset) (hb : some out = some b) :
    b = file.slice start (stop - start) := by
  obtain ⟨hlen, hfilled⟩ := h
  rw [min_eq_right hstop] at hfilled
  rw [← Option.some.inj hb, ← hfilled, ← hlen, List.take_length]

/-- The loop of `pin_scales` fills the buffer with the extent, whatever the
reads transfer. -/
theorem pinLoop_eq {file : Bytes} {start stop : ℕ} (hstart : start < stop) (gots : List ℕ)
    {offset : ℕ} {out b : Bytes} (hout : PinnedUpTo file start stop offset out)
    (h : pinLoop file start stop gots offset out = some b) :
    b = file.slice start (stop - start) := by
  induction gots generalizing offset out with
  | nil =>
    rw [pinLoop] at h
    split_ifs at h with hstop
    exact hout.complete hstop h
  | cons got gots ih =>
    rw [pinLoop] at h
    by_cases hstop : stop ≤ offset
    · rw [if_pos hstop] at h
      exact hout.complete hstop h
    · rw [if_neg hstop] at h
      simp only at h
      have hbuffer := file.pread_eq_slice offset
        (min (8 <<< 20) ((stop - offset + page - 1) / page * page)) got
      have hfile := file.length_pread_le offset
        (min (8 <<< 20) ((stop - offset + page - 1) / page * page)) got
      generalize file.pread offset (min (8 <<< 20) ((stop - offset + page - 1) / page * page)) got
        = buffer at h hbuffer hfile
      by_cases hnone : buffer.length = 0
      · rw [if_pos hnone] at h
        exact absurd h (by simp)
      · rw [if_neg hnone] at h
        refine ih (hout.read hstart (by omega) (Nat.pos_of_ne_zero hnone) (by omega)) ?_
        rwa [← hbuffer]

/-- **Pinned scales are exact or absent**: whatever the reads transfer, a
buffer `pin_scales` keeps holds the scale bytes of the owned rows. -/
theorem pinScales_exact {T : Table} {resident : Bool} {lo hi : ℕ} {gots : Option (List ℕ)}
    {b : Bytes} (h : pinScales T resident lo hi gots = some b) :
    b = T.file.slice (T.scaleOffset + lo * scaleBytes) ((hi - lo) * scaleBytes) := by
  cases gots with
  | none => exact absurd h (by simp [pinScales])
  | some gots =>
    simp only [pinScales] at h
    split_ifs at h with hempty hresident
    · exact (Option.some.inj h).symm
    · have hbase : (T.scaleOffset + lo * scaleBytes) / page * page
          ≤ T.scaleOffset + lo * scaleBytes := Nat.div_mul_le_self _ _
      have hpos : 0 < (hi - lo) * scaleBytes := Nat.mul_pos (by omega) (by norm_num)
      have hloop := pinLoop_eq (by omega) gots (PinnedUpTo.start hbase) h
      rwa [Nat.add_sub_cancel_left] at hloop

/-! ## The store agrees with the table -/

/-- The shard's records are the table's rows over the range of its header. -/
def Table.PackedRight (T : Table) (shard : Bytes) : Prop :=
  ∀ id, headerLo shard ≤ id → id < headerHi shard →
    shard.slice (packedHeader + (id - headerLo shard) * rowBytes) rowBytes = T.record id

/-- Every occupied slot holds its key's row, in its key's set. -/
def Cache.Holds (c : Cache) (T : Table) (sets ways : ℕ) : Prop :=
  ∀ slot, c.keys slot ≠ 0 → c.keys slot ≤ T.rows ∧
    c.data slot = T.record (c.keys slot - 1) ∧ slot / ways = (c.keys slot - 1) % sets

/-- Storing a row of the table in its set keeps the cache right. -/
theorem Cache.Holds.put {c : Cache} {T : Table} {sets ways : ℕ} (h : c.Holds T sets ways)
    {set slot id : ℕ} (hid : id < T.rows) (hset : slot / ways = id % sets) :
    (c.put set slot (id + 1) ways (T.record id)).Holds T sets ways := by
  intro slot' hslot'
  by_cases hsame : slot' = slot
  · subst hsame
    simp only [Cache.put, Function.update_self, Nat.add_sub_cancel]
    exact ⟨hid, trivial, hset⟩
  · simp only [Cache.put, Function.update_of_ne hsame] at hslot' ⊢
    exact h slot' hslot'

/-- **The store's invariant**: its owned range lies in the table, the side
tables that are indexed by `id - row_lo` hold the owned rows there, and every
occupied cache slot holds its key's row in its key's set. -/
structure Store.Backed (s : Store) : Prop where
  lo_le : s.rowLo ≤ s.rowHi
  hi_le : s.rowHi ≤ s.table.rows
  ways_pos : 0 < s.ways
  scales : ∀ pinned, s.scales = some pinned → pinned =
    s.table.file.slice (s.table.scaleOffset + s.rowLo * scaleBytes)
      ((s.rowHi - s.rowLo) * scaleBytes)
  packed : ∀ shard, s.packed = some shard → s.table.PackedRight shard ∧
    (s.rowLo < s.rowHi → s.rowLo = headerLo shard ∧ s.rowHi ≤ headerHi shard)
  cache : s.cache.Holds s.table s.sets s.ways

variable {s s' : Store}

/-- The pinned scales of an owned row are its scales. -/
theorem Store.Backed.pinned_scale (h : s.Backed) {pinned : Bytes} (hp : s.scales = some pinned)
    {id : ℕ} (hlo : s.rowLo ≤ id) (hhi : id < s.rowHi) :
    pinned.slice ((id - s.rowLo) * scaleBytes) scaleBytes = s.table.scale id := by
  have hextent : (id - s.rowLo) * scaleBytes + scaleBytes ≤ (s.rowHi - s.rowLo) * scaleBytes := by
    rw [← Nat.succ_mul]
    exact Nat.mul_le_mul_right _ (by omega)
  have hoffset : s.rowLo * scaleBytes + (id - s.rowLo) * scaleBytes = id * scaleBytes := by
    rw [← Nat.add_mul, Nat.add_sub_cancel' hlo]
  rw [h.scales pinned hp, Bytes.slice_slice _ _ hextent, Nat.add_assoc, hoffset, Table.scale]

/-- **A row read past the cache is the table's**, whichever way it is read. -/
theorem Store.Backed.readRow_eq (h : s.Backed) {id got got' : ℕ} {row : Bytes}
    (hlo : s.rowLo ≤ id) (hhi : id < s.rowHi) (hrow : s.readRow id got got' = some row) :
    row = s.table.record id := by
  rw [Store.readRow] at hrow
  cases hpacked : s.packed with
  | some shard =>
    rw [hpacked] at hrow
    obtain ⟨hright, hrange⟩ := h.packed shard hpacked
    obtain ⟨hbase, hend⟩ := hrange (by omega)
    rw [readFrom_eq hrow, hbase]
    exact hright id (by omega) (by omega)
  | none =>
    rw [hpacked] at hrow
    obtain ⟨weight, hweight, hrest⟩ := Option.bind_eq_some_iff.mp hrow
    rw [Table.record, Table.weight, ← readFrom_eq hweight]
    cases hscales : s.scales with
    | some pinned =>
      rw [hscales] at hrest
      rw [← Option.some.inj hrest, h.pinned_scale hscales hlo hhi]
    | none =>
      rw [hscales] at hrest
      obtain ⟨scale, hscale, rfl⟩ := Option.map_eq_some_iff.mp hrest
      rw [Table.scale, readFrom_eq hscale]

/-- A hit is the table's row. -/
theorem Store.Backed.probe_eq (h : s.Backed) {id : ℕ} {row : Bytes}
    (hrow : s.probe id = some row) : row = s.table.record id := by
  simp only [Store.probe] at hrow
  split_ifs at hrow
  obtain ⟨w, hw, rfl⟩ := Option.map_eq_some_iff.mp hrow
  have hkey : s.cache.keys (s.set id * s.ways + w) = id + 1 := by
    simpa using List.find?_some hw
  have hslot := (h.cache _ (by rw [hkey]; omega)).2.1
  rwa [hkey, Nat.add_sub_cancel] at hslot

/-- A fill keeps the geometry, the owned range and the side tables. -/
theorem Store.fill_frame (s : Store) (id : ℕ) (row : Bytes) :
    (s.fill id row).table = s.table ∧ (s.fill id row).rowLo = s.rowLo ∧
      (s.fill id row).rowHi = s.rowHi ∧ (s.fill id row).sets = s.sets ∧
      (s.fill id row).ways = s.ways ∧ (s.fill id row).scales = s.scales ∧
      (s.fill id row).packed = s.packed := by
  simp only [Store.fill]
  split_ifs <;> exact ⟨rfl, rfl, rfl, rfl, rfl, rfl, rfl⟩

/-- Filling the cache with a row of the table keeps the invariant. -/
theorem Store.Backed.fill (h : s.Backed) {id : ℕ} (hid : id < s.table.rows) :
    (s.fill id (s.table.record id)).Backed := by
  by_cases hsets : s.sets = 0
  · simpa only [Store.fill, if_pos hsets] using h
  · have hcursor : s.cache.victim (s.set id) % s.ways < s.ways := Nat.mod_lt _ h.ways_pos
    simp only [Store.fill, if_neg hsets]
    refine ⟨h.lo_le, h.hi_le, h.ways_pos, h.scales, h.packed, h.cache.put hid ?_⟩
    rw [Nat.mul_comm, Nat.mul_add_div h.ways_pos, Nat.div_eq_of_lt hcursor, Nat.add_zero,
      Store.set, if_neg hsets]

/-- A freshly opened store agrees with its table. -/
theorem rowStoreOpen_backed {file : Bytes} {rows woff soff budget cacheWays : ℕ} {ram : Bool}
    (h : rowStoreOpen file rows woff soff budget ram cacheWays = some s) : s.Backed := by
  rw [rowStoreOpen] at h
  split at h
  · exact absurd h (by simp)
  · obtain rfl := Option.some.inj h
    exact ⟨Nat.zero_le _, le_rfl, lt_of_lt_of_le Nat.one_pos (le_max_left _ _),
      fun _ hp => absurd hp (by simp), fun _ hp => absurd hp (by simp),
      fun _ hk => absurd rfl hk⟩

/-! ## The threads -/

/-- The entry and the id a thread is working on. -/
def Phase.job : Phase → Option (ℕ × ℕ)
  | .idle => none
  | .probing index id => some (index, id)
  | .reading index id => some (index, id)
  | .filling index id _ => some (index, id)

namespace Machine

variable {threads : ℕ} {m m' : Machine threads}

/-- **The pool's invariant.** The store agrees with the table; a thread works
on a ticket it has taken, whose id is owned, and what it fetched is that id's
record; what has been written is the table's row (or zeros, for an id of
another rank); and every ticket taken is written or still held. -/
structure Serving (m : Machine threads) : Prop where
  backed : m.store.Backed
  held : ∀ t index id, (m.phase t).job = some (index, id) → index < m.next ∧
    m.ids[index]? = some (id : ℤ) ∧ m.store.rowLo ≤ id ∧ id < m.store.rowHi
  fetched : ∀ t index id row, m.phase t = .filling index id row → row = m.store.table.record id
  right : ∀ index row, m.out index = some row → ∃ id : ℕ, m.ids[index]? = some (id : ℤ) ∧
    id < m.store.table.rows ∧ row = m.store.table.owned m.store.rowLo m.store.rowHi id
  served : ∀ index, index < m.next → index < m.ids.length →
    (m.out index).isSome ∨ ∃ t id, (m.phase t).job = some (index, id)

/-- Splitting a record gives the row of an owned id. -/
theorem split_record {T : Table} {lo hi id : ℕ} (hlo : lo ≤ id) (hhi : id < hi)
    (hrows : id < T.rows) : split (T.record id) = T.owned lo hi id := by
  have hlen := T.length_weight hrows
  rw [split, Table.owned, if_pos ⟨hlo, hhi⟩, Table.record, ← hlen, List.take_left, List.drop_left]

/-- A thread moving between the critical sections of one entry, with what it
fetched in hand, keeps the invariant. -/
theorem Serving.goto (h : m.Serving) {t : Fin threads} {p : Phase} {index id : ℕ}
    (hjob : (m.phase t).job = some (index, id)) (hp : p.job = some (index, id))
    (hrow : ∀ index id row, p = .filling index id row → row = m.store.table.record id) :
    (m.goto t p).Serving := by
  have hphase : ∀ t', ((m.goto t p).phase t').job = (m.phase t').job := by
    intro t'
    by_cases ht : t' = t
    · rw [ht, goto_phase_self, hp, hjob]
    · rw [goto_phase_of_ne _ _ ht]
  refine ⟨h.backed, fun t' i d hj => h.held t' i d (by rw [← hphase]; exact hj),
    fun t' i d row hf => ?_, h.right, fun i hnext hlen => ?_⟩
  · by_cases ht : t' = t
    · rw [ht, goto_phase_self] at hf
      exact hrow i d row hf
    · rw [goto_phase_of_ne _ _ ht] at hf
      exact h.fetched t' i d row hf
  · simp only [goto_out, hphase]
    exact h.served i hnext hlen

/-- A thread that copies its id's record out and turns idle keeps the
invariant. -/
theorem Serving.finish (h : m.Serving) {t : Fin threads} {index id : ℕ}
    (hjob : (m.phase t).job = some (index, id)) :
    ((m.write index (split (m.store.table.record id))).goto t .idle).Serving := by
  obtain ⟨hnext, hid, hlo, hhi⟩ := h.held t index id hjob
  have hrows : id < m.store.table.rows := lt_of_lt_of_le hhi h.backed.hi_le
  refine ⟨h.backed, fun t' i d hj => ?_, fun t' i d row hf => ?_, fun i row hout => ?_,
    fun i hi hlen => ?_⟩
  · by_cases ht : t' = t
    · rw [ht, goto_phase_self] at hj
      exact absurd hj (by simp [Phase.job])
    · rw [goto_phase_of_ne _ _ ht, write_phase] at hj
      exact h.held t' i d hj
  · by_cases ht : t' = t
    · rw [ht, goto_phase_self] at hf
      exact absurd hf (by simp)
    · rw [goto_phase_of_ne _ _ ht, write_phase] at hf
      exact h.fetched t' i d row hf
  · by_cases hi : i = index
    · rw [hi, goto_out, write_out_self] at hout
      refine ⟨id, by rw [hi]; exact hid, hrows, ?_⟩
      rw [← Option.some.inj hout, split_record hlo hhi hrows]
      rfl
    · rw [goto_out, write_out_of_ne _ _ hi] at hout
      exact h.right i row hout
  · by_cases hindex : i = index
    · exact Or.inl (by rw [hindex, goto_out, write_out_self]; rfl)
    · rcases h.served i hi hlen with hout | ⟨t', d, hj⟩
      · exact Or.inl (by rw [goto_out, write_out_of_ne _ _ hindex]; exact hout)
      · have ht : t' ≠ t := by
          rintro rfl
          rw [hjob] at hj
          exact hindex (congrArg Prod.fst (Option.some.inj hj)).symm
        exact Or.inr ⟨t', d, by rw [goto_phase_of_ne _ _ ht]; exact hj⟩

/-- Taking a ticket keeps the invariant: the entry is written at once or held
by the thread that took it. -/
theorem Serving.take (h : m.Serving) {t : Fin threads} (hstep : m.take t = some m') :
    m'.Serving := by
  rw [Machine.take] at hstep
  cases hphase : m.phase t with
  | idle =>
    cases hid : m.ids[m.next]? with
    | none => exact absurd hstep (by simp [hphase, hid])
    | some id =>
      simp only [hphase, hid] at hstep
      split_ifs at hstep with hbounds hforeign
      · -- an id of another rank: zeros are written at once
        obtain ⟨hneg, hrows⟩ : 0 ≤ id ∧ id.toNat < m.store.table.rows := by omega
        rw [← Option.some.inj hstep]
        refine ⟨h.backed, fun t' i d hj => ?_, h.fetched, fun i row hout => ?_,
          fun i hi hlen => ?_⟩
        · obtain ⟨hnext, hrest⟩ := h.held t' i d hj
          exact ⟨Nat.lt_succ_of_lt hnext, hrest⟩
        · by_cases hi : i = m.next
          · rw [hi, write_out_self] at hout
            refine ⟨id.toNat, by rw [hi, Int.toNat_of_nonneg hneg]; exact hid, hrows, ?_⟩
            rw [← Option.some.inj hout, Table.owned, if_neg (by simpa using by omega)]
          · rw [write_out_of_ne _ _ hi] at hout
            exact h.right i row hout
        · by_cases hnew : i = m.next
          · exact Or.inl (by rw [hnew, write_out_self]; rfl)
          · rw [write_out_of_ne _ _ hnew]
            exact h.served i (by simp at hi; omega) hlen
      · obtain ⟨hneg, hrows⟩ : 0 ≤ id ∧ id.toNat < m.store.table.rows := by omega
        rw [← Option.some.inj hstep]
        refine ⟨h.backed, fun t' i d hj => ?_, fun t' i d row hf => ?_, h.right,
          fun i hi hlen => ?_⟩
        · by_cases ht : t' = t
          · rw [ht, goto_phase_self] at hj
            obtain ⟨rfl, rfl⟩ := Prod.mk.inj (Option.some.inj hj)
            refine ⟨Nat.lt_succ_self _, ?_, by simpa using by omega, by simpa using by omega⟩
            rw [Int.toNat_of_nonneg hneg]
            exact hid
          · rw [goto_phase_of_ne _ _ ht] at hj
            obtain ⟨hnext, hrest⟩ := h.held t' i d hj
            exact ⟨Nat.lt_succ_of_lt hnext, hrest⟩
        · by_cases ht : t' = t
          · rw [ht, goto_phase_self] at hf
            exact absurd hf (by simp)
          · rw [goto_phase_of_ne _ _ ht] at hf
            exact h.fetched t' i d row hf
        · by_cases hnew : i = m.next
          · exact Or.inr ⟨t, id.toNat, by rw [hnew, goto_phase_self]; rfl⟩
          · rcases h.served i (by simp at hi; omega) hlen with hout | ⟨t', d, hj⟩
            · exact Or.inl hout
            · have ht : t' ≠ t := by
                rintro rfl
                rw [hphase] at hj
                exact absurd hj (by simp [Phase.job])
              exact Or.inr ⟨t', d, by rw [goto_phase_of_ne _ _ ht]; exact hj⟩
  | _ => exact absurd hstep (by simp [hphase])

/-- A probe keeps the invariant. -/
theorem Serving.probe (h : m.Serving) {t : Fin threads} (hstep : m.probe t = some m') :
    m'.Serving := by
  rw [Machine.probe] at hstep
  cases hphase : m.phase t with
  | probing index id =>
    rw [hphase] at hstep
    have hjob : (m.phase t).job = some (index, id) := by rw [hphase, Phase.job]
    cases hprobe : m.store.probe id with
    | some row =>
      simp only [hprobe] at hstep
      rw [← Option.some.inj hstep, h.backed.probe_eq hprobe]
      exact h.finish hjob
    | none =>
      simp only [hprobe] at hstep
      rw [← Option.some.inj hstep]
      exact h.goto hjob rfl (fun _ _ _ hp => absurd hp (by simp))
  | _ =>
    rw [hphase] at hstep
    exact absurd hstep (by simp)

/-- A read keeps the invariant. -/
theorem Serving.read (h : m.Serving) {t : Fin threads} {got got' : ℕ}
    (hstep : m.read t got got' = some m') : m'.Serving := by
  rw [Machine.read] at hstep
  cases hphase : m.phase t with
  | reading index id =>
    rw [hphase] at hstep
    have hjob : (m.phase t).job = some (index, id) := by rw [hphase, Phase.job]
    obtain ⟨-, -, hlo, hhi⟩ := h.held t index id hjob
    obtain ⟨row, hrow, rfl⟩ := Option.map_eq_some_iff.mp hstep
    refine h.goto hjob rfl (fun index' id' row' hp => ?_)
    obtain ⟨-, rfl, rfl⟩ := Phase.filling.inj hp
    exact h.backed.readRow_eq hlo hhi hrow
  | _ =>
    rw [hphase] at hstep
    exact absurd hstep (by simp)

/-- Filling the cache under a running lookup keeps the invariant. -/
theorem Serving.fillStore (h : m.Serving) {id : ℕ} (hid : id < m.store.table.rows) :
    ({ m with store := m.store.fill id (m.store.table.record id) } : Machine threads).Serving := by
  obtain ⟨htable, hlo, hhi, -⟩ := m.store.fill_frame id (m.store.table.record id)
  refine ⟨h.backed.fill hid, fun t' i d hj => ?_, fun t' i d row hf => ?_, fun i row hout => ?_,
    h.served⟩
  · simp only [hlo, hhi]
    exact h.held t' i d hj
  · simp only [htable]
    exact h.fetched t' i d row hf
  · simp only [htable, hlo, hhi]
    exact h.right i row hout

/-- A fill keeps the invariant. -/
theorem Serving.fill (h : m.Serving) {t : Fin threads} (hstep : m.fill t = some m') :
    m'.Serving := by
  rw [Machine.fill] at hstep
  cases hphase : m.phase t with
  | filling index id row =>
    rw [hphase] at hstep
    have hjob : (m.phase t).job = some (index, id) := by rw [hphase, Phase.job]
    have hrow := h.fetched t index id row hphase
    obtain ⟨-, -, -, hhi⟩ := h.held t index id hjob
    have hfilled := (h.fillStore (lt_of_lt_of_le hhi h.backed.hi_le)).finish (t := t) hjob
    rw [← Option.some.inj hstep, hrow]
    simpa only [(m.store.fill_frame id (m.store.table.record id)).1] using hfilled
  | _ =>
    rw [hphase] at hstep
    exact absurd hstep (by simp)

/-- A lookup that starts has nothing written and nothing held. -/
theorem Serving.lookup (h : m.Serving) (hquiet : m.quiescent) (ids : List ℤ) :
    ({ m with ids := ids, next := 0, out := fun _ => none } : Machine threads).Serving := by
  have hidle : ∀ t, (m.phase t).job = none := fun t => by rw [hquiet.2 t, Phase.job]
  refine ⟨h.backed, fun t i d hj => ?_, h.fetched, fun i row hout => ?_, fun i hi => ?_⟩
  · exact absurd (hidle t ▸ hj) (by simp)
  · exact absurd hout (by simp)
  · exact absurd hi (Nat.not_lt_zero i)

/-- A host call that leaves the store right leaves the machine right. -/
theorem Serving.returned (hquiet : m.quiescent) {s : Store} (hs : s.Backed) :
    (m.returned s).Serving := by
  have hidle : ∀ t, (m.phase t).job = none := fun t => by rw [hquiet.2 t, Phase.job]
  refine ⟨hs, fun t i d hj => ?_, fun t i d row hf => ?_, fun i row hout => ?_, fun i hi => ?_⟩
  · exact absurd (hidle t ▸ hj) (by simp)
  · exact absurd (hquiet.2 t ▸ hf) (by simp)
  · exact absurd hout (by simp [Machine.returned])
  · exact absurd hi (Nat.not_lt_zero i)

/-- The machine over a store that agrees with its table. -/
theorem init_serving {s : Store} (hs : s.Backed) : (init threads s).Serving := by
  refine ⟨hs, fun t i d hj => ?_, fun t i d row hf => ?_, fun i row hout => ?_, fun i hi => ?_⟩
  · exact absurd hj (by simp [init, Phase.job])
  · exact absurd hf (by simp [init])
  · exact absurd hout (by simp [init])
  · exact absurd hi (Nat.not_lt_zero i)

/-- A completed lookup has written every entry. -/
theorem Serving.complete (h : m.Serving) (hquiet : m.quiescent) {index : ℕ}
    (hindex : index < m.ids.length) : (m.out index).isSome := by
  rcases h.served index (lt_of_lt_of_le hindex hquiet.1) hindex with hout | ⟨t, d, hj⟩
  · exact hout
  · rw [hquiet.2 t] at hj
    exact absurd hj (by simp [Phase.job])

end Machine

/-! ## The host calls -/

/-- The new range stays inside the attached shard and starts where the shard
starts, unless it is empty. -/
def Store.KeepsPackedRange (s : Store) (lo hi : ℕ) : Prop :=
  ∀ shard, s.packed = some shard → lo < hi → lo = headerLo shard ∧ hi ≤ headerHi shard

/-- What `row_store_range` can do: with no scales pinned for another range, it
takes the range over and keeps the pinned scales or pins new ones. -/
theorem rowStoreRange_eq_some {lo hi : ℕ} {residentScales : Bool} {gots : Option (List ℕ)}
    (h : rowStoreRange s lo hi residentScales gots = some s') :
    lo ≤ hi ∧ hi ≤ s.table.rows ∧ (s.scales ≠ none → lo = s.rowLo ∧ hi = s.rowHi) ∧
      ∃ scales, s' = { s with rowLo := lo, rowHi := hi, scales := scales } ∧
        (scales = s.scales ∨ scales = pinScales s.table s.resident lo hi gots) := by
  rw [rowStoreRange] at h
  split_ifs at h with hrange hpinned
  refine ⟨by omega, by omega, fun hsome => ?_, ?_⟩
  · rw [Option.ne_none_iff_isSome] at hsome
    by_contra hne
    exact hpinned ⟨hsome, by omega⟩
  · simp only at h
    split_ifs at h
    · exact ⟨_, (Option.some.inj h).symm, Or.inr rfl⟩
    · exact ⟨_, (Option.some.inj h).symm, Or.inl rfl⟩

/-- Taking a range over keeps the store right, as long as an attached shard
still starts at it. -/
theorem Store.Backed.range (h : s.Backed) {lo hi : ℕ} {residentScales : Bool}
    {gots : Option (List ℕ)} (hkeeps : s.KeepsPackedRange lo hi)
    (hcall : rowStoreRange s lo hi residentScales gots = some s') : s'.Backed := by
  obtain ⟨hle, hrows, hpinned, scales, rfl, hscales⟩ := rowStoreRange_eq_some hcall
  refine ⟨hle, hrows, h.ways_pos, fun pinned hp => ?_,
    fun shard hshard => ⟨(h.packed shard hshard).1, hkeeps shard hshard⟩, h.cache⟩
  rcases hscales with rfl | rfl
  · -- a pinned shard was not moved under
    have hp' : s.scales = some pinned := hp
    obtain ⟨rfl, rfl⟩ := hpinned (by rw [hp']; exact Option.some_ne_none _)
    exact h.scales pinned hp
  · exact pinScales_exact hp

/-- The fields of a header that was read are those of the file. -/
theorem le64_header {shard : Bytes} {got : ℕ} (hread : page ≤ (shard.pread 0 page got).length)
    (off : ℕ) (hoff : off + 8 ≤ page) : (shard.pread 0 page got).le64 off = shard.le64 off := by
  rw [Bytes.le64, Bytes.le64, Bytes.slice_pread (le_trans hoff hread), Nat.zero_add]

/-- A header page that was read has the file's fields. -/
theorem header_pread {shard : Bytes} {got : ℕ} (hread : page ≤ (shard.pread 0 page got).length) :
    headerMagic (shard.pread 0 page got) = headerMagic shard ∧
      headerLayer (shard.pread 0 page got) = headerLayer shard ∧
      headerLo (shard.pread 0 page got) = headerLo shard ∧
      headerHi (shard.pread 0 page got) = headerHi shard ∧
      headerRows (shard.pread 0 page got) = headerRows shard ∧
      headerRowBytes (shard.pread 0 page got) = headerRowBytes shard :=
  ⟨le64_header hread 0 (by decide), le64_header hread 8 (by decide),
    le64_header hread 16 (by decide), le64_header hread 24 (by decide),
    le64_header hread 32 (by decide), le64_header hread 40 (by decide)⟩

/-- What `row_store_attach_packed` accepts: a shard with this rank's range in
its header, attached with nothing else changed. -/
theorem rowStoreAttachPacked_eq_some {shard : Bytes} {layerId got : ℕ} {r : Store × Bool}
    (h : rowStoreAttachPacked s (some shard) layerId got = some r) :
    r = ({ s with packed := some shard }, true) ∧ headerLo shard = s.rowLo ∧
      headerHi shard = s.rowHi ∧ packedHeader + (s.rowHi - s.rowLo) * rowBytes ≤ shard.length := by
  rw [rowStoreAttachPacked] at h
  split_ifs at h with hshort hheader hlength
  obtain ⟨-, -, hlo', hhi', -⟩ := header_pread (Nat.le_of_not_lt hshort)
  rw [hlo', hhi'] at hheader hlength
  push Not at hheader
  obtain ⟨-, -, hlo, hhi, -⟩ := hheader
  exact ⟨(Option.some.inj h).symm, hlo, hhi, by rw [← hlo, ← hhi]; omega⟩

/-- A shard with this rank's header and all its records is accepted, once its
header page is read. -/
theorem rowStoreAttachPacked_accepts {shard : Bytes} {layerId got : ℕ} (hgot : page ≤ got)
    (hfields : headerMagic shard = packedMagic ∧ headerLayer shard = layerId ∧
      headerLo shard = s.rowLo ∧ headerHi shard = s.rowHi ∧ headerRows shard = s.table.rows ∧
      headerRowBytes shard = rowBytes)
    (hsize : packedHeader + (s.rowHi - s.rowLo) * rowBytes ≤ shard.length) :
    rowStoreAttachPacked s (some shard) layerId got
      = some ({ s with packed := some shard }, true) := by
  have hpage : 0 + page ≤ shard.length := by
    rw [Nat.zero_add]
    exact le_trans (Nat.le_add_right packedHeader _) hsize
  have hread : (shard.pread 0 page got).length = page := Bytes.length_pread_full hgot hpage
  obtain ⟨hmagic, hlayer, hlo, hhi, hrows, hbytes⟩ := header_pread hread.ge
  obtain ⟨hmagic', hlayer', hlo', hhi', hrows', hbytes'⟩ := hfields
  simp only [rowStoreAttachPacked]
  rw [if_neg (by omega), if_neg, if_neg]
  · rw [hhi, hlo, hhi', hlo']
    exact Nat.not_lt.mpr hsize
  · push Not
    exact ⟨hmagic.trans hmagic', hlayer.trans hlayer', hlo.trans hlo', hhi.trans hhi',
      hrows.trans hrows', hbytes.trans hbytes'⟩

/-- Attaching a shard whose records are right keeps the store right. -/
theorem Store.Backed.attachPacked (h : s.Backed) {file : Option Bytes} {layerId got : ℕ}
    {r : Store × Bool} (hright : ∀ shard, file = some shard → s.table.PackedRight shard)
    (hcall : rowStoreAttachPacked s file layerId got = some r) : r.1.Backed := by
  cases file with
  | none =>
    rw [← Option.some.inj hcall]
    exact h
  | some shard =>
    obtain ⟨rfl, hlo, hhi, -⟩ := rowStoreAttachPacked_eq_some hcall
    refine ⟨h.lo_le, h.hi_le, h.ways_pos, h.scales, fun shard' hshard => ?_, h.cache⟩
    obtain rfl := Option.some.inj hshard
    exact ⟨hright _ rfl, fun _ => ⟨hlo.symm, hhi.ge⟩⟩

end RowStore
