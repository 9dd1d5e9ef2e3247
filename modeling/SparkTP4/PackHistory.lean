import SparkTP4.PackEngram

/-!
# Packing into one directory, run after run

The packed files of a node outlive a run of `scripts/pack_engram.py`, and a checkpoint. A
run goes through its file operations one by one (`Directory.next`): it truncates the partial
file and writes the header and the chunks to it, syncs it, and renames it over its target; it
may be interrupted after any of them. A run that finds a target of the expected size returns
it as it is.

The header names the layer, the range and the number of rows, and nothing of their content.
What a run returns is therefore served right exactly when the file that it has found, if
it takes it over, is not the shard of another checkpoint with the same geometry
(`serves_iff`).
-/

open RowStore

namespace PackEngram

/-- A run of `pack_layer`, with what its raw reads and writes transfer. -/
structure Run where
  T : Table
  layerId : ℕ
  rank : ℕ
  tp : ℕ
  chunkRows : ℕ
  io : RawIO

namespace Run

variable (r : Run)

def lo : ℕ := rankLo r.T.rows r.tp r.rank

def hi : ℕ := rankHi r.T.rows r.tp r.rank

/-- What the name of the target says: `engram-l{layer_id}-r{rank}of{tp}.bin`. -/
def target : ℕ × ℕ × ℕ := (r.layerId, r.rank, r.tp)

/-- The expected size. -/
def expected : ℕ := packedHeader + (r.hi - r.lo) * rowBytes

/-- The number of turns of the loop. -/
def chunks : ℕ := (r.hi - r.lo + r.chunkRows - 1) / r.chunkRows

/-- The check of the skip path. -/
def skips (found : Option Bytes) : Bool := found.any fun file => file.length == r.expected

end Run

/-- How far a run has come: what it does next. -/
inductive Stage where
  | header
  | chunk (k : ℕ)
  | rename
  | done

/-- A run that has not skipped, with the header that it has packed. -/
structure Progress where
  run : Run
  page : Bytes
  stage : Stage
  /-- record of the run: the target file at its start -/
  found : Option Bytes

structure Directory where
  targets : ℕ × ℕ × ℕ → Option Bytes
  /-- the files with the suffix `.partial` -/
  partials : ℕ × ℕ × ℕ → Option Bytes
  running : Option Progress
  /-- record: the run that has just returned, and the target file at its start -/
  returned : Option (Run × Option Bytes)

namespace Directory

/-- The directory before the first run. -/
def empty : Directory := ⟨fun _ => none, fun _ => none, none, none⟩

/-- The run raises or is interrupted; its partial file stays. -/
def leave (D : Directory) : Directory := { D with running := none, returned := none }

/-- A run begins: it takes the target over, fails before its first file operation, or opens
its partial file. -/
def start (D : Directory) (r : Run) : Directory :=
  if r.tp = 0 then D.leave
  else if r.skips (D.targets r.target) then
    { D with returned := some (r, D.targets r.target) }
  else
    match header r.layerId r.lo r.hi r.T.rows with
    | none => D.leave
    | some page =>
      { D with
        partials := Function.update D.partials r.target (some [])
        running := some ⟨r, page, .header, D.targets r.target⟩
        returned := none }

/-- The next file operation of the run; `range` refuses chunks of no row. -/
def next (D : Directory) (p : Progress) : Directory :=
  let r := p.run
  let dst := (D.partials r.target).getD []
  match p.stage with
  | .header =>
    { D with
      partials := Function.update D.partials r.target
        (some (dst ++ p.page.take (r.io.write 0 packedHeader)))
      running := some { p with stage := .chunk 0 } }
  | .chunk k =>
    if r.chunkRows = 0 then D.leave
    else if k < r.chunks then
      match packChunk r.T r.io r.lo r.hi r.chunkRows k dst with
      | none => D.leave
      | some dst' =>
        { D with
          partials := Function.update D.partials r.target (some dst')
          running := some { p with stage := .chunk (k + 1) } }
    else { D with running := some { p with stage := .rename } }
  | .rename =>
    { D with
      targets := Function.update D.targets r.target (some dst)
      partials := Function.update D.partials r.target none
      running := some { p with stage := .done } }
  | .done => { D with running := none, returned := some (r, p.found) }

inductive Op where
  | start (r : Run)
  | next
  | interrupt

/-- The runs come one after the other. -/
def step (D : Directory) : Op → Option Directory
  | .start r => if D.running.isSome then none else some (D.start r)
  | .next => D.running.map D.next
  | .interrupt => if D.running.isSome then some D.leave else none

/-! ## What a run leaves -/

/-- The target of a run that has not skipped: what `pack_layer` makes without an old target. -/
def Packed (r : Run) (file : Option Bytes) : Prop :=
  1 ≤ r.chunkRows ∧ ∃ shard, file = some shard ∧
    packLayer r.T r.layerId r.rank r.tp r.chunkRows r.io none = some shard

/-- **A run that has returned** has taken the target over, or packed it. -/
structure Right (D : Directory) : Prop where
  running : ∀ p, D.running = some p → p.run.skips p.found = false ∧
    header p.run.layerId p.run.lo p.run.hi p.run.T.rows = some p.page ∧
    match p.stage with
    | .header => D.partials p.run.target = some []
    | .chunk k => (1 ≤ p.run.chunkRows → k ≤ p.run.chunks) ∧
        ∃ dst, D.partials p.run.target = some dst ∧
          packLoop p.run.T p.run.io p.run.lo p.run.hi p.run.chunkRows
            (p.page.take (p.run.io.write 0 packedHeader)) k = some dst
    | .rename => Packed p.run (D.partials p.run.target)
    | .done => Packed p.run (D.targets p.run.target)
  returned : ∀ r found, D.returned = some (r, found) →
    r.skips found = true ∧ D.targets r.target = found ∨
      r.skips found = false ∧ Packed r (D.targets r.target)
  exclusive : D.running = none ∨ D.returned = none

variable {D D' : Directory}

theorem Right.leave (D : Directory) : D.leave.Right where
  running _ h := by cases h
  returned _ _ h := by cases h
  exclusive := .inl rfl

theorem Right.start (D : Directory) (r : Run) (hidle : D.running = none) : (D.start r).Right := by
  unfold Directory.start
  split_ifs with htp hskips
  · exact .leave D
  · refine ⟨fun p hp => ?_, fun q found hreturned => ?_, .inl hidle⟩
    · rw [hidle] at hp
      cases hp
    · obtain ⟨rfl, rfl⟩ := Prod.mk.inj (Option.some.inj hreturned)
      exact .inl ⟨hskips, rfl⟩
  · split
    · exact .leave D
    · rename_i page hpage
      refine ⟨fun p hp => ?_, fun q found hreturned => (by cases hreturned), .inr rfl⟩
      obtain rfl := Option.some.inj hp
      exact ⟨Bool.eq_false_iff.mpr hskips, hpage, Function.update_self ..⟩

/-- The loop's turns make `pack_layer`. -/
theorem packed_of_packLoop {r : Run} {page dst : Bytes}
    (hchunk : 1 ≤ r.chunkRows) (hpage : header r.layerId r.lo r.hi r.T.rows = some page)
    (hloop : packLoop r.T r.io r.lo r.hi r.chunkRows (page.take (r.io.write 0 packedHeader))
      r.chunks = some dst) : Packed r (some dst) := by
  refine ⟨hchunk, dst, rfl, ?_⟩
  unfold packLayer
  show (header r.layerId r.lo r.hi r.T.rows).bind _ = some dst
  rw [hpage]
  exact hloop

/-- **A file operation keeps it.** -/
theorem Right.next (h : D.Right) {p : Progress} (hp : D.running = some p) : (D.next p).Right := by
  have hidle : D.returned = none := h.exclusive.resolve_left (by rw [hp]; exact Option.some_ne_none p)
  obtain ⟨hskips, hpage, hstage⟩ := h.running p hp
  unfold Directory.next
  dsimp only
  split
  · rename_i hs
    rw [hs] at hstage
    refine ⟨fun q hq => ?_, fun r found hr => ?_, .inr hidle⟩
    · obtain rfl := Option.some.inj hq
      refine ⟨hskips, hpage, fun _ => Nat.zero_le _, _, Function.update_self .., ?_⟩
      rw [hstage]
      rfl
    · rw [hidle] at hr
      cases hr
  · rename_i k hs
    rw [hs] at hstage
    obtain ⟨hk, dst, hdst, hloop⟩ := hstage
    split_ifs with hzero hlt
    · exact .leave D
    · split
      · exact .leave D
      · rename_i dst' hchunk
        rw [hdst] at hchunk
        refine ⟨fun q hq => ?_, fun r found hr => ?_, .inr hidle⟩
        · obtain rfl := Option.some.inj hq
          refine ⟨hskips, hpage, fun _ => hlt, dst', Function.update_self .., ?_⟩
          show (packLoop _ _ _ _ _ _ k).bind _ = some dst'
          rw [hloop]
          exact hchunk
        · rw [hidle] at hr
          cases hr
    · refine ⟨fun q hq => ?_, fun r found hr => ?_, .inr hidle⟩
      · obtain rfl := Option.some.inj hq
        have hone : 1 ≤ p.run.chunkRows := Nat.one_le_iff_ne_zero.mpr hzero
        obtain rfl : k = p.run.chunks := le_antisymm (hk hone) (not_lt.mp hlt)
        refine ⟨hskips, hpage, ?_⟩
        show Packed p.run (D.partials p.run.target)
        rw [hdst]
        exact packed_of_packLoop hone hpage hloop
      · rw [hidle] at hr
        cases hr
  · rename_i hs
    rw [hs] at hstage
    obtain ⟨hone, shard, hshard, hpack⟩ := hstage
    refine ⟨fun q hq => ?_, fun r found hr => ?_, .inr hidle⟩
    · obtain rfl := Option.some.inj hq
      refine ⟨hskips, hpage, hone, shard, ?_, hpack⟩
      show Function.update D.targets _ _ _ = _
      rw [Function.update_self, hshard]
      rfl
    · rw [hidle] at hr
      cases hr
  · rename_i hs
    rw [hs] at hstage
    refine ⟨fun q hq => (by cases hq), fun r found hr => ?_, .inl rfl⟩
    obtain ⟨rfl, rfl⟩ := Prod.mk.inj (Option.some.inj hr)
    exact .inr ⟨hskips, hstage⟩

/-- **Whatever runs there have been**, and wherever they were interrupted. -/
theorem Right.reachable (h : Transition.Reachable step (fun _ _ => True) empty D) : D.Right := by
  refine h.invariant Right ⟨fun _ h => (by cases h), fun _ _ h => (by cases h), .inl rfl⟩
    fun D op D' hright _ hstep => ?_
  cases op with
  | start r =>
    obtain ⟨hidle, hstep⟩ := Option.ite_none_left_eq_some.mp hstep
    obtain rfl := Option.some.inj hstep
    exact .start D r (Option.not_isSome_iff_eq_none.mp hidle)
  | next =>
    obtain ⟨p, hp, rfl⟩ := Option.map_eq_some_iff.mp hstep
    exact hright.next hp
  | interrupt =>
    obtain ⟨-, hstep⟩ := Option.ite_none_right_eq_some.mp hstep
    obtain rfl := Option.some.inj hstep
    exact .leave D

end Directory

/-! ## One lookup through an attached shard -/

/-- A row of the shard is read whole when the device hands over two pages. -/
theorem readFrom_shard {shard : Bytes} {off : ℕ} (hfit : off + rowBytes ≤ shard.length) :
    readFrom false shard off rowBytes (2 * page) = some (shard.slice off rowBytes) := by
  cases hread : readFrom false shard off rowBytes (2 * page) with
  | some b => rw [readFrom_eq hread]
  | none =>
    unfold readFrom at hread
    simp only [Bool.false_eq_true, if_false] at hread
    split_ifs at hread with hshort
    unfold Bytes.pread at hshort
    rw [Bytes.length_slice] at hshort
    unfold page rowBytes at hshort
    unfold rowBytes at hfit
    omega

/-- The literals of the thread below. -/
theorem thread_neZero : NeZero 1 := inferInstance

attribute [local instance] thread_neZero

/-- The steps of a lookup of one row by one thread. -/
def lookupOne (id : ℕ) : List (Action 1) :=
  [.lookup [(id : ℤ)], .take 0, .probe 0, .read 0 (2 * page) 0, .fill 0]

/-- **A lookup serves the bytes of the shard**, whatever they are. -/
theorem lookup_serves_shard {s : Store} {shard : Bytes} {id : ℕ} (hpacked : s.packed = some shard)
    (hsets : s.sets = 0) (hlo : s.rowLo ≤ id) (hhi : id < s.rowHi) (hrows : id < s.table.rows)
    (hfit : packedHeader + (id - s.rowLo) * rowBytes + rowBytes ≤ shard.length) :
    ∃ m, Transition.run Machine.step (Machine.init 1 s) (lookupOne id) = some m ∧
      m.ids[0]? = some (id : ℤ) ∧
      m.out 0 = some (Machine.split (shard.slice (packedHeader + (id - s.rowLo) * rowBytes) rowBytes)) := by
  have hprobe : s.probe id = none := if_pos hsets
  have hread : s.readRow id (2 * page) 0 =
      some (shard.slice (packedHeader + (id - s.rowLo) * rowBytes) rowBytes) := by
    unfold Store.readRow
    rw [hpacked]
    exact readFrom_shard hfit
  have hquiet : (Machine.init 1 s).quiescent := ⟨le_rfl, fun _ => rfl⟩
  let m₁ : Machine 1 := { Machine.init 1 s with ids := [(id : ℤ)], next := 0, out := fun _ => none }
  let m₂ : Machine 1 := { m₁ with next := 1 }.goto 0 (.probing 0 id)
  let m₃ : Machine 1 := m₂.goto 0 (.reading 0 id)
  let row := shard.slice (packedHeader + (id - s.rowLo) * rowBytes) rowBytes
  let m₄ : Machine 1 := m₃.goto 0 (.filling 0 id row)
  let m₅ : Machine 1 :=
    ({ m₄ with store := m₄.store.fill id row }.write 0 (Machine.split row)).goto 0 .idle
  have hlookup : (Machine.init 1 s).step (.lookup [(id : ℤ)]) = some m₁ := by
    simp only [Machine.step]
    rw [if_pos hquiet]
  have htake : m₁.step (.take 0) = some m₂ := by
    have hbounds : ¬((id : ℤ) < 0 ∨ s.table.rows ≤ (id : ℤ).toNat) := by
      rw [Int.toNat_natCast]
      omega
    have howned : ¬((id : ℤ).toNat < s.rowLo ∨ s.rowHi ≤ (id : ℤ).toNat) := by
      rw [Int.toNat_natCast]
      omega
    exact (if_neg hbounds).trans (if_neg howned)
  have hprobed : m₂.step (.probe 0) = some m₃ := by
    simp only [Machine.step, Machine.probe, m₂, Machine.goto_phase_self]
    have hmiss : m₂.store.probe id = none := hprobe
    dsimp only [m₂] at hmiss ⊢
    rw [hmiss]
  have hreadStep : m₃.step (.read 0 (2 * page) 0) = some m₄ := by
    show (s.readRow id (2 * page) 0).map _ = some m₄
    rw [hread]
    rfl
  have hfill : m₄.step (.fill 0) = some m₅ := rfl
  refine ⟨m₅, ?_, rfl, rfl⟩
  unfold lookupOne
  simp only [Transition.run, hlookup, htake, hprobed, hreadStep, hfill, Option.bind_some]

/-! ## What is served -/

/-- The header of the file has the layer, the range and the number of rows of the run. -/
def Run.Geometry (r : Run) (file : Bytes) : Prop :=
  headerMagic file = packedMagic ∧ headerLayer file = r.layerId ∧ headerLo file = r.lo ∧
    headerHi file = r.hi ∧ headerRows file = r.T.rows ∧ headerRowBytes file = rowBytes

/-- **The target that a run finds is not stale**: if it has the expected size and the geometry
of the run, its records are the rows of the run's checkpoint. -/
def Run.Fresh (r : Run) (found : Option Bytes) : Prop :=
  ∀ file, found = some file → file.length = r.expected → r.Geometry file → r.T.PackedRight file

/-- **The target is served right**: a store over the run's checkpoint that owns the run's range
either aborts when the target is attached, or takes it and every row that a lookup
writes is the checkpoint's, zeros for the rows of other ranks. -/
def Directory.Serves (D : Directory) (r : Run) : Prop :=
  ∀ (budget cacheWays got : ℕ) (ram residentScales : Bool) (gots : Option (List ℕ)) (s₀ s₁ : Store),
    rowStoreOpen r.T.file r.T.rows r.T.weightOffset r.T.scaleOffset budget ram cacheWays = some s₀ →
    rowStoreRange s₀ r.lo r.hi residentScales gots = some s₁ →
    rowStoreAttachPacked s₁ (D.targets r.target) r.layerId got = none ∨
      ∃ s₂, rowStoreAttachPacked s₁ (D.targets r.target) r.layerId got = some (s₂, true) ∧
        ∀ (threads : ℕ) (m : Machine threads),
          Transition.Reachable Machine.step (fun _ a => a.IsLookup) (Machine.init threads s₂) m →
          ∀ index id row, m.ids[index]? = some id → m.out index = some row →
            row = r.T.owned r.lo r.hi id.toNat

theorem rowStoreOpen_over {T : Table} {budget cacheWays : ℕ} {ram : Bool} {s : Store}
    (h : rowStoreOpen T.file T.rows T.weightOffset T.scaleOffset budget ram cacheWays = some s) :
    s.table = T := by
  obtain ⟨hfile, hrows, hweight, hscale, -⟩ := rowStoreOpen_table h
  obtain ⟨T', _⟩ := s
  cases T'
  cases T
  simp only at hfile hrows hweight hscale
  subst hfile hrows hweight hscale
  rfl

/-- What an attached shard has in its header. -/
theorem attachPacked_geometry {s : Store} {shard : Bytes} {layerId got : ℕ} {a : Store × Bool}
    (h : rowStoreAttachPacked s (some shard) layerId got = some a) :
    headerMagic shard = packedMagic ∧ headerLayer shard = layerId ∧ headerLo shard = s.rowLo ∧
      headerHi shard = s.rowHi ∧ headerRows shard = s.table.rows ∧ headerRowBytes shard = rowBytes := by
  rw [rowStoreAttachPacked] at h
  split_ifs at h with hshort hheader
  obtain ⟨hmagic, hlayer, hlo, hhi, hrows, hbytes⟩ := header_pread (Nat.le_of_not_lt hshort)
  rw [hmagic, hlayer, hlo, hhi, hrows, hbytes] at hheader
  push Not at hheader
  exact hheader

/-- What a store that attaches a right target serves. -/
theorem Directory.serves_of_right {D : Directory} {r : Run} {file : Bytes}
    (htarget : D.targets r.target = some file)
    (hright : r.hi ≤ r.T.rows → r.Geometry file → packedHeader + (r.hi - r.lo) * rowBytes ≤ file.length →
      r.T.PackedRight file) :
    D.Serves r := by
  intro budget cacheWays got ram residentScales gots s₀ s₁ hopen hrange
  rw [htarget]
  have htable := rowStoreOpen_over hopen
  obtain ⟨-, hrows, -, scales, rfl, -⟩ := rowStoreRange_eq_some hrange
  cases hattach : rowStoreAttachPacked _ (some file) r.layerId got with
  | none => exact .inl rfl
  | some a =>
    have hgeometry := attachPacked_geometry hattach
    obtain ⟨rfl, -, -, hsize⟩ := rowStoreAttachPacked_eq_some hattach
    rw [htable] at hrows hgeometry
    have hfile := hright hrows hgeometry hsize
    refine .inr ⟨_, rfl, fun threads m hm index id row hid hrow => ?_⟩
    have hlookup := lookup_transparent hopen hrange
      (fun f hf => by rw [htable]; exact Option.some.inj hf ▸ hfile) hattach hm
    rw [← htable]
    exact (hlookup.1 index id row hid hrow).2.2

/-- **A packed target is served right.** -/
theorem Directory.serves_of_packed {D : Directory} {r : Run} (hrank : r.rank < r.tp)
    (hpacked : Packed r (D.targets r.target)) : D.Serves r := by
  obtain ⟨hone, shard, htarget, hpack⟩ := hpacked
  exact Directory.serves_of_right htarget fun _ _ hsize => (packLayer_right hone hrank hpack hsize).1

/-- **A target that was taken over and is not stale is served right.** -/
theorem Directory.serves_of_fresh {D : Directory} {r : Run} {found : Option Bytes}
    (htarget : D.targets r.target = found) (hskips : r.skips found = true) (hfresh : r.Fresh found) :
    D.Serves r := by
  obtain ⟨file, rfl, hlength⟩ := (Option.any_eq_true _ _).mp hskips
  exact Directory.serves_of_right htarget fun _ hgeometry _ =>
    hfresh file rfl (eq_of_beq hlength) hgeometry

/-- **A rank that is not one of the `tp` ranks** has no row of the table: its range is empty,
or the store refuses it. -/
theorem Directory.serves_of_outside {D : Directory} {r : Run} {file : Bytes}
    (htarget : D.targets r.target = some file) (hrank : ¬r.rank < r.tp) : D.Serves r := by
  refine Directory.serves_of_right htarget fun hrows hgeometry _ id hlo hhi => ?_
  obtain ⟨-, -, hfileLo, hfileHi, -⟩ := hgeometry
  rw [hfileLo] at hlo
  rw [hfileHi] at hhi
  obtain htp | htp := Nat.eq_zero_or_pos r.tp
  · unfold Run.hi rankHi at hhi
    rw [htp, Nat.div_zero] at hhi
    exact absurd hhi (Nat.not_lt_zero id)
  · have hstart : rankLo r.T.rows r.tp r.tp ≤ r.lo := rankLo_mono r.T.rows r.tp (not_lt.mp hrank)
    rw [rankLo_tp r.T.rows r.tp htp] at hstart
    omega

/-- A store without a cache opens over every table. -/
theorem rowStoreOpen_bare (T : Table) : ∃ s,
    rowStoreOpen T.file T.rows T.weightOffset T.scaleOffset 0 false 1 = some s ∧
      s.table = T ∧ s.sets = 0 ∧ s.scales = none := by
  have hweights := T.weightsFit
  have hscales := T.scalesFit
  have hfit : ¬(T.weightOffset > T.file.length ∨ T.scaleOffset > T.file.length ∨
      T.rows > (T.file.length - T.weightOffset) / weightBytes ∨
      T.rows > (T.file.length - T.scaleOffset) / scaleBytes) := by
    have hw := (Nat.le_div_iff_mul_le (by decide)).mpr (Nat.le_sub_of_add_le' hweights)
    have hs := (Nat.le_div_iff_mul_le (by decide)).mpr (Nat.le_sub_of_add_le' hscales)
    omega
  refine ⟨_, dif_neg hfit, rfl, ?_, rfl⟩
  exact Nat.zero_div _

/-- **A stale target is served**: a lookup of each of its rows shows what it holds. -/
theorem Directory.fresh_of_serves {D : Directory} {r : Run} {found : Option Bytes}
    (hrank : r.rank < r.tp) (htarget : D.targets r.target = found) (h : D.Serves r) :
    r.Fresh found := by
  rintro file rfl hlength ⟨hmagic, hlayer, hlo, hhi, hrows, hbytes⟩
  obtain ⟨s₀, hopen, htable, hsets, hscales⟩ := rowStoreOpen_bare r.T
  have hle : r.lo ≤ r.hi := rankLo_mono r.T.rows r.tp (Nat.le_succ r.rank)
  have hhiRows : r.hi ≤ r.T.rows := rankHi_le hrank
  have hrange : rowStoreRange s₀ r.lo r.hi false none = some { s₀ with rowLo := r.lo, rowHi := r.hi } := by
    unfold rowStoreRange
    rw [if_neg (by rw [htable]; omega), if_neg (by rw [hscales]; simp)]
    exact if_neg fun hand => Bool.noConfusion hand.2.2
  have hattach : rowStoreAttachPacked { s₀ with rowLo := r.lo, rowHi := r.hi } (some file) r.layerId page =
      some ({ s₀ with rowLo := r.lo, rowHi := r.hi, packed := some file }, true) :=
    rowStoreAttachPacked_accepts le_rfl
      ⟨hmagic, hlayer, hlo, hhi, hrows.trans (congrArg Table.rows htable.symm), hbytes⟩ hlength.ge
  obtain hnone | ⟨s₂, hs₂, hlookups⟩ := h 0 1 page false false none s₀ _ hopen hrange
  · rw [htarget, hattach] at hnone
    cases hnone
  · rw [htarget, hattach] at hs₂
    obtain rfl := (Prod.mk.inj (Option.some.inj hs₂)).1
    intro id hidlo hidhi
    rw [hlo] at hidlo ⊢
    rw [hhi] at hidhi
    have hfit : packedHeader + (id - r.lo) * rowBytes + rowBytes ≤ file.length := by
      rw [hlength, Nat.add_assoc, ← Nat.succ_mul]
      exact Nat.add_le_add_left (Nat.mul_le_mul_right _ (by omega)) _
    obtain ⟨m, hrun, hids, hout⟩ := lookup_serves_shard
      (s := { s₀ with rowLo := r.lo, rowHi := r.hi, packed := some file }) rfl hsets hidlo hidhi
      (by rw [htable]; omega) hfit
    have hallowed : Transition.AllowedRun Machine.step (fun _ a => a.IsLookup)
        (Machine.init 1 { s₀ with rowLo := r.lo, rowHi := r.hi, packed := some file }) (lookupOne id) :=
      ⟨trivial, fun _ _ => ⟨trivial, fun _ _ => ⟨trivial, fun _ _ => ⟨trivial, fun _ _ =>
        ⟨trivial, fun _ _ => trivial⟩⟩⟩⟩⟩
    have hrow := hlookups 1 m (.of_run hrun hallowed) 0 id _ hids hout
    unfold Table.owned at hrow
    rw [Int.toNat_natCast, if_pos ⟨hidlo, hidhi⟩] at hrow
    obtain ⟨hweight, hscale⟩ := Row.mk.inj hrow
    unfold Table.record
    rw [← hweight, ← hscale, List.take_append_drop]

/-- **A shard of another checkpoint** that was packed in full and has the expected size is
stale exactly if the checkpoint has as many rows and another row in the range. -/
theorem Run.fresh_iff_of_packed {r r' : Run} {file : Bytes} (hname : r'.target = r.target)
    (hrank : r.rank < r.tp) (hpacked : Directory.Packed r' (some file)) (hfull : file.length = r'.expected)
    (hsize : file.length = r.expected) : r.Fresh (some file) ↔
      (r'.T.rows = r.T.rows → ∀ id, r.lo ≤ id → id < r.hi → r'.T.record id = r.T.record id) := by
  obtain ⟨hlayer, hname⟩ := Prod.mk.inj hname
  obtain ⟨hrankEq, htp⟩ := Prod.mk.inj hname
  obtain ⟨hone, shard, hshard, hpack⟩ := hpacked
  obtain rfl := Option.some.inj hshard
  obtain ⟨hright, hmagic, hlayer', hlo, hhi, hrows, hbytes⟩ :=
    packLayer_right hone (by rw [hrankEq, htp]; exact hrank) hpack (Nat.le_of_eq hfull.symm)
  have hrange (heq : r'.T.rows = r.T.rows) : headerLo file = r.lo ∧ headerHi file = r.hi := by
    rw [hlo, hhi, heq, hrankEq, htp]
    exact ⟨rfl, rfl⟩
  constructor
  · intro hfresh heq id hidlo hidhi
    obtain ⟨hlo', hhi'⟩ := hrange heq
    have hgeometry : r.Geometry file :=
      ⟨hmagic, hlayer'.trans hlayer, hlo', hhi', hrows.trans heq, hbytes⟩
    rw [← hlo'] at hidlo
    rw [← hhi'] at hidhi
    exact (hright id hidlo hidhi).symm.trans (hfresh file rfl hsize hgeometry id hidlo hidhi)
  · rintro hagree f hf - ⟨-, -, hlo', hhi', hrows', -⟩ id hidlo hidhi
    obtain rfl := Option.some.inj hf
    rw [hright id hidlo hidhi]
    exact hagree (hrows.symm.trans hrows') id (hlo' ▸ hidlo) (hhi' ▸ hidhi)

/-- **What the history of a directory can do to a run.** Whatever runs there have been, for
whatever checkpoints, and wherever they were interrupted: the target that one of the `tp` ranks
returns is served right if and only if the target that it had found was not stale. -/
theorem serves_iff {D : Directory}
    (h : Transition.Reachable Directory.step (fun _ _ => True) Directory.empty D) {r : Run}
    {found : Option Bytes} (hreturned : D.returned = some (r, found)) :
    D.Serves r ↔ (r.rank < r.tp → r.Fresh found) := by
  have hright := (Directory.Right.reachable h).returned r found hreturned
  by_cases hrank : r.rank < r.tp
  · obtain ⟨hskips, htarget⟩ | ⟨hskips, hpacked⟩ := hright
    · exact ⟨fun hserves _ => Directory.fresh_of_serves hrank htarget hserves,
        fun hfresh => Directory.serves_of_fresh htarget hskips (hfresh hrank)⟩
    · refine ⟨fun _ _ file hfound hlength => ?_, fun _ => Directory.serves_of_packed hrank hpacked⟩
      rw [hfound] at hskips
      exact absurd (beq_iff_eq.mpr hlength) (Bool.eq_false_iff.mp hskips)
  · have hexists : ∃ file, D.targets r.target = some file := by
      obtain ⟨hskips, htarget⟩ | ⟨-, -, shard, hshard, -⟩ := hright
      · obtain ⟨file, hfile, -⟩ := (Option.any_eq_true _ _).mp hskips
        exact ⟨file, htarget.trans hfile⟩
      · exact ⟨shard, hshard⟩
    obtain ⟨file, hfile⟩ := hexists
    exact ⟨fun _ hlt => absurd hlt hrank, fun _ => Directory.serves_of_outside hfile hrank⟩

/-! ## Two checkpoints in one directory -/

/-- The table of ones and twos. -/
def firstTable : Table := ⟨twoRows, 2, 0, 512, by decide +kernel, by decide +kernel⟩

/-- A table of the same geometry, of threes and fours. -/
def secondTable : Table :=
  ⟨(List.range 2).flatMap (fun i => List.replicate weightBytes (UInt8.ofNat (i + 3))) ++
    (List.range 2).flatMap (fun i => List.replicate scaleBytes (UInt8.ofNat (i + 3))),
    2, 0, 512, by decide +kernel, by decide +kernel⟩

/-- The first of two ranks packs its row of layer 1. -/
def packFirstRow (T : Table) : Run := ⟨T, 1, 0, 2, 1, ⟨fun _ n => n, fun _ n => n⟩⟩

/-- A run that is interrupted in its chunk, and one that completes. -/
def firstRuns : List Directory.Op :=
  [.start (packFirstRow secondTable), .next, .next, .interrupt, .start (packFirstRow firstTable),
    .next, .next, .next, .next, .next]

theorem firstRuns_packed : ∃ D,
    Transition.Reachable Directory.step (fun _ _ => True) Directory.empty D ∧ D.running = none ∧
      D.targets (1, 0, 2) = some firstRowShard := by
  have h : ((Transition.run Directory.step Directory.empty firstRuns).any fun D =>
      D.running.isNone && D.targets (1, 0, 2) == some firstRowShard) = true := by decide +kernel
  obtain ⟨D, hrun, h⟩ := (Option.any_eq_true _ _).mp h
  obtain ⟨hidle, htarget⟩ := (Bool.and_eq_true _ _).mp h
  exact ⟨D, .of_run hrun (Transition.allowedRun_of_forall (fun _ _ => trivial) _ _),
    Option.isNone_iff_eq_none.mp hidle, beq_iff_eq.mp htarget⟩

/-- A second run finds the shard of the first, whatever its checkpoint. -/
theorem start_packFirstRow {D : Directory} (T : Table)
    (hskips : (packFirstRow T).skips (some firstRowShard) = true) (hidle : D.running = none) (htarget : D.targets (1, 0, 2) = some firstRowShard) :
    D.step (.start (packFirstRow T)) =
      some { D with returned := some (packFirstRow T, some firstRowShard) } := by
  have hfound : D.targets (packFirstRow T).target = some firstRowShard := htarget
  show (if D.running.isSome then none else some (D.start (packFirstRow T))) = _
  unfold Directory.start
  have htp : (packFirstRow T).tp ≠ 0 := Nat.succ_ne_zero 1
  rw [if_neg (by rw [hidle]; exact Bool.false_ne_true), hfound, if_neg htp, if_pos hskips]

/-- The same checkpoint packed once more. -/
theorem serves_iff_again : ∃ D,
    Transition.Reachable Directory.step (fun _ _ => True) Directory.empty D ∧
      D.returned = some (packFirstRow firstTable, some firstRowShard) ∧
      D.Serves (packFirstRow firstTable) := by
  obtain ⟨D, hreachable, hidle, htarget⟩ := firstRuns_packed
  have hstep := start_packFirstRow firstTable (by decide +kernel) hidle htarget
  have hreachable' := Transition.Reachable.step hreachable trivial hstep
  refine ⟨_, hreachable', rfl, (serves_iff hreachable' rfl).mpr fun _ file hfile _ _ => ?_⟩
  obtain rfl := Option.some.inj hfile
  have hopen : twoRowStore.isSome := by decide +kernel
  obtain ⟨s, hs⟩ := Option.isSome_iff_exists.mp hopen
  have htable : s.table = firstTable := rowStoreOpen_over (T := firstTable) hs
  rw [← htable]
  exact firstRowShard_right hs

/-- **A stale shard is served**: a run for the second checkpoint takes over what a run for the
first has packed. -/
theorem stale_shard_served : ∃ D r found,
    Transition.Reachable Directory.step (fun _ _ => True) Directory.empty D ∧
      D.returned = some (r, found) ∧ r.rank < r.tp ∧ ¬D.Serves r := by
  obtain ⟨D, hreachable, hidle, htarget⟩ := firstRuns_packed
  have hstep := start_packFirstRow secondTable (by decide +kernel) hidle htarget
  refine ⟨_, packFirstRow secondTable, some firstRowShard, .step hreachable trivial hstep, rfl,
    by decide, fun hserves => ?_⟩
  have hfresh := Directory.fresh_of_serves (by decide) htarget hserves
  have hgeometry : (packFirstRow secondTable).Geometry firstRowShard := by
    refine ⟨?_, ?_, ?_, ?_, ?_, ?_⟩ <;> decide +kernel
  have hright := hfresh firstRowShard rfl (by decide +kernel) hgeometry 0
    (by decide +kernel) (by decide +kernel)
  exact absurd hright (by decide +kernel)

end PackEngram
