import SparkTP4.RowStoreServe

/-!
# The call sequence of a row store

The invariant of a store that serves lookups is carried through the host
calls, and with it the two results about whole runs: after the start-up
calls every lookup is transparent, whatever the backing; and in a run whose
range calls stay with the attached shard, every lookup after any prefix of
the calls gives the table's rows.

`row_store_range` refuses to move the range under pinned scales, but not
under an attached shard, which is indexed relative to the range's start in
the same way. A range call that moves the range while a shard is attached
and no scales are pinned therefore makes later lookups return another row's
bytes.
-/

namespace RowStore

open Transition

variable {threads : ℕ}

namespace Action

/-- An attached shard's content is right for the range in its header. -/
def ContentRight (T : Table) : Action threads → Prop
  | .attachPacked file _ _ => ∀ shard, file = some shard → T.PackedRight shard
  | _ => True

/-- A range call stays with the attached shard. -/
def KeepsPackedRange (s : Store) : Action threads → Prop
  | .range lo hi _ _ => s.KeepsPackedRange lo hi
  | _ => True

/-- The steps of lookups, as opposed to host calls that set the store up. -/
def IsLookup : Action threads → Prop
  | .range _ _ _ _ => False
  | .attachPacked _ _ _ => False
  | _ => True

end Action

namespace Machine

variable {m m' : Machine threads}

/-- **Every step keeps the invariant**, for right shards and ranges that stay
with them. -/
theorem Serving.step (h : m.Serving) {a : Action threads}
    (hcontent : a.ContentRight m.store.table) (hkeeps : a.KeepsPackedRange m.store)
    (hstep : m.step a = some m') : m'.Serving := by
  cases a with
  | range lo hi residentScales gots =>
    simp only [Machine.step] at hstep
    split_ifs at hstep with hquiet
    obtain ⟨s, hs, rfl⟩ := Option.map_eq_some_iff.mp hstep
    exact Serving.returned hquiet (h.backed.range hkeeps hs)
  | attachPacked file layerId got =>
    simp only [Machine.step] at hstep
    split_ifs at hstep with hquiet
    obtain ⟨r, hr, rfl⟩ := Option.map_eq_some_iff.mp hstep
    exact Serving.returned hquiet (h.backed.attachPacked hcontent hr)
  | lookup ids =>
    simp only [Machine.step] at hstep
    split_ifs at hstep with hquiet
    obtain rfl := Option.some.inj hstep
    exact h.lookup hquiet ids
  | take t => exact h.take hstep
  | probe t => exact h.probe hstep
  | read t got got' => exact h.read hstep
  | fill t => exact h.fill hstep

/-- The steps of a lookup leave the table, the range and the pinned scales
alone. -/
theorem lookup_frame {a : Action threads} (ha : a.IsLookup) (hstep : m.step a = some m') :
    m'.store.table = m.store.table ∧ m'.store.rowLo = m.store.rowLo ∧
      m'.store.rowHi = m.store.rowHi := by
  cases a with
  | range lo hi residentScales gots => exact ha.elim
  | attachPacked file layerId got => exact ha.elim
  | lookup ids =>
    simp only [Machine.step] at hstep
    split_ifs at hstep
    rw [← Option.some.inj hstep]
    exact ⟨rfl, rfl, rfl⟩
  | take t =>
    simp only [Machine.step, Machine.take] at hstep
    split at hstep
    · split_ifs at hstep <;> rw [← Option.some.inj hstep] <;> exact ⟨rfl, rfl, rfl⟩
    · exact absurd hstep (by simp)
  | probe t =>
    simp only [Machine.step, Machine.probe] at hstep
    split at hstep
    · split at hstep <;> rw [← Option.some.inj hstep] <;> exact ⟨rfl, rfl, rfl⟩
    · exact absurd hstep (by simp)
  | read t got got' =>
    simp only [Machine.step, Machine.read] at hstep
    split at hstep
    · obtain ⟨row, -, rfl⟩ := Option.map_eq_some_iff.mp hstep
      exact ⟨rfl, rfl, rfl⟩
    · exact absurd hstep (by simp)
  | fill t =>
    simp only [Machine.step, Machine.fill] at hstep
    split at hstep
    · rw [← Option.some.inj hstep]
      obtain ⟨htable, hlo, hhi, -⟩ := m.store.fill_frame _ _
      exact ⟨htable, hlo, hhi⟩
    · exact absurd hstep (by simp)

/-- No step changes the table. -/
theorem step_table {a : Action threads} (hstep : m.step a = some m') :
    m'.store.table = m.store.table := by
  cases a with
  | range lo hi residentScales gots =>
    simp only [Machine.step] at hstep
    split_ifs at hstep
    obtain ⟨s, hs, rfl⟩ := Option.map_eq_some_iff.mp hstep
    obtain ⟨-, -, -, scales, rfl, -⟩ := rowStoreRange_eq_some hs
    rfl
  | attachPacked file layerId got =>
    simp only [Machine.step] at hstep
    split_ifs at hstep
    obtain ⟨r, hr, rfl⟩ := Option.map_eq_some_iff.mp hstep
    cases file with
    | none => rw [← Option.some.inj hr]; rfl
    | some shard => rw [(rowStoreAttachPacked_eq_some hr).1]; rfl
  | _ => exact (lookup_frame (by exact trivial) hstep).1

/-- After an accepted attach call the shard is the store's. -/
theorem packed_of_attachPacked {shard : Bytes} {layerId got : ℕ}
    (hstep : m.step (.attachPacked (some shard) layerId got) = some m') :
    m'.store.packed = some shard := by
  simp only [Machine.step] at hstep
  split_ifs at hstep
  obtain ⟨r, hr, rfl⟩ := Option.map_eq_some_iff.mp hstep
  rw [(rowStoreAttachPacked_eq_some hr).1]
  rfl

/-- What the invariant says of the rows a lookup has written. -/
theorem Serving.row_eq (h : m.Serving) {index : ℕ} {id : ℤ} {row : Row}
    (hid : m.ids[index]? = some id) (hrow : m.out index = some row) :
    0 ≤ id ∧ id.toNat < m.store.table.rows ∧
      row = m.store.table.owned m.store.rowLo m.store.rowHi id.toNat := by
  obtain ⟨n, hn, hrows, rfl⟩ := h.right index row hrow
  obtain rfl : (n : ℤ) = id := Option.some.inj (hn.symm.trans hid)
  exact ⟨by omega, hrows, rfl⟩

end Machine

/-- What opening a store fixes about its table. -/
theorem rowStoreOpen_table {file : Bytes} {rows woff soff budget cacheWays : ℕ} {ram : Bool}
    {s : Store} (h : rowStoreOpen file rows woff soff budget ram cacheWays = some s) :
    s.table.file = file ∧ s.table.rows = rows ∧ s.table.weightOffset = woff ∧
      s.table.scaleOffset = soff ∧ s.packed = none := by
  rw [rowStoreOpen] at h
  split at h
  · exact absurd h (by simp)
  · rw [← Option.some.inj h]
    exact ⟨rfl, rfl, rfl, rfl, rfl⟩

/-! ## A table of two rows -/

/-- A file with a table of two rows: the first of ones, the second of twos. -/
def twoRows : Bytes :=
  (List.range 2).flatMap (fun i => List.replicate weightBytes (UInt8.ofNat (i + 1))) ++
    (List.range 2).flatMap (fun i => List.replicate scaleBytes (UInt8.ofNat (i + 1)))

/-- The store over the two rows, with a cache of one set. -/
def twoRowStore : Option Store := rowStoreOpen twoRows 2 0 512 2000 false 4

/-- The repacked shard of the first row alone, for layer 1. -/
def firstRowShard : Bytes :=
  Bytes.packWords [packedMagic, 1, 0, 1, 2, rowBytes] ++ List.replicate (packedHeader - 48) 0 ++
    List.replicate rowBytes 1

/-- The shard's record is the table's first row. -/
theorem firstRowShard_right {s : Store} (h : twoRowStore = some s) :
    s.table.PackedRight firstRowShard := by
  have hlo : headerLo firstRowShard = 0 := by decide +kernel
  have hhi : headerHi firstRowShard = 1 := by decide +kernel
  intro id _ hid
  obtain rfl : id = 0 := by omega
  have hrecord : twoRowStore.map (fun s => s.table.record 0) = some (List.replicate rowBytes 1) := by
    decide +kernel
  rw [h] at hrecord
  have hrow : s.table.record 0 = List.replicate rowBytes 1 := Option.some.inj hrecord
  rw [hrow, hlo]
  decide +kernel

/-- **Lookups are transparent.** After the start-up calls – open, range, and
a shard that is attached or missing – every row a lookup writes is the
table's, or zeros for an id of another rank, in every interleaving of the
threads; a lookup that completes has written every entry; every occupied
cache slot holds its key's row in its key's set; and pinned scales are
exact. -/
theorem lookup_transparent {file : Bytes} {rows woff soff budget cacheWays : ℕ} {ram : Bool}
    {lo hi : ℕ} {residentScales : Bool} {gots : Option (List ℕ)} {shard : Option Bytes}
    {layerId got : ℕ} {s₀ s₁ : Store} {r : Store × Bool} {m : Machine threads}
    (hopen : rowStoreOpen file rows woff soff budget ram cacheWays = some s₀)
    (hrange : rowStoreRange s₀ lo hi residentScales gots = some s₁)
    (hshard : ∀ f, shard = some f → s₀.table.PackedRight f)
    (hattach : rowStoreAttachPacked s₁ shard layerId got = some r)
    (hm : Reachable Machine.step (fun _ a => a.IsLookup) (Machine.init threads r.1) m) :
    (∀ index id row, m.ids[index]? = some id → m.out index = some row →
      0 ≤ id ∧ id.toNat < rows ∧ row = s₀.table.owned lo hi id.toNat) ∧
    (m.quiescent → ∀ index, index < m.ids.length → (m.out index).isSome) ∧
    m.store.cache.Holds s₀.table m.store.sets m.store.ways ∧
    (∀ pinned, m.store.scales = some pinned →
      pinned = file.slice (soff + lo * scaleBytes) ((hi - lo) * scaleBytes)) := by
  obtain ⟨hfile, hrows, -, hsoff, hpacked⟩ := rowStoreOpen_table hopen
  have hkeeps : s₀.KeepsPackedRange lo hi := fun f hf => absurd (hpacked.symm.trans hf) (by simp)
  have hs₁ := (rowStoreOpen_backed hopen).range hkeeps hrange
  obtain ⟨-, -, -, scales, rfl, -⟩ := rowStoreRange_eq_some hrange
  have hr := hs₁.attachPacked hshard hattach
  have hframe : r.1.table = s₀.table ∧ r.1.rowLo = lo ∧ r.1.rowHi = hi := by
    cases shard with
    | none => rw [← Option.some.inj hattach]; exact ⟨rfl, rfl, rfl⟩
    | some f => rw [(rowStoreAttachPacked_eq_some hattach).1]; exact ⟨rfl, rfl, rfl⟩
  -- the invariant, with the table and the range the start-up calls left
  have hinv : m.Serving ∧ m.store.table = s₀.table ∧ m.store.rowLo = lo ∧ m.store.rowHi = hi := by
    refine hm.invariant (fun m => m.Serving ∧ m.store.table = s₀.table ∧ m.store.rowLo = lo ∧
      m.store.rowHi = hi) ⟨Machine.init_serving hr, hframe⟩ (fun m a m' h ha hstep => ?_)
    obtain ⟨htable, hlo, hhi⟩ := Machine.lookup_frame ha hstep
    refine ⟨h.1.step ?_ ?_ hstep, htable.trans h.2.1, hlo.trans h.2.2.1, hhi.trans h.2.2.2⟩
    · cases a <;> first | exact ha.elim | exact trivial
    · cases a <;> first | exact ha.elim | exact trivial
  obtain ⟨hserving, htable, hlo, hhi⟩ := hinv
  refine ⟨fun index id row hid hrow => ?_, fun hquiet index => hserving.complete hquiet, ?_,
    fun pinned hp => ?_⟩
  · rw [← hrows, ← htable, ← hlo, ← hhi]
    exact hserving.row_eq hid hrow
  · rw [← htable]
    exact hserving.backed.cache
  · rw [hserving.backed.scales pinned hp, htable, hlo, hhi, hfile, hsoff]

/-- The literals of the threads below. -/
theorem threads_neZero : NeZero 2 := inferInstance

@[inherit_doc threads_neZero]
theorem thread_neZero : NeZero 1 := inferInstance

attribute [local instance] threads_neZero thread_neZero

/-- The lookup of both rows by two threads, on a rank that owns the first. -/
def lookupBoth : List (Action 2) :=
  [.lookup [0, 1], .take 0, .take 1, .probe 0, .read 0 (2 * page) 0, .fill 0]

/-- Transparency on the two rows: a rank that owns the first pins its scale
shard, attaches its repacked shard and looks both rows up. -/
theorem lookup_transparent_twoRows : ∃ (s₀ : Store) (m : Machine 2), m.quiescent ∧
    m.ids = [0, 1] ∧ m.out 0 = some (s₀.table.owned 0 1 0) ∧ m.out 1 = some Row.zero := by
  have hsetup : (twoRowStore.bind fun s => (rowStoreRange s 0 1 true (some [page])).bind fun s =>
      (rowStoreAttachPacked s (some firstRowShard) 1 page).bind fun r =>
        (run Machine.step (Machine.init 2 r.1) lookupBoth).map fun m =>
          (decide m.quiescent, m.ids, (m.out 0).isSome, (m.out 1).isSome))
      = some (true, [0, 1], true, true) := by
    decide +kernel
  obtain ⟨s₀, hopen, hrest⟩ := Option.bind_eq_some_iff.mp hsetup
  obtain ⟨s₁, hrange, hrest⟩ := Option.bind_eq_some_iff.mp hrest
  obtain ⟨r, hattach, hrest⟩ := Option.bind_eq_some_iff.mp hrest
  obtain ⟨m, hrun, hm⟩ := Option.map_eq_some_iff.mp hrest
  simp only [Prod.mk.injEq, decide_eq_true_eq] at hm
  obtain ⟨hquiet, hids, h0, h1⟩ := hm
  have hallowed : AllowedRun Machine.step (fun _ a => a.IsLookup) (Machine.init 2 r.1)
      lookupBoth := by
    refine ⟨trivial, fun _ _ => ⟨trivial, fun _ _ => ⟨trivial, fun _ _ => ⟨trivial, fun _ _ =>
      ⟨trivial, fun _ _ => ⟨trivial, fun _ _ => trivial⟩⟩⟩⟩⟩⟩
  have hright := lookup_transparent hopen hrange
    (fun f hf => Option.some.inj hf ▸ firstRowShard_right hopen) hattach
    (Reachable.of_run hrun hallowed)
  obtain ⟨row0, hrow0⟩ := Option.isSome_iff_exists.mp h0
  obtain ⟨row1, hrow1⟩ := Option.isSome_iff_exists.mp h1
  obtain ⟨-, -, rfl⟩ := hright.1 0 0 row0 (by rw [hids]; rfl) hrow0
  obtain ⟨-, -, rfl⟩ := hright.1 1 1 row1 (by rw [hids]; rfl) hrow1
  exact ⟨s₀, m, hquiet, hids, hrow0, hrow1⟩

/-- **Runs of calls.** In a run whose range calls stay with the attached
shard – each leaves the range empty or starting where the shard's header
says and not past its end – every row a lookup writes, after any prefix of
the calls, is the table's for an id of the current range and zeros for any
other; a lookup that completes has written every entry; and the data that is
indexed relative to `row_lo` is that of the current range. -/
theorem calls_safe {file : Bytes} {rows woff soff budget cacheWays : ℕ} {ram : Bool} {s₀ : Store}
    {m : Machine threads} (hopen : rowStoreOpen file rows woff soff budget ram cacheWays = some s₀)
    (hm : Reachable Machine.step
      (fun m a => a.ContentRight m.store.table ∧ a.KeepsPackedRange m.store)
      (Machine.init threads s₀) m) :
    (∀ index id row, m.ids[index]? = some id → m.out index = some row →
      0 ≤ id ∧ id.toNat < rows ∧ row = s₀.table.owned m.store.rowLo m.store.rowHi id.toNat) ∧
    (m.quiescent → ∀ index, index < m.ids.length → (m.out index).isSome) ∧
    (∀ pinned, m.store.scales = some pinned → pinned = file.slice
      (soff + m.store.rowLo * scaleBytes) ((m.store.rowHi - m.store.rowLo) * scaleBytes)) ∧
    (∀ shard, m.store.packed = some shard → m.store.rowLo < m.store.rowHi →
      m.store.rowLo = headerLo shard ∧ m.store.rowHi ≤ headerHi shard) := by
  obtain ⟨hfile, hrows, -, hsoff, -⟩ := rowStoreOpen_table hopen
  have hinv : m.Serving ∧ m.store.table = s₀.table := by
    refine hm.invariant (fun m => m.Serving ∧ m.store.table = s₀.table)
      ⟨Machine.init_serving (rowStoreOpen_backed hopen), rfl⟩ (fun m a m' h ha hstep => ?_)
    exact ⟨h.1.step ha.1 ha.2 hstep, (Machine.step_table hstep).trans h.2⟩
  obtain ⟨hserving, htable⟩ := hinv
  refine ⟨fun index id row hid hrow => ?_, fun hquiet index => hserving.complete hquiet,
    fun pinned hp => ?_, fun shard hshard => (hserving.backed.packed shard hshard).2⟩
  · rw [← hrows, ← htable]
    exact hserving.row_eq hid hrow
  · rw [hserving.backed.scales pinned hp, htable, hfile, hsoff]

/-- Calls that stay with the attached shard, and a lookup of the row owned. -/
def keptRange : List (Action 1) :=
  [.range 0 1 false none, .attachPacked (some firstRowShard) 1 page, .range 0 1 true (some [page]),
    .lookup [0], .take 0, .probe 0, .read 0 (2 * page) 0, .fill 0]

/-- Safety of the call sequence on the two rows: the range call after the
shard was attached repeats the range. -/
theorem calls_safe_twoRows : ∃ (s₀ : Store) (m : Machine 1), twoRowStore = some s₀ ∧
    m.ids = [0] ∧ m.out 0 = some (s₀.table.owned 0 1 0) := by
  have hserved : (twoRowStore.bind fun s => (run Machine.step (Machine.init 1 s) keptRange).map
      fun m => (m.ids, (m.out 0).isSome, m.store.rowLo, m.store.rowHi))
      = some ([0], true, 0, 1) := by
    decide +kernel
  obtain ⟨s₀, hopen, hrest⟩ := Option.bind_eq_some_iff.mp hserved
  obtain ⟨m, hrun, hm⟩ := Option.map_eq_some_iff.mp hrest
  simp only [Prod.mk.injEq] at hm
  obtain ⟨hids, hout, hlo, hhi⟩ := hm
  have hallowed : AllowedRun Machine.step
      (fun m a => a.ContentRight m.store.table ∧ a.KeepsPackedRange m.store)
      (Machine.init 1 s₀) keptRange := by
    obtain ⟨-, -, -, -, hnone⟩ := rowStoreOpen_table hopen
    refine ⟨⟨trivial, fun f hf => absurd (hnone.symm.trans hf) (by simp)⟩,
      fun m₁ h₁ => ⟨⟨fun f hf => ?_, trivial⟩, fun m₂ h₂ => ⟨⟨trivial, fun f hf _ => ?_⟩,
        fun _ _ => ⟨⟨trivial, trivial⟩, fun _ _ => ⟨⟨trivial, trivial⟩, fun _ _ =>
          ⟨⟨trivial, trivial⟩, fun _ _ => ⟨⟨trivial, trivial⟩, fun _ _ =>
            ⟨⟨trivial, trivial⟩, fun _ _ => trivial⟩⟩⟩⟩⟩⟩⟩⟩
    · rw [Machine.step_table h₁, ← Option.some.inj hf]
      exact firstRowShard_right hopen
    · obtain rfl := Option.some.inj ((Machine.packed_of_attachPacked h₂).symm.trans hf)
      decide +kernel
  have hsafe := calls_safe hopen (Reachable.of_run hrun hallowed)
  obtain ⟨row, hrow⟩ := Option.isSome_iff_exists.mp hout
  obtain ⟨-, -, rfl⟩ := hsafe.1 0 0 row (by rw [hids]; rfl) hrow
  rw [hlo, hhi] at hrow
  exact ⟨s₀, m, hopen, hids, hrow⟩

/-- The calls that move the range under the attached shard: no scales are
pinned, so the second range call is accepted; row 1 is then looked up. -/
def movedRange : List (Action 1) :=
  [.range 0 1 false none, .attachPacked (some firstRowShard) 1 page, .range 1 2 false none,
    .lookup [1], .take 0, .probe 0, .read 0 (2 * page) 0, .fill 0]

/-- A range call that moves the range under an attached shard is accepted,
and the lookup of row 1 then returns the bytes of row 0. -/
theorem moved_range_serves_other_row :
    ¬ ∀ (file : Bytes) (rows woff soff budget cacheWays threads : ℕ) (ram : Bool) (s₀ : Store)
      (m : Machine threads), rowStoreOpen file rows woff soff budget ram cacheWays = some s₀ →
      Reachable Machine.step (fun m a => a.ContentRight m.store.table)
        (Machine.init threads s₀) m →
      ∀ index id row, m.ids[index]? = some id → m.out index = some row →
        row = s₀.table.owned m.store.rowLo m.store.rowHi id.toNat := by
  intro hclaim
  have hserved : (twoRowStore.bind fun s => (run Machine.step (Machine.init 1 s) movedRange).map
      fun m => (m.ids, m.out 0, m.store.rowLo, m.store.rowHi, s.table.owned 1 2 1))
      = some ([1], some ⟨List.replicate 256 1, List.replicate 8 1⟩, 1, 2,
        ⟨List.replicate 256 2, List.replicate 8 2⟩) := by
    decide +kernel
  obtain ⟨s₀, hopen, hrest⟩ := Option.bind_eq_some_iff.mp hserved
  obtain ⟨m, hrun, hm⟩ := Option.map_eq_some_iff.mp hrest
  simp only [Prod.mk.injEq] at hm
  obtain ⟨hids, hout, hlo, hhi, hrow⟩ := hm
  have hallowed : AllowedRun Machine.step (fun m a => a.ContentRight m.store.table)
      (Machine.init 1 s₀) movedRange := by
    refine ⟨trivial, fun m₁ h₁ => ⟨fun f hf => ?_, fun _ _ => ⟨trivial, fun _ _ => ⟨trivial,
      fun _ _ => ⟨trivial, fun _ _ => ⟨trivial, fun _ _ => ⟨trivial, fun _ _ =>
        ⟨trivial, fun _ _ => trivial⟩⟩⟩⟩⟩⟩⟩⟩
    rw [Machine.step_table h₁, ← Option.some.inj hf]
    exact firstRowShard_right hopen
  have hbad := hclaim _ _ _ _ _ _ _ _ s₀ m hopen (Reachable.of_run hrun hallowed) 0 1 _
    (by rw [hids]; rfl) hout
  rw [hlo, hhi] at hbad
  have hne := hbad.trans hrow
  exact absurd hne (by decide +kernel)

end RowStore
