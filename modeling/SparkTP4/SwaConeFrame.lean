import SparkTP4.SwaConeCopy
import SparkTP4.SwaConePlanSafe

/-!
# The copies of a replay are what the forward leaves

The fresh pages of a batch of replays are disjoint from each other and from every resident
page, so the copies of the entries compose (`RowCopy.Copied.append`): after `replayCopy` each
fresh page holds what its resident page held, and nothing else has changed. The forward writes
at the slots of the masked metadata. A row of a replay writes slot 0, and every other row
writes in its own page, which is no fresh page and no resident one.
-/

namespace SwaCone

variable {Byte : Type}

/-! ## The buffers -/

theorem fullRows_eq (per : ℕ) (pages : List ℤ) : fullRows per pages = RowCopy.blockRows per pages := by
  unfold fullRows
  split_ifs with hper
  · rw [hper]
    induction pages with
    | nil => rfl
    | cons q pages ih =>
      show q :: pages = [q * (1 : ℕ) + (0 : ℕ)] ++ RowCopy.blockRows 1 pages
      rw [← ih]
      simp
  · rfl

theorem mem_kvBuffers {pool : KvPool} {buf : Buffer} {per : ℕ} :
    (buf, per) ∈ kvBuffers pool ↔ ∃ ratio p i, (ratio, some p) ∈ pool.kvPools ∧ i < p.buffers ∧
      buf = .kv ratio i ∧ per = 1 := by
  unfold kvBuffers
  rw [List.mem_flatMap]
  constructor
  · rintro ⟨⟨ratio, _ | p⟩, hmem, hbuf⟩
    · cases hbuf
    · obtain ⟨i, hi, heq⟩ := List.mem_map.mp hbuf
      cases heq
      exact ⟨ratio, p, i, hmem, List.mem_range.mp hi, rfl, rfl⟩
  · rintro ⟨ratio, p, i, hmem, hi, rfl, rfl⟩
    exact ⟨(ratio, some p), hmem, List.mem_map.mpr ⟨i, List.mem_range.mpr hi, rfl⟩⟩

theorem mem_indexBuffers {page : ℕ} {pools : List (ℕ × LayerPool)} {out : List (Buffer × ℕ)}
    (hout : indexBuffers page pools = some out) {buf : Buffer} {per : ℕ} :
    (buf, per) ∈ out ↔ ∃ ratio p i, (ratio, p) ∈ pools ∧ i < p.buffers ∧ buf = .index ratio i ∧
      indexPer page ratio p = some per := by
  induction pools generalizing out with
  | nil =>
    obtain rfl := Option.some.inj hout
    simp
  | cons x pools ih =>
    obtain ⟨ratio, p⟩ := x
    simp only [indexBuffers, Option.bind_eq_bind, Option.bind_eq_some_iff] at hout
    obtain ⟨per', hper, rest, hrest, heq⟩ := hout
    obtain rfl := Option.some.inj heq
    rw [List.mem_append, ih hrest, List.mem_map]
    constructor
    · rintro (⟨i, hi, heq⟩ | ⟨ratio', p', i, hmem, h⟩)
      · cases heq
        exact ⟨ratio, p, i, List.mem_cons_self, List.mem_range.mp hi, rfl, hper⟩
      · exact ⟨ratio', p', i, List.mem_cons_of_mem _ hmem, h⟩
    · rintro ⟨ratio', p', i, hmem, hi, rfl, hper'⟩
      rcases List.mem_cons.mp hmem with heq | hmem
      · cases heq
        obtain rfl := Option.some.inj (hper.symm.trans hper')
        exact Or.inl ⟨i, List.mem_range.mpr hi, rfl⟩
      · exact Or.inr ⟨ratio', p', i, hmem, hi, rfl, hper'⟩

/-- What the pools of the engine promise: they are paged, and one of their pages holds the
slots of one full page. -/
structure KvPool.Paged (pool : KvPool) (page : ℕ) : Prop where
  pageSize : pool.pageSize = page
  layout : (pool.unifiedKv || pool.requestWindow) = false
  even : 2 ∣ page
  latents : ∀ ratio p, (ratio, some p) ∈ pool.kvPools → ratio = 1 ∨ ratio = 2 →
    p.pageSize = page / ratio
  keys : ∀ ratio p, (ratio, p) ∈ pool.indexPools → ratio = 1 ∨ ratio = 2 →
    0 < p.pageSize ∧ p.pageSize ∣ page / ratio

theorem indexPer_eq {page ratio : ℕ} {p : LayerPool} (hratio : ratio = 1 ∨ ratio = 2)
    (hpos : 0 < p.pageSize) (hdvd : p.pageSize ∣ page / ratio) :
    indexPer page ratio p = some (page / ratio / p.pageSize) := by
  unfold indexPer
  rw [if_pos hratio, if_neg]
  rw [not_or, not_not]
  exact ⟨hpos.ne', Nat.mod_eq_zero_of_dvd hdvd⟩

theorem indexBuffers_isSome {page : ℕ} {pools : List (ℕ × LayerPool)}
    (hkeys : ∀ ratio p, (ratio, p) ∈ pools → ratio = 1 ∨ ratio = 2 →
      0 < p.pageSize ∧ p.pageSize ∣ page / ratio) : ∃ out, indexBuffers page pools = some out := by
  induction pools with
  | nil => exact ⟨[], rfl⟩
  | cons x pools ih =>
    obtain ⟨ratio, p⟩ := x
    obtain ⟨out, hout⟩ := ih fun ratio' p' hmem => hkeys ratio' p' (List.mem_cons_of_mem _ hmem)
    have hper : ∃ per, indexPer page ratio p = some per := by
      by_cases hratio : ratio = 1 ∨ ratio = 2
      · obtain ⟨hpos, hdvd⟩ := hkeys ratio p List.mem_cons_self hratio
        exact ⟨_, indexPer_eq hratio hpos hdvd⟩
      · exact ⟨1, if_neg hratio⟩
    obtain ⟨per, hper⟩ := hper
    refine ⟨(List.range p.buffers).map (fun i => (.index ratio i, per)) ++ out, ?_⟩
    simp only [indexBuffers, hper, hout]
    rfl

theorem KvPool.Paged.buffers {pool : KvPool} {page : ℕ} (h : pool.Paged page) :
    ∃ out, indexBuffers page pool.indexPools = some out ∧
      fullPageBuffers pool = some (kvBuffers pool ++ out) := by
  obtain ⟨out, hout⟩ := indexBuffers_isSome h.keys
  refine ⟨out, hout, ?_⟩
  unfold fullPageBuffers
  rw [h.layout, h.pageSize, hout]
  rfl

/-- A key of a dictionary has one value. -/
theorem value_unique {V : Type} {l : List (ℕ × V)} (hkeys : (l.map Prod.fst).Nodup) {k : ℕ} {v w : V}
    (hv : (k, v) ∈ l) (hw : (k, w) ∈ l) : v = w := by
  have h := List.inj_on_of_nodup_map hkeys hv hw rfl
  exact congrArg Prod.snd h

theorem nodup_kvBuffers (pool : KvPool) : ((kvBuffers pool).map Prod.fst).Nodup := by
  unfold kvBuffers
  rw [List.map_flatMap, List.nodup_flatMap]
  constructor
  · rintro ⟨ratio, _ | p⟩ -
    · exact List.nodup_nil
    · dsimp only
      rw [List.map_map]
      exact List.Nodup.map (fun i j hij => by cases hij; rfl) List.nodup_range
  · have hkeys := List.pairwise_map.mp pool.kvKeys
    refine hkeys.imp fun {x y} hxy => ?_
    simp only [Function.onFun, List.disjoint_left]
    obtain ⟨ratio, _ | p⟩ := x <;> obtain ⟨ratio', _ | p'⟩ := y <;> simp
    intro i _ j _ hratio
    exact absurd hratio.symm hxy

theorem nodup_indexBuffers {page : ℕ} {pools : List (ℕ × LayerPool)} {out : List (Buffer × ℕ)}
    (hkeys : (pools.map Prod.fst).Nodup) (hout : indexBuffers page pools = some out) :
    (out.map Prod.fst).Nodup := by
  induction pools generalizing out with
  | nil =>
    obtain rfl := Option.some.inj hout
    exact List.nodup_nil
  | cons x pools ih =>
    obtain ⟨ratio, p⟩ := x
    simp only [indexBuffers, Option.bind_eq_bind, Option.bind_eq_some_iff] at hout
    obtain ⟨per, hper, rest, hrest, heq⟩ := hout
    obtain rfl := Option.some.inj heq
    rw [List.map_cons, List.nodup_cons] at hkeys
    rw [List.map_append, List.map_map, List.nodup_append]
    refine ⟨List.Nodup.map (fun i j hij => by cases hij; rfl) List.nodup_range,
      ih hkeys.2 hrest, ?_⟩
    rintro buf hbuf buf' hbuf' rfl
    obtain ⟨i, -, rfl⟩ := List.mem_map.mp hbuf
    obtain ⟨⟨buf', per'⟩, hmem, heq⟩ := List.mem_map.mp hbuf'
    obtain ⟨ratio', p', j, hmem', -, rfl, -⟩ := (mem_indexBuffers hrest).mp hmem
    cases heq
    exact hkeys.1 (List.mem_map.mpr ⟨_, hmem', rfl⟩)

/-! ## The copies -/

/-- The pages of the memory: what each buffer holds of a page. -/
def pageView (buffers : List (Buffer × ℕ)) (mem : PoolMem Byte) (q : ℤ)
    (x : {x : Buffer × ℕ // x ∈ buffers}) (off : Fin x.1.2) : Option (PoolRow Byte) :=
  RowCopy.row (mem x.1.1) (q * x.1.2 + (off : ℕ))

/-- A page of the memory. -/
def InPool (buffers : List (Buffer × ℕ)) (mem : PoolMem Byte) (q : ℤ) : Prop :=
  ∀ x ∈ buffers, 0 ≤ q ∧ (q + 1) * x.2 ≤ (mem x.1).length

theorem InPool.congr {buffers : List (Buffer × ℕ)} {mem mem' : PoolMem Byte} {q : ℤ}
    (h : InPool buffers mem q) (hlen : ∀ buf, (mem' buf).length = (mem buf).length) :
    InPool buffers mem' q := by
  intro x hx
  rw [hlen]
  exact h x hx

/-- **The copy of one entry**, over all buffers: every buffer is copied once. -/
theorem copyBuffers_spec {src dst : List ℤ} (hnodup : dst.Nodup) (hlen : src.length = dst.length)
    {buffers : List (Buffer × ℕ)} (hkeys : (buffers.map Prod.fst).Nodup) {mem : PoolMem Byte}
    (hsrc : ∀ q ∈ src, InPool buffers mem q) (hdst : ∀ q ∈ dst, InPool buffers mem q) :
    ∃ mem', buffers.foldlM (copyBuffer src dst) mem = some mem' ∧
      (∀ buf, (mem' buf).length = (mem buf).length) ∧
      (∀ buf ∉ buffers.map Prod.fst, mem' buf = mem buf) ∧
      ∀ x ∈ buffers, RowCopy.Copied src dst
        (fun q (off : Fin x.2) => RowCopy.row (mem x.1) (q * x.2 + (off : ℕ)))
        fun q (off : Fin x.2) => RowCopy.row (mem' x.1) (q * x.2 + (off : ℕ)) := by
  induction buffers generalizing mem with
  | nil => exact ⟨mem, rfl, fun _ => rfl, fun _ _ => rfl, fun x hx => absurd hx List.not_mem_nil⟩
  | cons y buffers ih =>
    rw [List.map_cons, List.nodup_cons] at hkeys
    obtain ⟨rows, hcopy, hlength, hcopied⟩ := @RowCopy.copy_blockRows _ (mem y.1) y.2 src dst hnodup hlen
      (fun q hq => hsrc q hq y List.mem_cons_self) (fun q hq => hdst q hq y List.mem_cons_self)
    have hstep : copyBuffer src dst mem y = some (Function.update mem y.1 rows) := by
      unfold copyBuffer
      rw [fullRows_eq, fullRows_eq, hcopy]
      rfl
    have hother : ∀ x ∈ buffers, Function.update mem y.1 rows x.1 = mem x.1 := by
      intro x hx
      rw [Function.update_of_ne]
      exact fun heq => hkeys.1 (List.mem_map.mpr ⟨x, hx, heq⟩)
    have hrange : ∀ q, InPool (y :: buffers) mem q →
        InPool buffers (Function.update mem y.1 rows) q := by
      intro q hq x hx
      rw [hother x hx]
      exact hq x (List.mem_cons_of_mem y hx)
    obtain ⟨mem', hfold, hlengths, hkept, hall⟩ := ih hkeys.2
      (fun q hq => hrange q (hsrc q hq)) (fun q hq => hrange q (hdst q hq))
    refine ⟨mem', ?_, fun buf => ?_, fun buf hbuf => ?_, fun x hx => ?_⟩
    · rw [List.foldlM_cons, hstep]
      exact hfold
    · rw [hlengths]
      by_cases hbuf : buf = y.1
      · rw [hbuf, Function.update_self, hlength]
      · rw [Function.update_of_ne hbuf]
    · rw [List.map_cons, List.mem_cons, not_or] at hbuf
      rw [hkept buf hbuf.2, Function.update_of_ne hbuf.1]
    · rcases List.mem_cons.mp hx with rfl | hx
      · rw [hkept x.1 hkeys.1, Function.update_self]
        exact hcopied
      · have h := hall x hx
        rwa [hother x hx] at h

theorem copyFullPages_spec {src dst : List ℤ} (hnodup : dst.Nodup) (hlen : src.length = dst.length)
    {buffers : List (Buffer × ℕ)} (hkeys : (buffers.map Prod.fst).Nodup) {mem : PoolMem Byte}
    (hsrc : ∀ q ∈ src, InPool buffers mem q) (hdst : ∀ q ∈ dst, InPool buffers mem q) :
    ∃ mem', copyFullPages buffers src dst mem = some mem' ∧
      (∀ buf, (mem' buf).length = (mem buf).length) ∧
      RowCopy.Copied src dst (pageView buffers mem) (pageView buffers mem') := by
  unfold copyFullPages
  split_ifs with hempty
  · obtain rfl := List.isEmpty_iff.mp hempty
    obtain rfl := List.eq_nil_of_length_eq_zero hlen.symm
    exact ⟨mem, rfl, fun _ => rfl, .refl _⟩
  · obtain ⟨mem', hfold, hlengths, -, hall⟩ := copyBuffers_spec hnodup hlen hkeys hsrc hdst
    refine ⟨mem', hfold, hlengths, ?_, ?_⟩
    · intro p hp
      funext x
      exact (hall x.1 x.2).copied p hp
    · intro q hq
      funext x
      exact (hall x.1 x.2).kept q hq

/-- The pages of whole-page rows, as the strided slice reads them. -/
theorem stepSlice_pages {page : ℕ} (hpage : 0 < page) {loc fresh : List ℤ} {start n : ℕ}
    (hrows : (loc.drop start).take n = pageSlots page fresh) (hn : n = fresh.length * page) :
    (stepSlice loc start (start + n) page).map (fun slot => Int.fdiv slot page) = fresh := by
  have hlen : ((loc.drop start).take n).length = n := by
    rw [hrows, hn]
    exact RowCopy.length_blockRows page fresh
  have hcount : (min (start + n) loc.length - start + page - 1) / page = fresh.length := by
    rw [List.length_take, List.length_drop] at hlen
    have hmin : min (start + n) loc.length - start = fresh.length * page := by omega
    rw [hmin, Nat.add_sub_assoc hpage, Nat.mul_comm, Nat.mul_add_div hpage,
      Nat.div_eq_of_lt (by omega), Nat.add_zero]
  have hget : ∀ k (hk : k < fresh.length), loc[start + k * page]? = some (fresh[k] * page) := by
    intro k hk
    have hlt : k * page < n := hn ▸ Nat.mul_lt_mul_of_pos_right hk hpage
    have h := RowCopy.getElem?_blockRows hpage fresh k
    rw [show RowCopy.blockRows page fresh = _ from hrows.symm, List.getElem?_take_of_lt (by omega),
      List.getElem?_drop, Nat.add_zero] at h
    rw [h, List.getElem?_eq_getElem hk]
    simp
  have hall : stepSlice loc start (start + n) page = fresh.map fun (d : ℤ) => d * page := by
    unfold stepSlice
    rw [hcount]
    have hsome : ∀ k ∈ List.range fresh.length,
        loc[start + k * page]? = (some ∘ fun k => fresh.getD k 0 * page) k := by
      intro k hk
      have hk := List.mem_range.mp hk
      rw [hget k hk, Function.comp_apply, List.getD_eq_getElem _ _ hk]
    rw [List.filterMap_congr hsome, List.filterMap_eq_map]
    refine List.ext_getElem (by simp) fun k hk hk' => ?_
    rw [List.length_map] at hk'
    simp [hk']
  rw [hall, List.map_map]
  refine (List.map_congr_left fun d _ => ?_).trans (List.map_id fresh)
  exact Int.mul_fdiv_cancel d (by omega)

/-! ## The batch of copies -/

/-- A row of the batch that an entry replays. -/
def ConeEntry.Replays (e : ConeEntry) (i : ℕ) : Prop := e.start ≤ i ∧ (i : ℤ) < e.start + e.n

instance (e : ConeEntry) (i : ℕ) : Decidable (e.Replays i) :=
  inferInstanceAs (Decidable (_ ∧ _))

/-- A row of the request of an entry. -/
def ConeEntry.Runs (e : ConeEntry) (i : ℕ) : Prop := e.start ≤ i ∧ (i : ℤ) < e.start + e.ext

/-- A row of the batch that is not replayed. -/
def Outside (entries : List ConeEntry) (i : ℕ) : Prop := ∀ e ∈ entries, ¬e.Replays i

/-- **What the allocator promises**: fresh whole pages for the rows of every replay, and no slot
of a fresh page of another request or of a resident page for any other row. -/
structure Allocated (page : ℕ) (loc : List ℤ) (entries : List ConeEntry)
    (fresh : ConeEntry → List ℤ) (resident : Set ℤ) : Prop where
  page_pos : 0 < page
  /-- the replay rows take whole pages, in order -/
  rows : ∀ e ∈ entries, (loc.drop e.start.toNat).take e.n.toNat = pageSlots page (fresh e)
  length : ∀ e ∈ entries, (fresh e).length = e.srcPages.length
  positive : ∀ e ∈ entries, ∀ d ∈ fresh e, 0 < d
  distinct : ∀ e ∈ entries, (fresh e).Nodup
  apart : entries.Pairwise fun a b => ∀ d ∈ fresh a, d ∉ fresh b
  new : ∀ e ∈ entries, ∀ d ∈ fresh e, d ∉ resident
  /-- the other rows take slots of other pages; slot 0 is the padding slot -/
  nonneg : ∀ (i : ℕ) (x : ℤ), loc[i]? = some x → 0 ≤ x
  others : ∀ (i : ℕ) (x : ℤ), loc[i]? = some x → Outside entries i →
    ∀ e ∈ entries, x / page ∉ fresh e
  others_new : ∀ (i : ℕ) (x : ℤ), loc[i]? = some x → Outside entries i → x = 0 ∨ x / page ∉ resident

/-- **What a batch plan promises**: the replay rows of the entries follow each other, and each
entry has as many rows as its source pages. -/
structure Laid (page : ℕ) (entries : List ConeEntry) : Prop where
  ordered : entries.Pairwise fun a b => a.start + a.ext ≤ b.start
  start_nonneg : ∀ e ∈ entries, 0 ≤ e.start
  n_eq : ∀ e ∈ entries, e.n = e.srcPages.length * page
  n_le : ∀ e ∈ entries, e.n ≤ e.ext

/-- **The copy of one entry.** -/
theorem copyEntry_spec {page : ℕ} {loc : List ℤ} {entries : List ConeEntry}
    {fresh : ConeEntry → List ℤ} {resident : Set ℤ} (halloc : Allocated page loc entries fresh resident)
    (hlaid : Laid page entries) {buffers : List (Buffer × ℕ)} (hkeys : (buffers.map Prod.fst).Nodup)
    {e : ConeEntry} (he : e ∈ entries) {mem : PoolMem Byte}
    (hsrc : ∀ q ∈ e.srcPages, InPool buffers mem q) (hdst : ∀ q ∈ fresh e, InPool buffers mem q) :
    ∃ mem', copyEntry buffers page loc mem e = some mem' ∧
      (∀ buf, (mem' buf).length = (mem buf).length) ∧
      RowCopy.Copied e.srcPages (fresh e) (pageView buffers mem) (pageView buffers mem') := by
  have hlen := halloc.length e he
  have hn := hlaid.n_eq e he
  have hstart := hlaid.start_nonneg e he
  have hnNat : e.n.toNat = (fresh e).length * page := by
    rw [hn, hlen]
    exact Int.toNat_natCast (e.srcPages.length * page)
  have hstop : (e.start + e.n).toNat = e.start.toNat + e.n.toNat :=
    Int.toNat_add hstart (hn ▸ Int.natCast_nonneg (e.srcPages.length * page))
  have hpages := stepSlice_pages halloc.page_pos (halloc.rows e he) hnNat
  unfold copyEntry
  rw [hstop]
  dsimp only
  rw [hpages, if_pos hlen]
  exact copyFullPages_spec (halloc.distinct e he) hlen.symm hkeys hsrc hdst

/-- **The copies of a batch** are one copy of all its pages. -/
theorem copyEntries_spec {page : ℕ} {loc : List ℤ} {all : List ConeEntry}
    {fresh : ConeEntry → List ℤ} {resident : Set ℤ} (halloc : Allocated page loc all fresh resident)
    (hlaid : Laid page all) {buffers : List (Buffer × ℕ)} (hkeys : (buffers.map Prod.fst).Nodup)
    (hresident : ∀ e ∈ all, ∀ q ∈ e.srcPages, q ∈ resident) {entries : List ConeEntry}
    (hsub : entries.Sublist all) {mem : PoolMem Byte}
    (hsrc : ∀ e ∈ entries, ∀ q ∈ e.srcPages, InPool buffers mem q)
    (hdst : ∀ e ∈ entries, ∀ q ∈ fresh e, InPool buffers mem q) :
    ∃ mem', entries.foldlM (copyEntry buffers page loc) mem = some mem' ∧
      (∀ buf, (mem' buf).length = (mem buf).length) ∧
      RowCopy.Copied (entries.flatMap ConeEntry.srcPages) (entries.flatMap fresh)
        (pageView buffers mem) (pageView buffers mem') := by
  induction entries generalizing mem with
  | nil => exact ⟨mem, rfl, fun _ => rfl, .refl _⟩
  | cons e entries ih =>
    have he : e ∈ all := hsub.subset List.mem_cons_self
    have hapart := List.pairwise_cons.mp (halloc.apart.sublist hsub)
    obtain ⟨mem₁, hstep, hlen₁, hcopied₁⟩ := copyEntry_spec halloc hlaid hkeys he
      (hsrc e List.mem_cons_self) (hdst e List.mem_cons_self)
    obtain ⟨mem', hfold, hlen', hcopied'⟩ := ih (List.sublist_of_cons_sublist hsub)
      (fun e' he' q hq => (hsrc e' (List.mem_cons_of_mem e he') q hq).congr hlen₁)
      (fun e' he' q hq => (hdst e' (List.mem_cons_of_mem e he') q hq).congr hlen₁)
    refine ⟨mem', ?_, fun buf => (hlen' buf).trans (hlen₁ buf), ?_⟩
    · rw [List.foldlM_cons, hstep]
      exact hfold
    · rw [List.flatMap_cons, List.flatMap_cons]
      refine hcopied₁.append hcopied' (halloc.length e he).symm ?_ ?_
      · intro q hq hfresh
        obtain ⟨e', he', hq⟩ := List.mem_flatMap.mp hq
        exact halloc.new e he q hfresh
          (hresident e' (hsub.subset (List.mem_cons_of_mem e he')) q hq)
      · intro q hq hfresh
        obtain ⟨e', he', hq'⟩ := List.mem_flatMap.mp hfresh
        exact hapart.1 e' he' q hq hq'

/-- The pages of one entry among those of the batch. -/
theorem mem_zip_entries {fresh : ConeEntry → List ℤ} {entries : List ConeEntry}
    (hlen : ∀ e ∈ entries, (fresh e).length = e.srcPages.length) {e : ConeEntry} (he : e ∈ entries)
    {p : ℤ × ℤ} (hp : p ∈ e.srcPages.zip (fresh e)) :
    p ∈ (entries.flatMap ConeEntry.srcPages).zip (entries.flatMap fresh) := by
  induction entries with
  | nil => cases he
  | cons e' entries ih =>
    rw [List.flatMap_cons, List.flatMap_cons,
      List.zip_append (hlen e' List.mem_cons_self).symm, List.mem_append]
    rcases List.mem_cons.mp he with rfl | he
    · exact Or.inl hp
    · exact Or.inr (ih (fun e'' he'' => hlen e'' (List.mem_cons_of_mem e' he'')) he)

/-! ## Floor and mask -/

theorem getElem?_fillSlice (xs : List ℤ) (start stop : ℕ) (v : ℤ) (i : ℕ) :
    (fillSlice xs start stop v)[i]? =
      xs[i]?.map fun x => if start ≤ i ∧ i < stop then v else x := by
  unfold fillSlice
  rw [List.getElem?_mapIdx]

/-- One slice after the other, at one position. -/
theorem getElem?_fills {entries : List ConeEntry} (start stop : ConeEntry → ℕ) (v : ConeEntry → ℤ)
    (xs : List ℤ) (i : ℕ) :
    (entries.foldl (fun xs e => fillSlice xs (start e) (stop e) (v e)) xs)[i]? =
      xs[i]?.map fun x =>
        entries.foldl (fun x e => if start e ≤ i ∧ i < stop e then v e else x) x := by
  induction entries generalizing xs with
  | nil => simp
  | cons e entries ih =>
    rw [List.foldl_cons, ih, getElem?_fillSlice, Option.map_map]
    rfl

theorem foldl_ite_none {P : ConeEntry → Prop} [DecidablePred P] {v : ConeEntry → ℤ}
    {entries : List ConeEntry} (h : ∀ e ∈ entries, ¬P e) (x : ℤ) :
    entries.foldl (fun x e => if P e then v e else x) x = x := by
  induction entries with
  | nil => rfl
  | cons e entries ih =>
    rw [List.foldl_cons, if_neg (h e List.mem_cons_self)]
    exact ih fun e' he' => h e' (List.mem_cons_of_mem e he')

theorem foldl_ite_some {P : ConeEntry → Prop} [DecidablePred P] {v : ConeEntry → ℤ} {w : ℤ}
    {entries : List ConeEntry} (hex : ∃ e ∈ entries, P e) (hv : ∀ e ∈ entries, P e → v e = w)
    (x : ℤ) : entries.foldl (fun x e => if P e then v e else x) x = w := by
  induction entries generalizing x with
  | nil => simp at hex
  | cons e entries ih =>
    have hv' : ∀ e' ∈ entries, P e' → v e' = w := fun e' he' => hv e' (List.mem_cons_of_mem e he')
    rw [List.foldl_cons]
    by_cases hrest : ∃ e' ∈ entries, P e'
    · exact ih hrest hv' _
    · have hnone : ∀ e' ∈ entries, ¬P e' := fun e' he' hP => hrest ⟨e', he', hP⟩
      rw [foldl_ite_none hnone]
      obtain ⟨e', he', hP⟩ := hex
      rcases List.mem_cons.mp he' with rfl | he'
      · rw [if_pos hP, hv e' List.mem_cons_self hP]
      · exact absurd hP (hnone e' he')

theorem runs_iff {e : ConeEntry} (hstart : 0 ≤ e.start) (i : ℕ) :
    (e.start.toNat ≤ i ∧ i < (e.start + e.ext).toNat) ↔ e.Runs i := by
  unfold ConeEntry.Runs
  omega

theorem replays_iff {e : ConeEntry} (hstart : 0 ≤ e.start) (i : ℕ) :
    (e.start.toNat ≤ i ∧ i < (e.start + e.n).toNat) ↔ e.Replays i := by
  unfold ConeEntry.Replays
  omega

/-- A row belongs to one request. -/
theorem Laid.runs_unique {page : ℕ} {entries : List ConeEntry} (h : Laid page entries)
    {e e' : ConeEntry} (he : e ∈ entries) (he' : e' ∈ entries) {i : ℕ} (hr : e.Runs i)
    (hr' : e'.Runs i) : e = e' := by
  have hdisjoint : entries.Pairwise fun a b => a.Runs i → b.Runs i → a = b := by
    refine h.ordered.imp fun {a b} hle ha hb => ?_
    have := ha.2
    have := hb.1
    omega
  have hsymm : Std.Symm fun a b : ConeEntry => a.Runs i → b.Runs i → a = b :=
    ⟨fun a b hab hb ha => (hab ha hb).symm⟩
  exact hdisjoint.forall_of_forall (fun a _ _ _ => rfl) he he' hr hr'

/-- **The floor** is `s` on the rows of the replaying requests, and 0 on all other rows. -/
theorem floorVector_spec {cone : ConeBatch} {page : ℕ} (h : Laid page cone.entries)
    {paddedRows i : ℕ} (hi : i < paddedRows) :
    (∀ e ∈ cone.entries, e.Runs i → (floorVector cone paddedRows)[i]? = some e.s) ∧
      ((∀ e ∈ cone.entries, ¬e.Runs i) → (floorVector cone paddedRows)[i]? = some 0) := by
  have hget := @getElem?_fills cone.entries (fun e => e.start.toNat)
    (fun e => (e.start + e.ext).toNat) ConeEntry.s (List.replicate paddedRows 0) i
  rw [List.getElem?_replicate, if_pos hi] at hget
  constructor
  · intro e he hr
    refine hget.trans (congrArg some (foldl_ite_some ⟨e, he, ?_⟩ (fun e' he' hr' => ?_) 0))
    · exact (runs_iff (h.start_nonneg e he) i).mpr hr
    · have hr' := (runs_iff (h.start_nonneg e' he') i).mp hr'
      rw [h.runs_unique he' he hr' hr]
  · intro hnone
    refine hget.trans (congrArg some (foldl_ite_none (fun e he hr => ?_) 0))
    exact hnone e he ((runs_iff (h.start_nonneg e he) i).mp hr)

theorem outLoc_mask (core : CoreMetadata) (entries : List ConeEntry) (ratio : ℕ) :
    (entries.foldl maskEntry core).outLoc ratio = (core.outLoc ratio).map fun loc =>
      entries.foldl (fun xs e => fillSlice xs e.start.toNat (e.start + e.n).toNat 0) loc := by
  induction entries generalizing core with
  | nil => simp
  | cons e entries ih =>
    rw [List.foldl_cons, ih]
    have hone : (maskEntry core e).outLoc ratio = (core.outLoc ratio).map fun loc =>
        fillSlice loc e.start.toNat (e.start + e.n).toNat 0 := by
      unfold CoreMetadata.outLoc
      split_ifs <;> rfl
    rw [hone, Option.map_map]
    rfl

/-- **A masked row writes slot 0**, and every other row the slot that the metadata give it. -/
theorem slot_mask {core : CoreMetadata} {cone : ConeBatch} {page : ℕ} (h : Laid page cone.entries)
    {buf : Buffer} {i k : ℕ} (hslot : (maskCompressorWrites core cone).slot buf i = some k) :
    k = 0 ∨ Outside cone.entries i ∧ core.slot buf i = some k := by
  unfold maskCompressorWrites CoreMetadata.slot at *
  rw [outLoc_mask] at hslot
  cases hloc : core.outLoc buf.ratio with
  | none => simp [hloc] at hslot
  | some loc =>
    rw [hloc] at hslot
    simp only [Option.map_some, Option.bind_some] at hslot ⊢
    rw [getElem?_fills] at hslot
    cases hx : loc[i]? with
    | none => simp [hx] at hslot
    | some x =>
      rw [hx] at hslot
      simp only [Option.map_some, Option.some.injEq] at hslot ⊢
      by_cases hout : Outside cone.entries i
      · right
        rw [foldl_ite_none fun e he hr =>
          hout e he ((replays_iff (h.start_nonneg e he) i).mp hr)] at hslot
        exact ⟨hout, hslot⟩
      · left
        unfold Outside at hout
        push Not at hout
        obtain ⟨e, he, hr⟩ := hout
        rw [foldl_ite_some ⟨e, he, (replays_iff (h.start_nonneg e he) i).mpr hr⟩
          (fun _ _ _ => rfl)] at hslot
        exact hslot.symm

/-! ## The stores of the forward -/

/-- A byte of the memory. -/
def byteAt (mem : PoolMem Byte) (buf : Buffer) (r : ℤ) (b : ℕ) : Option Byte :=
  (RowCopy.row (mem buf) r).map fun row => row b

theorem row_eq_of_bytes {mem mem' : PoolMem Byte} {buf : Buffer} {r r' : ℤ}
    (h : ∀ b, byteAt mem buf r b = byteAt mem' buf r' b) :
    RowCopy.row (mem buf) r = RowCopy.row (mem' buf) r' := by
  unfold byteAt at h
  cases hrow : RowCopy.row (mem buf) r with
  | none =>
    have h0 := h 0
    rw [hrow] at h0
    exact (Option.map_eq_none_iff.mp h0.symm).symm
  | some row =>
    cases hrow' : RowCopy.row (mem' buf) r' with
    | none =>
      have h0 := h 0
      rw [hrow, hrow'] at h0
      cases h0
    | some row' =>
      refine congrArg some (funext fun b => ?_)
      have hb := h b
      rw [hrow, hrow'] at hb
      exact Option.some.inj hb

variable {Payload : Type}

/-- A store may change a byte: the byte is in the part of the slot that a row writes. -/
def Touches (pool : KvPool) (core : CoreMetadata) (region : Buffer → ℕ → Set ℕ) (buf : Buffer)
    (r : ℤ) (b : ℕ) : Prop :=
  ∃ row slot slots, core.slot buf row = some slot ∧ pool.rowSlots buf = some slots ∧
    r = (slot / slots : ℕ) ∧ b ∈ region buf (slot % slots)

theorem row_modify (buf : List (PoolRow Byte)) (k : ℕ) (f : PoolRow Byte → PoolRow Byte) (r : ℤ) :
    RowCopy.row (buf.modify k f) r =
      (RowCopy.row buf r).map fun row => if r = k then f row else row := by
  unfold RowCopy.row
  by_cases hr : 0 ≤ r
  · have hk : k = r.toNat ↔ r = k := by omega
    simp only [if_pos hr, List.getElem?_modify, hk]
    rfl
  · simp only [if_neg hr, Option.map_none]

theorem byteAt_storeRow {pool : KvPool} {core : CoreMetadata} {region : Buffer → ℕ → Set ℕ}
    {put : Buffer → ℕ → Payload → PoolRow Byte → PoolRow Byte}
    (hput : ∀ buf slot v row, ∀ b ∉ region buf slot, put buf slot v row b = row b)
    (mem : PoolMem Byte) (w : Store Payload) {buf : Buffer} {r : ℤ} {b : ℕ}
    (h : ¬Touches pool core region buf r b) :
    byteAt (storeRow pool core put mem w) buf r b = byteAt mem buf r b := by
  unfold storeRow
  split
  · rename_i slot slots hslot hslots
    unfold byteAt
    by_cases hbuf : buf = w.buf
    · subst hbuf
      rw [Function.update_self, row_modify, Option.map_map]
      refine congrArg (fun f => Option.map f _) (funext fun row => ?_)
      rw [Function.comp_apply]
      split_ifs with hr
      · exact hput _ _ _ _ _ fun hb => h ⟨w.row, slot, slots, hslot, hslots, hr, hb⟩
      · rfl
    · rw [Function.update_of_ne hbuf]
  · rfl

/-- **A forward changes no byte outside the slots of its rows.** -/
theorem byteAt_forwardStores {pool : KvPool} {core : CoreMetadata} {region : Buffer → ℕ → Set ℕ}
    {put : Buffer → ℕ → Payload → PoolRow Byte → PoolRow Byte}
    (hput : ∀ buf slot v row, ∀ b ∉ region buf slot, put buf slot v row b = row b)
    (stores : List (Store Payload)) (mem : PoolMem Byte) {buf : Buffer} {r : ℤ} {b : ℕ}
    (h : ¬Touches pool core region buf r b) :
    byteAt (forwardStores pool core put stores mem) buf r b = byteAt mem buf r b := by
  unfold forwardStores
  induction stores generalizing mem with
  | nil => rfl
  | cons w stores ih =>
    rw [List.foldl_cons, ih]
    exact byteAt_storeRow hput mem w h

/-- What the metadata promise: a row without a slot is negative, and every other row writes the
compressed slot of its full slot. -/
def CoreMetadata.Of (core : CoreMetadata) (loc : List ℤ) : Prop :=
  ∀ ratio l, core.outLoc ratio = some l → ∀ (i : ℕ) (c : ℤ), l[i]? = some c →
    c < 0 ∨ ∃ y, loc[i]? = some y ∧ c = y / ratio

theorem KvPool.Paged.ratio_of_slot {core : CoreMetadata} {buf : Buffer} {i k : ℕ}
    (h : core.slot buf i = some k) : buf.ratio = 1 ∨ buf.ratio = 2 := by
  unfold CoreMetadata.slot CoreMetadata.outLoc at h
  split_ifs at h with h1 h2
  · exact Or.inl h1
  · exact Or.inr h2
  · cases h

/-- **The slots of a buffer row**: the rows of a full page hold its compressed slots. -/
theorem KvPool.Paged.rowSlots_eq {pool : KvPool} {page : ℕ} (h : pool.Paged page) (hpage : 0 < page)
    {buffers : List (Buffer × ℕ)} (hbuffers : fullPageBuffers pool = some buffers) {buf : Buffer}
    {per slots : ℕ} (hbuf : (buf, per) ∈ buffers) (hratio : buf.ratio = 1 ∨ buf.ratio = 2)
    (hslots : pool.rowSlots buf = some slots) :
    0 < per ∧ 0 < slots ∧ page = buf.ratio * (slots * per) := by
  obtain ⟨out, hout, hall⟩ := h.buffers
  obtain rfl := Option.some.inj (hall.symm.trans hbuffers)
  have hcut : buf.ratio * (page / buf.ratio) = page := by
    rcases hratio with hr | hr <;> rw [hr]
    · simp
    · exact Nat.mul_div_cancel' h.even
  have hpos : 0 < page / buf.ratio := by
    refine Nat.pos_of_ne_zero fun hzero => ?_
    rw [hzero, Nat.mul_zero] at hcut
    omega
  cases buf with
  | kv ratio layer =>
    rcases List.mem_append.mp hbuf with hkv | hindex
    · obtain ⟨ratio', p, i, hmem, -, heq, rfl⟩ := mem_kvBuffers.mp hkv
      cases heq
      unfold KvPool.rowSlots at hslots
      simp only [Option.bind_eq_some_iff] at hslots
      obtain ⟨p', ⟨o, hlookup, ho⟩, hp'⟩ := hslots
      split_ifs at hp'
      obtain rfl := Option.some.inj hp'
      cases o with
      | none => cases ho
      | some p'' =>
        obtain rfl := Option.some.inj ho
        obtain ⟨l₁, l₂, hl, -⟩ := List.lookup_eq_some_iff.mp hlookup
        have hmem' : (ratio, some p'') ∈ pool.kvPools := by rw [hl]; simp
        have hsize := h.latents ratio p'' hmem' hratio
        rw [hsize, Nat.mul_one]
        exact ⟨Nat.one_pos, hpos, hcut.symm⟩
    · obtain ⟨ratio', p, i, -, -, heq, -⟩ := (mem_indexBuffers hout).mp hindex
      cases heq
  | index ratio layer =>
    rcases List.mem_append.mp hbuf with hkv | hindex
    · obtain ⟨ratio', p, i, -, -, heq, -⟩ := mem_kvBuffers.mp hkv
      cases heq
    · obtain ⟨ratio', p, i, hmem, -, heq, hper⟩ := (mem_indexBuffers hout).mp hindex
      cases heq
      unfold KvPool.rowSlots at hslots
      simp only [Option.bind_eq_some_iff] at hslots
      obtain ⟨p', hlookup, hp'⟩ := hslots
      split_ifs at hp'
      obtain rfl := Option.some.inj hp'
      obtain ⟨l₁, l₂, hl, -⟩ := List.lookup_eq_some_iff.mp hlookup
      have hmem' : (ratio, p') ∈ pool.indexPools := by rw [hl]; simp
      obtain rfl := value_unique pool.indexKeys hmem hmem'
      obtain ⟨hsize, hdvd⟩ := h.keys ratio p hmem hratio
      obtain rfl := Option.some.inj ((indexPer_eq hratio hsize hdvd).symm.trans hper)
      refine ⟨Nat.div_pos (Nat.le_of_dvd hpos hdvd) hsize, hsize, ?_⟩
      exact hcut.symm.trans (congrArg (ratio * ·) (Nat.mul_div_cancel' hdvd).symm)

/-- The slots of the padded batch: padding rows have slot 0. -/
def paddedLoc (loc : List ℤ) (pad : ℕ) : List ℤ := loc ++ List.replicate pad 0

/-- **Where a forward writes**: slot 0, and the pages of the rows that are not replayed. -/
theorem touches_cases {pool : KvPool} {page : ℕ} (h : pool.Paged page) {cone : ConeBatch}
    {loc : List ℤ} {fresh : ConeEntry → List ℤ} {resident : Set ℤ}
    (halloc : Allocated page loc cone.entries fresh resident) (hlaid : Laid page cone.entries)
    {core : CoreMetadata} {pad : ℕ} (hcore : core.Of (paddedLoc loc pad))
    {region : Buffer → ℕ → Set ℕ} {buffers : List (Buffer × ℕ)}
    (hbuffers : fullPageBuffers pool = some buffers) {buf : Buffer} {per off b : ℕ} {q : ℤ}
    (hbuf : (buf, per) ∈ buffers) (hoff : off < per)
    (htouch : Touches pool (maskCompressorWrites core cone) region buf (q * per + off) b) :
    (q = 0 ∧ off = 0 ∧ b ∈ region buf 0) ∨
      ∃ (i : ℕ) (x : ℤ), loc[i]? = some x ∧ Outside cone.entries i ∧ x ≠ 0 ∧ q = x / page := by
  obtain ⟨row, slot, slots, hslot, hslots, hr, hb⟩ := htouch
  by_cases hzero : slot = 0
  · left
    rw [hzero, Nat.zero_div] at hr
    rw [hzero, Nat.zero_mod] at hb
    have hpage := @RowCopy.page_unique _ _ 0 _ 0 hoff (Nat.zero_lt_of_lt hoff)
      (by simpa using hr)
    exact ⟨hpage.1, hpage.2, hb⟩
  · right
    rcases slot_mask hlaid hslot with hslot | ⟨hout, hslot⟩
    · exact absurd hslot hzero
    · have hratio := KvPool.Paged.ratio_of_slot hslot
      obtain ⟨hper, hpos, hcut⟩ := h.rowSlots_eq halloc.page_pos hbuffers hbuf hratio hslots
      unfold CoreMetadata.slot at hslot
      rw [Option.map_eq_some_iff] at hslot
      obtain ⟨c, hc, hk⟩ := hslot
      rw [Option.bind_eq_some_iff] at hc
      obtain ⟨l, hl, hc⟩ := hc
      rcases hcore _ l hl row c hc with hneg | ⟨x, hx, hcx⟩
      · exact absurd (by omega) hzero
      · have hxzero : x ≠ 0 := by
          rintro rfl
          rw [Int.zero_ediv] at hcx
          exact hzero (by omega)
        have hxloc : loc[row]? = some x := by
          unfold paddedLoc at hx
          rw [List.getElem?_append] at hx
          split_ifs at hx
          · exact hx
          · rw [List.getElem?_replicate] at hx
            split_ifs at hx
            exact absurd (Option.some.inj hx).symm hxzero
        refine ⟨row, x, hxloc, hout, hxzero, ?_⟩
        have hxpos := halloc.nonneg row x hxloc
        obtain ⟨y, rfl⟩ := Int.eq_ofNat_of_zero_le hxpos
        have hslotEq : slot = y / buf.ratio := by
          rw [← hk, hcx, ← Int.natCast_ediv]
          exact Int.toNat_natCast _
        have hq : q = (y / buf.ratio / slots / per : ℕ) := by
          rw [← hslotEq, Int.natCast_ediv, ← hr, add_comm,
            Int.add_mul_ediv_right _ _ (by omega), Int.ediv_eq_zero_of_lt (by omega) (by omega),
            zero_add]
        rw [hq, Nat.div_div_eq_div_mul, Nat.div_div_eq_div_mul, ← hcut, Int.natCast_ediv]

/-! ## The batch plan -/

variable {Node Token : Type}

/-- Every replay of a batch has whole pages. -/
def WholePlans (page : ℕ) (batch : List (Extend Node Token)) : Prop :=
  ∀ x ∈ batch, 0 ≤ x.ext ∧ ∀ plan, x.req.plan = some plan → plan.n = plan.srcPages.length * page

/-- A plan has whole pages. -/
theorem Planned.n_eq {st : State} {cache : Cache Node Token} {req req' : Req Node Token}
    {plan : Plan Node} (h : Planned st cache req req' plan) :
    plan.n = plan.srcPages.length * cache.pageSize := by
  obtain ⟨node, idx, -, hlen, -, hseg⟩ := h.resident
  have hpast := h.past
  have hstart := h.start
  have htokens := h.tokens_pos
  have hpage : (cache.pageSize.toNat : ℤ) = cache.pageSize := Int.toNat_of_nonneg h.page_pos.le
  have hlength := congrArg List.length hseg
  rw [List.length_drop, List.length_take_of_le (by omega),
    show pageSlots cache.pageSize.toNat plan.srcPages = RowCopy.blockRows _ _ from rfl,
    RowCopy.length_blockRows] at hlength
  rw [← hpage, ← Nat.cast_mul, ← hlength]
  unfold Plan.n
  omega

theorem coneEntries_laid {page : ℕ} {batch : List (Extend Node Token)}
    (hwhole : WholePlans page batch) {start : ℤ} (hstart : 0 ≤ start) {entries : List ConeEntry}
    {reqs : List (Req Node Token)} (h : coneEntries start batch = some (entries, reqs)) :
    Laid page entries ∧ ∀ e ∈ entries, start ≤ e.start := by
  induction batch generalizing start entries reqs with
  | nil =>
    cases h
    exact ⟨⟨List.Pairwise.nil, by simp, by simp, by simp⟩, by simp⟩
  | cons x batch ih =>
    have hx := hwhole x List.mem_cons_self
    have hrest : WholePlans page batch := fun y hy => hwhole y (List.mem_cons_of_mem x hy)
    unfold coneEntries at h
    cases hplan : x.req.plan with
    | none =>
      simp only [hplan, Option.bind_eq_bind, Option.bind_eq_some_iff] at h
      obtain ⟨⟨entries', reqs'⟩, htail, heq⟩ := h
      cases heq
      obtain ⟨hlaid, hge⟩ := ih hrest (by omega) htail
      exact ⟨hlaid, fun e he => by have := hge e he; omega⟩
    | some plan =>
      simp only [hplan] at h
      split_ifs at h with hcovers
      simp only [Option.bind_eq_bind, Option.bind_eq_some_iff] at h
      obtain ⟨⟨entries', reqs'⟩, htail, heq⟩ := h
      cases heq
      obtain ⟨hlaid, hge⟩ := ih hrest (by omega) htail
      rw [not_or, not_not, not_lt] at hcovers
      have hn := hx.2 plan hplan
      refine ⟨⟨List.pairwise_cons.mpr ⟨fun e he => hge e he, hlaid.ordered⟩, ?_, ?_, ?_⟩, ?_⟩
      · exact List.forall_mem_cons.mpr ⟨hstart, hlaid.start_nonneg⟩
      · exact List.forall_mem_cons.mpr ⟨hn, hlaid.n_eq⟩
      · exact List.forall_mem_cons.mpr ⟨hcovers.2, hlaid.n_le⟩
      · refine List.forall_mem_cons.mpr ⟨le_refl start, fun e he => ?_⟩
        have := hge e he
        omega

theorem buildConeBatch_laid {page : ℕ} {batch : List (Extend Node Token)}
    (hwhole : WholePlans page batch) {cone : ConeBatch} {reqs : List (Req Node Token)}
    (h : buildConeBatch batch page = some (some cone, reqs)) :
    Laid page cone.entries ∧ cone.page = page := by
  unfold buildConeBatch at h
  simp only [Option.bind_eq_bind, Option.bind_eq_some_iff] at h
  obtain ⟨⟨entries, reqs'⟩, hentries, heq⟩ := h
  simp only [Option.some.injEq, Prod.mk.injEq] at heq
  obtain ⟨heq, -⟩ := heq
  split_ifs at heq
  obtain rfl := Option.some.inj heq
  exact ⟨(coneEntries_laid hwhole (le_refl 0) hentries).1, rfl⟩

/-! ## The frame -/

section frame

variable {page : ℕ} {pool : KvPool} {loc : List ℤ} {fresh : ConeEntry → List ℤ}
  {resident : Set ℤ} {core : CoreMetadata} {pad : ℕ} {region : Buffer → ℕ → Set ℕ}
  {put : Buffer → ℕ → Payload → PoolRow Byte → PoolRow Byte}

/-- **What a batch of replays leaves**: `mem` is the memory before the copies, and `mem'` the
memory after the forward. -/
structure Replayed (cone : ConeBatch) (page : ℕ) (loc : List ℤ) (fresh : ConeEntry → List ℤ)
    (resident : Set ℤ) (region : Buffer → ℕ → Set ℕ) (buffers : List (Buffer × ℕ))
    (mem mem' : PoolMem Byte) : Prop where
  /-- a fresh page holds the bytes of its source page -/
  copied : ∀ e ∈ cone.entries, ∀ p ∈ e.srcPages.zip (fresh e),
    ∀ x ∈ buffers, ∀ off < x.2,
      RowCopy.row (mem' x.1) (p.2 * x.2 + off) = RowCopy.row (mem x.1) (p.1 * x.2 + off)
  /-- a resident page has not changed -/
  resident : ∀ q ∈ resident, ∀ x ∈ buffers, ∀ off < x.2,
    RowCopy.row (mem' x.1) (q * x.2 + off) = RowCopy.row (mem x.1) (q * x.2 + off)
  /-- nor has any other byte, but for slot 0 and the pages of the rows outside the replays -/
  frame : ∀ q, (∀ e ∈ cone.entries, q ∉ fresh e) →
    (∀ (i : ℕ) (x : ℤ), loc[i]? = some x → Outside cone.entries i → x ≠ 0 → q ≠ x / page) →
    ∀ x ∈ buffers, ∀ off < x.2, ∀ b, ¬(q = 0 ∧ off = 0 ∧ b ∈ region x.1 0) →
      byteAt mem' x.1 (q * x.2 + off) b = byteAt mem x.1 (q * x.2 + off) b

theorem nodup_fullPageBuffers {buffers : List (Buffer × ℕ)} (h : pool.Paged page)
    (hbuffers : fullPageBuffers pool = some buffers) : (buffers.map Prod.fst).Nodup := by
  obtain ⟨out, hout, hall⟩ := h.buffers
  obtain rfl := Option.some.inj (hall.symm.trans hbuffers)
  rw [List.map_append, List.nodup_append]
  refine ⟨nodup_kvBuffers pool, nodup_indexBuffers pool.indexKeys hout, ?_⟩
  rintro buf hkv buf' hindex rfl
  obtain ⟨⟨buf, per⟩, hmem, rfl⟩ := List.mem_map.mp hkv
  obtain ⟨⟨buf', per'⟩, hmem', heq⟩ := List.mem_map.mp hindex
  obtain ⟨ratio, p, i, -, -, rfl, -⟩ := mem_kvBuffers.mp hmem
  obtain ⟨ratio', p', i', -, -, rfl, -⟩ := (mem_indexBuffers hout).mp hmem'
  cases heq

/-- **The replay copy frame.** For every batch of replays and every forward that writes at the
masked slots, each fresh page holds the bytes of its source page in every buffer, no resident
page and no other page has changed but for slot 0 and the pages of the rows outside the replays,
and the floor is `s` exactly on the rows of the replaying requests. -/
theorem replay_copy_frame (batch : List (Extend Node Token)) (reqs : List (Req Node Token))
    (cone : ConeBatch) (hcone : buildConeBatch batch page = some (some cone, reqs))
    (hwhole : WholePlans page batch) (hpool : pool.Paged page)
    (halloc : Allocated page loc cone.entries fresh resident)
    (hsrc : ∀ e ∈ cone.entries, ∀ q ∈ e.srcPages, q ∈ resident) (hzero : (0 : ℤ) ∉ resident)
    (hput : ∀ buf slot v row, ∀ b ∉ region buf slot, put buf slot v row b = row b)
    (hcore : core.Of (paddedLoc loc pad)) (buffers : List (Buffer × ℕ))
    (hbuffers : fullPageBuffers pool = some buffers) (mem : PoolMem Byte)
    (hmem : ∀ e ∈ cone.entries, ∀ q, q ∈ e.srcPages ∨ q ∈ fresh e → InPool buffers mem q) :
    (∃ copy, replayCopy pool cone loc mem = some copy ∧ ∀ stores : List (Store Payload),
      Replayed cone page loc fresh resident region buffers mem
        (forwardStores pool (maskCompressorWrites core cone) put stores copy)) ∧
    ∀ paddedRows, ∀ i < paddedRows,
      (∀ e ∈ cone.entries, e.Runs i → (floorVector cone paddedRows)[i]? = some e.s) ∧
      ((∀ e ∈ cone.entries, ¬e.Runs i) → (floorVector cone paddedRows)[i]? = some 0) := by
  obtain ⟨hlaid, hpageEq⟩ := buildConeBatch_laid hwhole hcone
  refine ⟨?_, fun paddedRows i hi => floorVector_spec hlaid hi⟩
  obtain ⟨copy, hfold, -, hcopied⟩ := copyEntries_spec halloc hlaid
    (nodup_fullPageBuffers hpool hbuffers) hsrc (List.Sublist.refl cone.entries)
    (fun e he q hq => hmem e he q (Or.inl hq)) (fun e he q hq => hmem e he q (Or.inr hq))
  refine ⟨copy, ?_, fun stores => ?_⟩
  · unfold replayCopy
    rw [hbuffers, hpageEq, Int.toNat_natCast]
    exact hfold
  -- what a store may change
  have htouch : ∀ q, ∀ x ∈ buffers, ∀ off < x.2, ∀ b,
      Touches pool (maskCompressorWrites core cone) region x.1 (q * x.2 + off) b →
      (q = 0 ∧ off = 0 ∧ b ∈ region x.1 0) ∨ ∃ (i : ℕ) (y : ℤ), loc[i]? = some y ∧
        Outside cone.entries i ∧ y ≠ 0 ∧ q = y / page :=
    fun q x hx off hoff b h => touches_cases hpool halloc hlaid hcore hbuffers hx hoff h
  have hrow : ∀ q, q ≠ 0 → (∀ (i : ℕ) (y : ℤ), loc[i]? = some y → Outside cone.entries i →
      y ≠ 0 → q ≠ y / page) → ∀ x ∈ buffers, ∀ off < x.2,
      RowCopy.row (forwardStores pool (maskCompressorWrites core cone) put stores copy x.1)
        (q * x.2 + off) = RowCopy.row (copy x.1) (q * x.2 + off) := by
    intro q hq hout x hx off hoff
    refine row_eq_of_bytes fun b => byteAt_forwardStores hput stores copy fun h => ?_
    rcases htouch q x hx off hoff b h with h | ⟨i, y, hy, houtside, hy0, hqy⟩
    · exact hq h.1
    · exact hout i y hy houtside hy0 hqy
  have hkept : ∀ q, (∀ e ∈ cone.entries, q ∉ fresh e) → ∀ x ∈ buffers, ∀ off < x.2,
      RowCopy.row (copy x.1) (q * x.2 + off) = RowCopy.row (mem x.1) (q * x.2 + off) := by
    intro q hq x hx off hoff
    have h := hcopied.kept q fun hmem => by
      obtain ⟨e, he, hfresh⟩ := List.mem_flatMap.mp hmem
      exact hq e he hfresh
    exact congrFun (congrFun h ⟨x, hx⟩) ⟨off, hoff⟩
  refine ⟨?_, ?_, ?_⟩
  · intro e he p hp x hx off hoff
    have hd := (List.of_mem_zip hp).2
    rw [hrow p.2 (halloc.positive e he p.2 hd).ne'
      (fun i y hy hout _ heq => halloc.others i y hy hout e he (heq ▸ hd)) x hx off hoff]
    have h := hcopied.copied p (mem_zip_entries halloc.length he hp)
    exact congrFun (congrFun h ⟨x, hx⟩) ⟨off, hoff⟩
  · intro q hq x hx off hoff
    rw [hrow q (fun h => hzero (h ▸ hq)) (fun i y hy hout hy0 heq =>
      (halloc.others_new i y hy hout).elim hy0 fun h => h (heq ▸ hq)) x hx off hoff]
    exact hkept q (fun e he hfresh => halloc.new e he q hfresh hq) x hx off hoff
  · intro q hq hout x hx off hoff b hb
    rw [byteAt_forwardStores hput stores copy fun h => ?_]
    · unfold byteAt
      rw [hkept q hq x hx off hoff]
    · rcases htouch q x hx off hoff b h with h | ⟨i, y, hy, houtside, hy0, hqy⟩
      · exact hb h
      · exact hout i y hy houtside hy0 hqy

end frame

/-- A pool with pages of two slots: one buffer of latents, and one of index keys with two rows
for each page. -/
def smallPool : KvPool where
  unifiedKv := false
  requestWindow := false
  pageSize := 2
  kvPools := [(1, some { pageSize := 2, buffers := 1 })]
  indexPools := [(1, { pageSize := 1, buffers := 1 })]
  kvKeys := by decide
  indexKeys := by decide

/-- Five pages. -/
def smallMem : PoolMem ℕ
  | .kv _ _ => (List.range 5).map fun r b => 10 * r + b
  | .index _ _ => (List.range 10).map fun r b => 10 * r + b

/-- A replay of one page, and one row behind it. -/
def smallBatch : List (Extend Unit ℕ) :=
  [{ req := { smallReq with plan := some ⟨2, 4, [1], smallReq.found⟩ }, pre := 2, ext := 3 }]

def smallCone : ConeBatch := ⟨[⟨0, 2, 3, 2, [1]⟩], 2⟩

def smallCore : CoreMetadata := ⟨some [6, 7, 8], none⟩

def smallPut (_ : Buffer) (slot : ℕ) (v : ℕ) (row : PoolRow ℕ) : PoolRow ℕ :=
  Function.update row slot v

theorem smallAllocated : Allocated 2 [6, 7, 8] smallCone.entries (fun _ => [3]) {1} where
  page_pos := by decide
  rows := by decide
  length := by decide
  positive := by decide
  distinct := by decide
  apart := by decide
  new := by decide
  nonneg := by
    intro i x hx
    have hmem := List.mem_of_getElem? hx
    simp at hmem
    omega
  others := by
    intro i x hx hout e he
    match i, hx with
    | 0, _ => exact absurd (by decide) (hout _ List.mem_cons_self)
    | 1, _ => exact absurd (by decide) (hout _ List.mem_cons_self)
    | 2, hx => cases hx; decide
  others_new := by
    intro i x hx hout
    have hmem := List.mem_of_getElem? hx
    simp at hmem
    rcases hmem with rfl | rfl | rfl <;> right <;> decide

/-- The bytes of the source page are those of the fresh page, whatever the forward has written. -/
theorem replay_copy_frame_small : ∃ copy,
    replayCopy smallPool smallCone [6, 7, 8] smallMem = some copy ∧
    Replayed smallCone 2 [6, 7, 8] (fun _ => [3]) {1} (fun _ slot => {slot})
      [(.kv 1 0, 1), (.index 1 0, 2)] smallMem
      (forwardStores smallPool (maskCompressorWrites smallCore smallCone) smallPut
        [⟨.kv 1 0, 0, 99⟩, ⟨.kv 1 0, 2, 77⟩, ⟨.index 1 0, 1, 55⟩] copy) := by
  refine (@replay_copy_frame ℕ ℕ Unit ℕ 2 smallPool [6, 7, 8] (fun _ => [3]) {1} smallCore 0
    (fun _ slot => {slot}) smallPut smallBatch _ smallCone rfl ?_ ?_ smallAllocated ?_ ?_ ?_ ?_
    [(.kv 1 0, 1), (.index 1 0, 2)] rfl smallMem ?_).1.imp fun copy h => ⟨h.1, h.2 _⟩
  · intro x hx
    obtain rfl := List.mem_singleton.mp hx
    exact ⟨by decide, fun plan hplan => by cases hplan; decide⟩
  · refine ⟨rfl, rfl, by decide, ?_, ?_⟩
    · intro ratio p hmem _
      obtain heq := List.mem_singleton.mp hmem
      cases heq
      rfl
    · intro ratio p hmem _
      obtain heq := List.mem_singleton.mp hmem
      cases heq
      decide
  · decide
  · decide
  · intro buf slot v row b hb
    exact Function.update_of_ne hb v row
  · intro ratio l hl i c hc
    unfold CoreMetadata.outLoc at hl
    split_ifs at hl with hratio
    · cases hl
      subst hratio
      exact Or.inr ⟨c, by simpa [paddedLoc] using hc, by simp⟩
    · cases hl
  · intro e he q hq x hx
    obtain rfl := List.mem_singleton.mp he
    rcases List.mem_pair.mp hx with rfl | rfl <;> rcases hq with hq | hq <;>
      obtain rfl := List.mem_singleton.mp hq <;> decide

end SwaCone
