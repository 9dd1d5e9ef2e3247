import SparkTP4.MoeCapacities

/-!
# Every chunk has a plan that holds it

The capacities kept are sorted and within their plans' limits, and the chunk is the largest.
So a chunk's rows are held by some capacity, and both the table and the bisection find the
smallest one that does.
-/

namespace MoeCapacities

/-! ## The capacities kept -/

/-- The test of `select_chunk`. -/
def Kept (limits : List (ℕ × ℕ)) (c : ℕ) : Prop := ∃ lim, (c, lim) ∈ limits ∧ c ≤ lim

theorem pairwise_sorted (l : List ℕ) : l.mergeSort.Pairwise (· ≤ ·) :=
  (@List.pairwise_mergeSort ℕ (fun a b => decide (a ≤ b))
    (fun a b c hab hbc => by simp only [decide_eq_true_eq] at *; exact hab.trans hbc)
    (fun a b => by simpa using le_total a b) l).imp of_decide_eq_true

theorem mem_kept {limits : List (ℕ × ℕ)} {c : ℕ} :
    c ∈ ((limits.filter fun p => p.1 ≤ p.2).map Prod.fst).mergeSort ↔ Kept limits c := by
  rw [List.mem_mergeSort, List.mem_map]
  constructor
  · rintro ⟨⟨c', lim⟩, hp, rfl⟩
    obtain ⟨hmem, hle⟩ := List.mem_filter.mp hp
    exact ⟨lim, hmem, of_decide_eq_true hle⟩
  · rintro ⟨lim, hmem, hle⟩
    exact ⟨(c, lim), List.mem_filter.mpr ⟨hmem, decide_eq_true hle⟩, rfl⟩

/-- **What `select_chunk` returns.** -/
structure Selected (limits : List (ℕ × ℕ)) (chunk : ℕ) (caps dropped : List ℕ) : Prop where
  sorted : caps.Pairwise (· ≤ ·)
  mem_caps : ∀ c, c ∈ caps ↔ Kept limits c
  chunk_mem : chunk ∈ caps
  le_chunk : ∀ c ∈ caps, c ≤ chunk
  mem_dropped : ∀ c, c ∈ dropped ↔ c ∈ limits.map Prod.fst ∧ ¬ Kept limits c

theorem selectChunk_spec {limits : List (ℕ × ℕ)} {sel : ℕ × List ℕ × List ℕ}
    (h : selectChunk limits = some sel) : Selected limits sel.1 sel.2.1 sel.2.2 := by
  unfold selectChunk at h
  obtain ⟨chunk, hlast, rfl⟩ := Option.map_eq_some_iff.mp h
  have hsorted := pairwise_sorted ((limits.filter fun p => p.1 ≤ p.2).map Prod.fst)
  obtain ⟨front, hfront⟩ := List.getLast?_eq_some_iff.mp hlast
  refine ⟨hsorted, fun c => mem_kept, List.mem_of_getLast? hlast, fun c hc => ?_, fun c => ?_⟩
  · dsimp only at hc
    rw [hfront] at hsorted hc
    rcases List.mem_append.mp hc with hc | hc
    · exact (List.pairwise_append.mp hsorted).2.2 c hc chunk List.mem_cons_self
    · exact (List.mem_singleton.mp hc).le
  · rw [List.mem_mergeSort, List.mem_filter, decide_eq_true_iff, mem_kept]

/-- `select_chunk` dies only where no capacity fits its limit. -/
theorem selectChunk_ne_none {limits : List (ℕ × ℕ)} {c : ℕ} (h : Kept limits c) :
    selectChunk limits ≠ none := by
  intro hnone
  have hnil := List.getLast?_eq_none_iff.mp (Option.map_eq_none_iff.mp hnone)
  have hmem := mem_kept.mpr h
  rw [hnil] at hmem
  exact List.not_mem_nil hmem

/-! ## The lookup -/

theorem bisectLeft_cons (c : ℕ) (caps : List ℕ) (m : ℕ) :
    bisectLeft (c :: caps) m = if c < m then bisectLeft caps m + 1 else 0 := by
  unfold bisectLeft
  rw [List.takeWhile_cons]
  by_cases h : c < m <;> simp [h]

theorem getElem?_bisectLeft {caps : List ℕ} (hs : caps.Pairwise (· ≤ ·)) {m c : ℕ} (hc : c ∈ caps)
    (hm : m ≤ c) :
    ∃ cap, caps[bisectLeft caps m]? = some cap ∧ IsLeast {c | c ∈ caps ∧ m ≤ c} cap := by
  induction caps with
  | nil => exact absurd hc List.not_mem_nil
  | cons c₀ caps ih =>
    obtain ⟨hle, hs⟩ := List.pairwise_cons.mp hs
    rw [bisectLeft_cons]
    by_cases hlt : c₀ < m
    · have hc : c ∈ caps := (List.mem_cons.mp hc).resolve_left fun h => absurd hm (by omega)
      obtain ⟨cap, hcap, hleast⟩ := ih hs hc
      refine ⟨cap, ?_, ⟨List.mem_cons_of_mem c₀ hleast.1.1, hleast.1.2⟩, fun d hd => ?_⟩
      · rw [if_pos hlt]
        exact hcap
      · refine hleast.2 ⟨(List.mem_cons.mp hd.1).resolve_left fun h => ?_, hd.2⟩
        exact absurd hd.2 (by omega)
    · refine ⟨c₀, ?_, ⟨List.mem_cons_self, not_lt.mp hlt⟩, fun d hd => ?_⟩
      · rw [if_neg hlt]
        rfl
      · rcases List.mem_cons.mp hd.1 with rfl | hd
        · exact le_rfl
        · exact hle d hd

/-- **The lookup finds the smallest capacity that holds the rows**, where one does. -/
theorem lookup_isLeast {caps : List ℕ} (hs : caps.Pairwise (· ≤ ·)) {m c : ℕ} (hc : c ∈ caps)
    (hm : m ≤ c) : ∃ cap, lookup caps m = some cap ∧ IsLeast {c | c ∈ caps ∧ m ≤ c} cap := by
  obtain ⟨cap, hcap, hleast⟩ := getElem?_bisectLeft hs hc hm
  have hlt := (List.getElem?_eq_some_iff.mp hcap).1
  exact ⟨cap, (if_pos hlt).trans hcap, hleast⟩

/-! ## The arena -/

theorem le_align (n : ℕ) : n ≤ align n := by
  unfold align
  have := Nat.div_add_mod (n + 256 - 1) 256
  omega

/-- A plan's views are in the bytes it needs, and apart. -/
theorem within_carve {off : ℕ} {specs : List ℕ} {v : Region} (h : v ∈ carve off specs) :
    v.Within ⟨off, (specs.map align).sum⟩ := by
  induction specs generalizing off with
  | nil => exact absurd h List.not_mem_nil
  | cons nb specs ih =>
    have hnb := le_align nb
    rw [List.map_cons, List.sum_cons]
    rcases List.mem_cons.mp h with rfl | h
    · rw [Region.within_mk]
      omega
    · refine (ih h).trans ?_
      rw [Region.within_mk]
      omega

theorem pairwise_carve (off : ℕ) (specs : List ℕ) : (carve off specs).Pairwise Region.Apart := by
  induction specs generalizing off with
  | nil => exact List.Pairwise.nil
  | cons nb specs ih =>
    refine List.pairwise_cons.mpr ⟨fun v hv => Or.inl ?_, ih _⟩
    have hv := (within_carve hv).1
    have hnb := le_align nb
    show off + nb ≤ v.off
    exact (Nat.add_le_add_left hnb off).trans hv

theorem le_foldl_max {l : List ℕ} {a n : ℕ} (h : n ∈ l) : n ≤ l.foldl max a := by
  have hmono : ∀ (l : List ℕ) (a : ℕ), a ≤ l.foldl max a := by
    intro l
    induction l with
    | nil => exact fun a => le_rfl
    | cons x l ih => exact fun a => (le_max_left a x).trans (ih _)
  induction l generalizing a with
  | nil => exact absurd h List.not_mem_nil
  | cons x l ih =>
    rcases List.mem_cons.mp h with rfl | h
    · exact (le_max_right a n).trans (hmono l _)
    · exact ih h

/-! ## The geometry -/

/-- The capacities of the prepared plans: the keys of a dictionary, each the number of tokens
of a plan. -/
structure Prepared (prepared : List PlanEntry) : Prop where
  nodup : (prepared.map PlanEntry.cap).Nodup
  pos : ∀ e ∈ prepared, 0 < e.cap

/-- The limits `select_chunk` is given. -/
def limits (prepared : List PlanEntry) : List (ℕ × ℕ) :=
  prepared.map fun e => (e.cap, e.maxPerLaunch)

theorem mem_limits {prepared : List PlanEntry} {c lim : ℕ} :
    (c, lim) ∈ limits prepared ↔ ∃ e ∈ prepared, e.cap = c ∧ e.maxPerLaunch = lim := by
  simp [limits]

theorem Prepared.eq_of_cap {prepared : List PlanEntry} (h : Prepared prepared) {e e' : PlanEntry}
    (he : e ∈ prepared) (he' : e' ∈ prepared) (heq : e.cap = e'.cap) : e = e' :=
  List.inj_on_of_nodup_map h.nodup he he' heq

/-- **A geometry that has been built.** -/
structure Built (prepared : List PlanEntry) (g : Geometry) : Prop where
  sorted : g.caps.Pairwise (· ≤ ·)
  chunk_mem : g.chunk ∈ g.caps
  le_chunk : ∀ c ∈ g.caps, c ≤ g.chunk
  plan : ∀ c ∈ g.caps, ∃ e, planOf g.plans c = some e ∧ e ∈ prepared ∧ e.cap = c ∧
    c ≤ e.maxPerLaunch
  kept_of_limit : ∀ {c}, (∃ e ∈ prepared, e.cap = c ∧ c ≤ e.maxPerLaunch) → c ∈ g.caps
  need : ∀ e ∈ g.plans, e.need ≤ g.arena
  table : g.table = none :: (List.range g.exactMax).map fun i => lookup g.caps (i + 1)

theorem planOf_some {plans : List PlanEntry} {c : ℕ} {e : PlanEntry} (h : planOf plans c = some e) :
    e ∈ plans ∧ e.cap = c :=
  ⟨List.mem_of_find?_eq_some h, by simpa using List.find?_some h⟩

theorem exists_planOf {plans : List PlanEntry} {e : PlanEntry} (h : e ∈ plans) :
    ∃ e', planOf plans e.cap = some e' :=
  Option.isSome_iff_exists.mp (List.find?_isSome.mpr ⟨e, h, decide_eq_true rfl⟩)

theorem mapM_of_forall {α β : Type} {f : α → Option β} {P : α → β → Prop} {l : List α}
    (h : ∀ x ∈ l, ∃ y, f x = some y ∧ P x y) : ∃ ys, l.mapM f = some ys ∧ List.Forall₂ P l ys := by
  induction l with
  | nil => exact ⟨[], rfl, .nil⟩
  | cons x l ih =>
    obtain ⟨y, hy, hP⟩ := h x List.mem_cons_self
    obtain ⟨ys, hys, hPs⟩ := ih fun z hz => h z (List.mem_cons_of_mem x hz)
    refine ⟨y :: ys, ?_, .cons hP hPs⟩
    rw [List.mapM_cons, hy, hys]
    rfl

theorem exists_of_forall₂ {α β : Type} {P : α → β → Prop} {l : List α} {ys : List β}
    (h : List.Forall₂ P l ys) {x : α} (hx : x ∈ l) : ∃ y ∈ ys, P x y := by
  induction h with
  | nil => exact absurd hx List.not_mem_nil
  | cons hP _ ih =>
    rcases List.mem_cons.mp hx with rfl | hx
    · exact ⟨_, List.mem_cons_self, hP⟩
    · obtain ⟨y, hy, hP⟩ := ih hx
      exact ⟨y, List.mem_cons_of_mem _ hy, hP⟩

/-- **The geometry is built unless `select_chunk` dies.** -/
theorem build_spec {exactMax : ℕ} {prepared : List PlanEntry} (hprep : Prepared prepared)
    (h : selectChunk (limits prepared) ≠ none) :
    ∃ g, build exactMax prepared = some g ∧ Built prepared g := by
  obtain ⟨sel, hsel⟩ := Option.ne_none_iff_exists'.mp h
  have hspec := selectChunk_spec hsel
  have hcaps : ∀ c, c ∈ sel.2.1 ↔ ∃ e ∈ prepared, e.cap = c ∧ c ≤ e.maxPerLaunch := by
    intro c
    rw [hspec.mem_caps]
    constructor
    · rintro ⟨lim, hmem, hle⟩
      obtain ⟨e, he, hcap, rfl⟩ := mem_limits.mp hmem
      exact ⟨e, he, hcap, hle⟩
    · rintro ⟨e, he, hcap, hle⟩
      exact ⟨e.maxPerLaunch, mem_limits.mpr ⟨e, he, hcap, rfl⟩, hle⟩
  -- the plans that are left are those of the capacities kept
  have hplans : ∀ e, e ∈ plansLeft prepared sel.2.2 ↔
      e ∈ prepared ∧ e.cap ∈ sel.2.1 := by
    intro e
    rw [plansLeft, List.mem_filter, decide_eq_true_iff, hspec.mem_dropped, ← hspec.mem_caps]
    refine and_congr_right fun he => ⟨fun hn => ?_, fun hc hn => hn.2 hc⟩
    have hkey : e.cap ∈ (limits prepared).map Prod.fst :=
      List.mem_map.mpr ⟨_, mem_limits.mpr ⟨e, he, rfl, rfl⟩, rfl⟩
    exact not_not.mp fun hc => hn ⟨hkey, hc⟩
  have hplan : ∀ c ∈ sel.2.1, ∃ e, planOf (plansLeft prepared sel.2.2) c = some e ∧
      e ∈ prepared ∧ e.cap = c ∧ c ≤ e.maxPerLaunch := by
    intro c hc
    obtain ⟨e, he, rfl, hle⟩ := (hcaps c).mp hc
    obtain ⟨e', he'⟩ := exists_planOf ((hplans e).mpr ⟨he, hc⟩)
    obtain ⟨hmem, hcap⟩ := planOf_some he'
    obtain rfl := hprep.eq_of_cap ((hplans e').mp hmem).1 he hcap
    exact ⟨e', he', he, rfl, hle⟩
  obtain ⟨kept, hkept, hall⟩ := mapM_of_forall (P := fun c e =>
    planOf (plansLeft prepared sel.2.2) c = some e) fun c hc => by
      obtain ⟨e, he, -⟩ := hplan c hc
      exact ⟨e, he, he⟩
  refine ⟨geometryOf exactMax sel (plansLeft prepared sel.2.2) kept, ?_, hspec.sorted,
    hspec.chunk_mem, hspec.le_chunk, hplan, fun hc => (hcaps _).mpr hc, fun e he => ?_, rfl⟩
  · have hsel' : selectChunk (prepared.map fun e => (e.cap, e.maxPerLaunch)) = some sel := hsel
    unfold build
    rw [hsel', Option.bind_some, hkept, Option.map_some]
  · -- the arena has been sized for this plan among the others
    obtain ⟨hmem, hcap⟩ := (hplans e).mp he
    obtain ⟨e', he', hP⟩ := exists_of_forall₂ hall hcap
    obtain ⟨hmem', hcap'⟩ := planOf_some hP
    obtain rfl := hprep.eq_of_cap ((hplans e').mp hmem').1 hmem hcap'
    exact (le_foldl_max (List.mem_map_of_mem he')).trans (le_max_left _ _)

/-! ## The chunks -/

section chunks

variable {prepared : List PlanEntry} {g : Geometry}

/-- **`cap_for` finds the smallest capacity that holds a chunk**, by the table and by bisection. -/
theorem capFor_isLeast (h : Built prepared g) {m : ℕ} (hm : 1 ≤ m) (hchunk : m ≤ g.chunk) :
    ∃ cap, g.capFor m = some cap ∧ lookup g.caps m = some cap ∧
      IsLeast {c | c ∈ g.caps ∧ m ≤ c} cap := by
  obtain ⟨cap, hcap, hleast⟩ := lookup_isLeast h.sorted h.chunk_mem hchunk
  refine ⟨cap, ?_, hcap, hleast⟩
  unfold Geometry.capFor
  by_cases hexact : m ≤ g.exactMax
  · obtain ⟨i, rfl⟩ := Nat.exists_eq_add_of_le' hm
    rw [if_pos hexact, h.table, List.getElem?_cons_succ, List.getElem?_map,
      List.getElem?_range hexact]
    exact hcap
  · rw [if_neg hexact, hcap]

theorem range'_append_range' {s e n : ℕ} (hs : s ≤ e) (he : e ≤ n) :
    List.range' s (e - s) ++ List.range' e (n - e) = List.range' s (n - s) := by
  obtain ⟨d, rfl⟩ := Nat.exists_eq_add_of_le hs
  rw [Nat.add_sub_cancel_left, List.range'_append_1]
  congr 1
  omega

/-- **The chunks tile the rows**, and none is empty or larger than the chunk. -/
theorem chunksFrom_spec (hchunk : 0 < g.chunk) (mAll s : ℕ) :
    ((g.chunksFrom mAll s).flatMap fun se => List.range' se.1 (se.2 - se.1)) =
        List.range' s (mAll - s) ∧
      ∀ se ∈ g.chunksFrom mAll s, se.1 < se.2 ∧ se.2 ≤ mAll ∧ se.2 - se.1 ≤ g.chunk := by
  induction s using Geometry.chunksFrom.induct g mAll with
  | case1 s h ih =>
    rw [Geometry.chunksFrom, if_pos h]
    have hlt : s < min mAll (s + g.chunk) := lt_min h.1 (Nat.lt_add_of_pos_right hchunk)
    have hle : min mAll (s + g.chunk) ≤ mAll := min_le_left _ _
    refine ⟨?_, fun se hse => ?_⟩
    · rw [List.flatMap_cons, ih.1]
      exact range'_append_range' hlt.le hle
    · rcases List.mem_cons.mp hse with rfl | hse
      · refine ⟨hlt, hle, ?_⟩
        show min mAll (s + g.chunk) - s ≤ g.chunk
        exact Nat.sub_le_iff_le_add'.mpr (min_le_right _ _)
      · exact ih.2 se hse
  | case2 s h =>
    rw [Geometry.chunksFrom, if_neg h]
    have hle : mAll ≤ s := not_lt.mp fun hlt => h ⟨hlt, hchunk⟩
    rw [Nat.sub_eq_zero_of_le hle]
    exact ⟨rfl, fun se hse => absurd hse List.not_mem_nil⟩

/-- What one launch of `forward` is to be. -/
structure LaunchOk (prepared : List PlanEntry) (g : Geometry) (se : ℕ × ℕ) (L : Geometry.Launch) :
    Prop where
  bounds : (L.s, L.e) = se
  rows : 0 < L.e - L.s ∧ L.e - L.s ≤ g.chunk
  cap : g.capFor (L.e - L.s) = some L.cap
  fits : L.e - L.s ≤ L.cap
  plan : L.plan ∈ prepared ∧ L.plan.cap = L.cap
  limit : L.cap ≤ L.plan.maxPerLaunch

/-- **A chunk is launched**: `_run` does not raise. -/
theorem launch_ok (h : Built prepared g) {se : ℕ × ℕ} (hlt : se.1 < se.2)
    (hle : se.2 - se.1 ≤ g.chunk) : ∃ L, g.launch se = some L ∧ LaunchOk prepared g se L := by
  have hpos : 1 ≤ se.2 - se.1 := Nat.sub_pos_of_lt hlt
  obtain ⟨cap, hcap, -, hleast⟩ := capFor_isLeast h hpos hle
  obtain ⟨e, he, hmem, hecap, hlimit⟩ := h.plan cap hleast.1.1
  refine ⟨⟨se.1, se.2, cap, e⟩, ?_, rfl, ⟨hpos, hle⟩, hcap, hleast.1.2, ⟨hmem, hecap⟩, hlimit⟩
  unfold Geometry.launch Geometry.run
  rw [hcap, Option.bind_some, if_neg (not_lt.mpr hleast.1.2), he, Option.map_some]

/-- The launches cover the rows of their chunks. -/
theorem flatMap_launches {l : List (ℕ × ℕ)} {Ls : List Geometry.Launch}
    (h : List.Forall₂ (LaunchOk prepared g) l Ls) :
    (Ls.flatMap fun L => List.range' L.s (L.e - L.s)) =
      l.flatMap fun se => List.range' se.1 (se.2 - se.1) := by
  induction h with
  | nil => rfl
  | cons hok _ ih => rw [List.flatMap_cons, List.flatMap_cons, ih, ← hok.bounds]

/-- **`forward` runs every row once**, in chunks that their plans hold. -/
theorem forward_spec (h : Built prepared g) (hchunk : 0 < g.chunk) (mAll : ℕ) :
    ∃ Ls, g.forward mAll = some Ls ∧
      (Ls.flatMap fun L => List.range' L.s (L.e - L.s)) = List.range mAll ∧
      ∀ L ∈ Ls, LaunchOk prepared g (L.s, L.e) L := by
  obtain ⟨htile, hchunks⟩ := chunksFrom_spec hchunk mAll 0
  obtain ⟨Ls, hLs, hall⟩ := mapM_of_forall (f := g.launch) (P := LaunchOk prepared g)
    fun se hse => launch_ok h (hchunks se hse).1 (hchunks se hse).2.2
  refine ⟨Ls, hLs, ?_, fun L hL => ?_⟩
  · rw [flatMap_launches hall, htile, List.range_eq_range', Nat.sub_zero]
  · obtain ⟨se, -, hok⟩ := exists_of_forall₂ hall.flip hL
    exact ⟨rfl, hok.rows, hok.cap, hok.fits, hok.plan, hok.limit⟩

/-! ## Pre-quantized input -/

/-- The cache holds views of the plan of their capacity. -/
def CacheOk (kb : ℕ) (pq : PqViews) : Prop :=
  ∀ cap v, pq cap = some (some v) → v.cap = cap ∧ cap ≤ v.rows ∧ cap * kb ≤ v.scaleNumel

theorem bindViews_ok {kb cap : ℕ} {bound : Option Bound} {v : InputViews}
    (h : bindViews kb cap bound = some v) :
    v.cap = cap ∧ cap ≤ v.rows ∧ cap * kb ≤ v.scaleNumel := by
  obtain ⟨b, -, hb⟩ := Option.bind_eq_some_iff.mp h
  obtain ⟨⟨-, hrows, hscale⟩, hv⟩ := Option.ite_none_right_eq_some.mp hb
  obtain rfl := Option.some.inj hv
  exact ⟨rfl, hrows, hscale⟩

theorem getD_ok {kb cap : ℕ} {pq : PqViews} (hpq : CacheOk kb pq) {bound : Option Bound}
    {v : InputViews} (h : (pq cap).getD (bindViews kb cap bound) = some v) :
    v.cap = cap ∧ cap ≤ v.rows ∧ cap * kb ≤ v.scaleNumel := by
  cases hcap : pq cap with
  | none =>
    rw [hcap, Option.getD_none] at h
    exact bindViews_ok h
  | some u =>
    rw [hcap, Option.getD_some] at h
    exact hpq cap v (hcap.trans (congrArg some h))

theorem prequantViews_cases (g : Geometry) (kb : ℕ) (impl : Bool) (pq : PqViews) (m : ℕ)
    (bound : Option Bound) : g.prequantViews kb impl pq m bound = (none, pq) ∨
      ∃ cap, 1 ≤ m ∧ m ≤ g.chunk ∧ g.capFor m = some cap ∧ g.prequantViews kb impl pq m bound =
        (((pq cap).getD (bindViews kb cap bound)).bind (firstRows kb m),
          Function.update pq cap (some ((pq cap).getD (bindViews kb cap bound)))) := by
  unfold Geometry.prequantViews
  by_cases hgate : impl = false ∨ ¬ (1 ≤ m ∧ m ≤ g.chunk)
  · exact Or.inl (if_pos hgate)
  · rw [if_neg hgate]
    obtain ⟨hm, hchunk⟩ := not_not.mp (not_or.mp hgate).2
    cases hcap : g.capFor m with
    | none => exact Or.inl rfl
    | some cap => exact Or.inr ⟨cap, hm, hchunk, rfl, rfl⟩

theorem cacheOk_run (g : Geometry) (kb : ℕ) (calls : List (Bool × ℕ × Option Bound)) :
    CacheOk kb (g.prequantRun kb calls) := by
  suffices h : ∀ pq, CacheOk kb pq → CacheOk kb
      (calls.foldl (fun pq c => (g.prequantViews kb c.1 pq c.2.1 c.2.2).2) pq) from
    h _ fun _ _ h => by cases h
  induction calls with
  | nil => exact fun pq hpq => hpq
  | cons c calls ih =>
    intro pq hpq
    refine ih _ ?_
    show CacheOk kb (g.prequantViews kb c.1 pq c.2.1 c.2.2).2
    rcases prequantViews_cases g kb c.1 pq c.2.1 c.2.2 with heq | ⟨cap, -, -, -, heq⟩
    · rw [heq]
      exact hpq
    · rw [heq]
      intro cap' v hv
      change Function.update pq cap _ cap' = _ at hv
      by_cases hcap : cap' = cap
      · rw [hcap, Function.update_self] at hv
        rw [hcap]
        exact getD_ok hpq (Option.some.inj hv)
      · rw [Function.update_of_ne hcap] at hv
        exact hpq cap' v hv

/-- **`prequant_views` gives the first rows of the plan that runs them**, after any calls. -/
theorem prequantViews_ok (h : Built prepared g) {kb : ℕ} {calls : List (Bool × ℕ × Option Bound)}
    {impl : Bool} {m : ℕ} {bound : Option Bound} {q : Prequant}
    (hq : (g.prequantViews kb impl (g.prequantRun kb calls) m bound).1 = some q) :
    g.capFor m = some q.cap ∧ m ≤ q.cap ∧ q.rows = m ∧ q.scaleRows = m := by
  rcases prequantViews_cases g kb impl (g.prequantRun kb calls) m bound with
    heq | ⟨cap, hm, hchunk, hcap, heq⟩
  · rw [heq] at hq
    cases hq
  · rw [heq] at hq
    obtain ⟨v, hv, hfirst⟩ := Option.bind_eq_some_iff.mp hq
    obtain ⟨hvcap, hrows, -⟩ := getD_ok (cacheOk_run g kb calls) hv
    obtain ⟨-, hout⟩ := Option.ite_none_right_eq_some.mp hfirst
    obtain rfl := Option.some.inj hout
    obtain ⟨cap', hcap', -, hleast⟩ := capFor_isLeast h hm hchunk
    obtain rfl := Option.some.inj (hcap'.symm.trans hcap)
    refine ⟨hcap.trans (congrArg some hvcap.symm), ?_, min_eq_left (hleast.1.2.trans hrows), rfl⟩
    show m ≤ v.cap
    rw [hvcap]
    exact hleast.1.2

end chunks

/-- **The capacities of a geometry are sound.** Unless `select_chunk` dies, the geometry is
built, and then: `forward` cuts any number of rows into consecutive chunks, each run by a
prepared plan within its capacity and its launch limit; `cap_for` is the smallest capacity kept
that holds the rows, by the table as by bisection; the views of a plan lie in the arena and
apart; and whatever was asked before, `prequant_views` gives the rows of a plan that holds
them. -/
theorem capacities_sound (exactMax : ℕ) (prepared : List PlanEntry) (hprep : Prepared prepared)
    (hselect : selectChunk (limits prepared) ≠ none) :
    ∃ g, build exactMax prepared = some g ∧
      (∀ mAll, ∃ Ls, g.forward mAll = some Ls ∧
        (Ls.flatMap fun L => List.range' L.s (L.e - L.s)) = List.range mAll ∧
        ∀ L ∈ Ls, LaunchOk prepared g (L.s, L.e) L) ∧
      (∀ m, 1 ≤ m → m ≤ g.chunk → ∃ cap, g.capFor m = some cap ∧ lookup g.caps m = some cap ∧
        IsLeast {c | (∃ e ∈ prepared, e.cap = c ∧ c ≤ e.maxPerLaunch) ∧ m ≤ c} cap) ∧
      (∀ e ∈ g.plans, (∀ v ∈ e.views, v.Within ⟨0, g.arena⟩) ∧ e.views.Pairwise Region.Apart) ∧
      ∀ kb calls impl m bound q,
        (g.prequantViews kb impl (g.prequantRun kb calls) m bound).1 = some q →
          g.capFor m = some q.cap ∧ m ≤ q.cap ∧ q.rows = m ∧ q.scaleRows = m := by
  obtain ⟨g, hg, hbuilt⟩ := build_spec hprep hselect
  have hchunk : 0 < g.chunk := by
    obtain ⟨e, -, hmem, hcap, -⟩ := hbuilt.plan _ hbuilt.chunk_mem
    exact hcap ▸ hprep.pos e hmem
  refine ⟨g, hg, forward_spec hbuilt hchunk, fun m hm hle => ?_, fun e he => ⟨fun v hv => ?_,
    pairwise_carve 0 e.specs⟩, fun kb calls impl m bound q hq => prequantViews_ok hbuilt hq⟩
  · obtain ⟨cap, hcap, hlookup, hleast⟩ := capFor_isLeast hbuilt hm hle
    refine ⟨cap, hcap, hlookup, ?_⟩
    have hset : {c | c ∈ g.caps ∧ m ≤ c} =
        {c | (∃ e ∈ prepared, e.cap = c ∧ c ≤ e.maxPerLaunch) ∧ m ≤ c} := by
      ext c
      refine and_congr_left fun _ => ⟨fun hc => ?_, fun hc => hbuilt.kept_of_limit hc⟩
      obtain ⟨e, -, hmem, hcap, hlimit⟩ := hbuilt.plan c hc
      exact ⟨e, hmem, hcap, hlimit⟩
    rw [← hset]
    exact hleast
  · refine (within_carve hv).trans ?_
    rw [Region.within_mk]
    exact ⟨le_rfl, (Nat.zero_add _).trans_le ((hbuilt.need e he).trans (Nat.zero_add _).ge)⟩

/-- Plans for 6, 8 and 16 rows, the last past its limit of 12. -/
def smallPlans : List PlanEntry := [⟨6, [100, 300], 6⟩, ⟨8, [40], 8⟩, ⟨16, [], 12⟩]

/-- 21 rows are run in chunks that tile them. -/
theorem capacities_sound_small : ∃ g, build 7 smallPlans = some g ∧
    ∃ Ls, g.forward 21 = some Ls ∧
      (Ls.flatMap fun L => List.range' L.s (L.e - L.s)) = List.range 21 ∧
      ∀ L ∈ Ls, LaunchOk smallPlans g (L.s, L.e) L := by
  obtain ⟨g, hg, hforward, -⟩ := capacities_sound 7 smallPlans ⟨by decide, by decide⟩
    (selectChunk_ne_none ⟨8, by decide, le_rfl⟩)
  exact ⟨g, hg, hforward 21⟩

end MoeCapacities
