import Mathlib.Data.List.Zip
import SparkTP4.L2PrefetchWindows

/-!
# What the plan promises

Every planned segment is whole 16-byte units inside one recorded weight, every window keeps
to its budget and to the order of reading. No byte of a read is planned twice, except where
an attention-core window with WOB begins at its first wo_a although a look-ahead or a MoE
window holds some of it already: the promise holds exactly where that does not happen
(`plan_sound_iff`).
-/

namespace L2Prefetch

variable {k : Knobs}

/-! ## The promise -/

/-- The bytes of a segment: the read, and the place in its weight. -/
def Segment.span (s : Segment) : List (ℕ × ℕ) :=
  (List.range' s.off s.bytes).map (s.item.read, ·)

/-- The bytes of a weight that can be prefetched: what is left after the last 16 is not. -/
def Item.span (it : Item) : List (ℕ × ℕ) :=
  (List.range (it.nbytes / 16 * 16)).map (it.read, ·)

/-- A segment of the plan: whole units inside one recorded weight. -/
def Planned (events : List Event) (s : Segment) : Prop :=
  ∃ ev ptr nbytes, events[s.item.read]? = some ev ∧ ev.weight? = some (ptr, nbytes) ∧
    s.row = (ptr + s.off, s.bytes) ∧ 16 ∣ s.off ∧ 16 ∣ s.bytes ∧ 0 < s.bytes ∧
    s.off + s.bytes ≤ nbytes

/-- The order of consumption: by read, then by place. -/
def Segment.Before (s t : Segment) : Prop :=
  s.item.read < t.item.read ∨ s.item.read = t.item.read ∧ s.off + s.bytes ≤ t.off

/-- What a window may plan: an attention-core window has two budgets. -/
def limitOf (k : Knobs) : Key → ℕ
  | .l _ => k.woaMb.toNat + k.wobMb.toNat
  | key => budgetOf k key

/-- All sub-gates off. -/
structure Knobs.Off (k : Knobs) : Prop where
  woa : k.woa = false
  ahead : k.ahead = false
  engram : k.engram = false
  moe : k.moe = false
  skipN : k.skipN ≤ 0
  wob : k.wobMb ≤ 0

/-- The reads from event number `i` on, up to the next collective. -/
def readsUntil : ℕ → List Event → List Item
  | _, [] => []
  | _, .c _ :: _ => []
  | i, .w ptr nbytes :: es => ⟨i, ptr, nbytes, none, .w⟩ :: readsUntil (i + 1) es
  | i, .r ptr nbytes rows :: es => ⟨i, ptr, nbytes, rows, .r⟩ :: readsUntil (i + 1) es
  | i, _ :: es => readsUntil (i + 1) es

/-- The segments under a key. -/
def Plan.segs (plan : Plan) (key : Key) : List Segment :=
  match plan.lookup key with
  | some e => e.segs
  | none => []

/-- All segments of a plan. -/
def Plan.all (plan : Plan) : List Segment := plan.flatMap fun p => p.2.segs

/-- **The promise**, for one plan: pieces of recorded weights; budgets; no byte of a read
twice; the order of consumption; and with the sub-gates off, the longest prefix of the reads
up to the next collective. -/
structure Sound (k : Knobs) (events : List Event) (plan : Plan) : Prop where
  planned : ∀ p ∈ plan, ∀ s ∈ p.2.segs, Planned events s
  budget : ∀ p ∈ plan, total p.2.segs ≤ limitOf k p.1
  once : (plan.all.flatMap Segment.span).Nodup
  order : ∀ p ∈ plan, p.2.segs.Pairwise Segment.Before
  longest : k.Off → ∀ i n, events[i]? = some (.c n) → (plan.segs (.c n)).flatMap Segment.span =
    ((readsUntil (i + 1) (events.drop (i + 1))).flatMap Item.span).take (k.mb.toNat / 16 * 16)

/-! ## Entries of the plan -/

theorem Plan.set_of_not_mem {plan : Plan} {key : Key} (h : key ∉ plan.map Prod.fst) (e : Entry) :
    plan.set key e = plan ++ [(key, e)] := by
  have hany : (plan.any fun p => p.1 = key) = false := by
    rw [List.any_eq_false]
    intro p hp heq
    exact h (List.mem_map.mpr ⟨p, hp, by simpa using heq⟩)
  rw [Plan.set, hany]
  rfl

/-- Assignments under new keys append. -/
theorem foldl_set {α : Type} (key : α → Key) (entry : α → Entry) (xs : List α) {plan : Plan}
    (h : (plan.map Prod.fst ++ xs.map key).Nodup) :
    xs.foldl (fun plan x => plan.set (key x) (entry x)) plan =
      plan ++ xs.map fun x => (key x, entry x) := by
  induction xs generalizing plan with
  | nil => exact (List.append_nil plan).symm
  | cons x xs ih =>
    have hcons : plan.map Prod.fst ++ (x :: xs).map key =
        (plan ++ [(key x, entry x)]).map Prod.fst ++ xs.map key := by simp
    have hnew : key x ∉ plan.map Prod.fst := fun hmem =>
      (List.nodup_append.mp h).2.2 _ hmem _ List.mem_cons_self rfl
    rw [List.foldl_cons, Plan.set_of_not_mem hnew, ih (hcons ▸ h), List.map_cons,
      List.append_assoc]
    rfl

/-- The windows with segments: the marks, or the others. -/
def noted (mark : Bool) (ps : List (Window × List Segment)) : List (Window × List Segment) :=
  ps.filter fun p => p.1.isMark = mark ∧ p.2 ≠ []

theorem noted_cons (mark : Bool) (p : Window × List Segment) (ps : List (Window × List Segment)) :
    noted mark (p :: ps) =
      if p.1.isMark = mark ∧ p.2 ≠ [] then p :: noted mark ps else noted mark ps := by
  rw [noted, List.filter_cons]
  simp only [decide_eq_true_eq]
  rfl

theorem Loop.note_plan (s : Loop) (w : Window) (segs : List Segment)
    (h : w.key ∉ s.plan.map Prod.fst) : (s.note w segs).plan =
      s.plan ++ (noted false [(w, segs)]).map fun p => (p.1.key, ⟨p.2, none⟩) := by
  rw [noted_cons]
  unfold Loop.note
  by_cases hsegs : segs = []
  · simp [hsegs, noted]
  by_cases hmark : w.isMark
  · simp [hsegs, hmark, noted]
  · simp [hsegs, hmark, noted, Plan.set_of_not_mem h]

theorem Loop.note_moeItems (s : Loop) (w : Window) (segs : List Segment) :
    (s.note w segs).moeItems =
      s.moeItems ++ (noted true [(w, segs)]).map fun p => (p.1.key, p.2) := by
  rw [noted_cons]
  unfold Loop.note
  by_cases hsegs : segs = []
  · simp [hsegs, noted]
  by_cases hmark : w.isMark
  · simp [hsegs, hmark, noted]
  · simp [hsegs, hmark, noted]

theorem noted_head (mark : Bool) (p : Window × List Segment) (ps : List (Window × List Segment)) :
    noted mark (p :: ps) = noted mark [p] ++ noted mark ps := List.filter_append [p] ps

/-- **The loop notes what the windows emit.** -/
theorem run_eq {ws : List Window} {s : Loop} {j : ℕ}
    (h : (s.plan.map Prod.fst ++ ws.map (·.key)).Nodup) :
    (s.run k j ws).plan = s.plan ++ (noted false (ws.zip (emit k s.start s.cover j ws))).map
        (fun p => (p.1.key, ⟨p.2, none⟩)) ∧
      (s.run k j ws).moeItems = s.moeItems ++
        (noted true (ws.zip (emit k s.start s.cover j ws))).map fun p => (p.1.key, p.2) := by
  induction ws generalizing s j with
  | nil => simp [Loop.run, noted]
  | cons w ws ih =>
    have hnew : w.key ∉ s.plan.map Prod.fst := fun hmem =>
      (List.nodup_append.mp h).2.2 _ hmem _ List.mem_cons_self rfl
    have hplan : (s.window k j w ws).plan = s.plan ++
        (noted false [(w, (windowStep k s.start s.cover j w ws).1)]).map
          fun p => (p.1.key, ⟨p.2, none⟩) := s.note_plan w _ hnew
    have hmoe : (s.window k j w ws).moeItems = s.moeItems ++
        (noted true [(w, (windowStep k s.start s.cover j w ws).1)]).map
          fun p => (p.1.key, p.2) := s.note_moeItems w _
    have hkeys : ((s.window k j w ws).plan.map Prod.fst ++ ws.map (·.key)).Nodup := by
      refine h.sublist ?_
      rw [hplan, List.map_append, List.append_assoc, List.map_cons]
      refine List.Sublist.append_left ?_ _
      rw [List.map_map]
      exact ((List.filter_sublist (l := [(w, _)])).map (fun p : Window × List Segment =>
        p.1.key)).append (List.Sublist.refl (ws.map (·.key)))
    obtain ⟨hp, hm⟩ := ih (j := j + 1) hkeys
    rw [Loop.run, hp, hm, hplan, hmoe, emit, List.zip_cons_cons, noted_head false _ (ws.zip _),
      noted_head true _ (ws.zip _), List.map_append, List.map_append, List.append_assoc,
      List.append_assoc]
    exact ⟨rfl, rfl⟩

/-! ## The plan from what is emitted -/

theorem moeEntry_segs (items : List (Key × List Segment)) (i : ℕ) (segs : List Segment) :
    (moeEntry items i segs).segs = segs := by
  unfold moeEntry
  split <;> rfl

/-- The windows of a record with their segments. -/
def planned (k : Knobs) (events : List Event) : List (Window × List Segment) :=
  (windows k events).zip (emit k (0, 0) [] 0 (windows k events))

theorem length_emit (start : Pos) (cover : Cover) (j : ℕ) (ws : List Window) :
    (emit k start cover j ws).length = ws.length := by
  induction ws generalizing start cover j with
  | nil => rfl
  | cons w ws ih => exact congrArg (· + 1) (ih _ _ _)

variable {events : List Event}

theorem planned_fst : (planned k events).map Prod.fst = windows k events :=
  List.map_fst_zip (Nat.le_of_eq (length_emit _ _ _ _).symm)

theorem planned_snd : (planned k events).map Prod.snd = emit k (0, 0) [] 0 (windows k events) :=
  List.map_snd_zip (Nat.le_of_eq (length_emit _ _ _ _))

/-- The items of the MoE marks. -/
def moeItems (k : Knobs) (events : List Event) : List (Key × List Segment) :=
  (noted true (planned k events)).map fun p => (p.1.key, p.2)

theorem nodup_keys_planned (hnodup : (keysOf events).Nodup) :
    ((planned k events).map (·.1.key)).Nodup := by
  have hmap : (planned k events).map (·.1.key) = (windows k events).map (·.key) := by
    rw [← planned_fst, List.map_map]
    rfl
  rw [hmap]
  exact (built_windows hnodup).keys

theorem eq_of_key_eq (hnodup : (keysOf events).Nodup) {p q : Window × List Segment}
    (hp : p ∈ planned k events) (hq : q ∈ planned k events) (h : p.1.key = q.1.key) : p = q :=
  List.inj_on_of_nodup_map (nodup_keys_planned hnodup) hp hq h

/-- No two windows that are noted have one key. -/
theorem nodup_noted (hnodup : (keysOf events).Nodup) :
    ((noted false (planned k events)).map (·.1.key) ++
      (noted true (planned k events)).map (·.1.key)).Nodup := by
  have hkeys := nodup_keys_planned (k := k) hnodup
  -- a window is noted on one side only
  rw [List.nodup_append]
  refine ⟨hkeys.sublist (List.filter_sublist.map _), hkeys.sublist (List.filter_sublist.map _),
    fun a ha b hb hab => ?_⟩
  obtain ⟨p, hp, rfl⟩ := List.mem_map.mp ha
  obtain ⟨q, hq, rfl⟩ := List.mem_map.mp hb
  obtain ⟨hp, hpmark⟩ := List.mem_filter.mp hp
  obtain ⟨hq, hqmark⟩ := List.mem_filter.mp hq
  obtain rfl := eq_of_key_eq hnodup hp hq hab
  have hfalse := (of_decide_eq_true hpmark).1
  have htrue := (of_decide_eq_true hqmark).1
  exact absurd (hfalse.symm.trans htrue) Bool.false_ne_true

/-- **The plan**: the windows that are no marks in their order, then the marks. -/
theorem makePlan_eq (hnodup : (keysOf events).Nodup) : makePlan k events =
    (noted false (planned k events)).map (fun p => (p.1.key, ⟨p.2, none⟩)) ++
      (moeItems k events).zipIdx.map fun p =>
        (p.1.1, moeEntry (moeItems k events) p.2 p.1.2) := by
  obtain ⟨hplan, hmoe⟩ := run_eq (k := k) (s := ⟨(0, 0), [], [], []⟩) (j := 0)
    (built_windows hnodup).keys
  rw [List.nil_append] at hplan hmoe
  unfold makePlan
  dsimp only
  rw [hplan, hmoe]
  refine foldl_set (fun p : (Key × List Segment) × ℕ => p.1.1)
    (fun p => moeEntry (moeItems k events) p.2 p.1.2) (moeItems k events).zipIdx ?_
  have hnoted := nodup_noted (k := k) hnodup
  rw [List.map_map]
  have hfst : (moeItems k events).zipIdx.map (fun p => p.1.1) =
      (noted true (planned k events)).map (·.1.key) := by
    have hitems := congrArg (List.map Prod.fst) (List.zipIdx_map_fst 0 (moeItems k events))
    rw [List.map_map, moeItems, List.map_map] at hitems
    exact hitems
  rw [hfst]
  exact hnoted

/-- An entry of the plan is a window with what it emits. -/
theorem mem_planned_of_mem (hnodup : (keysOf events).Nodup) {p : Key × Entry}
    (hp : p ∈ makePlan k events) : ∃ q ∈ planned k events, q.1.key = p.1 ∧ q.2 = p.2.segs := by
  rw [makePlan_eq hnodup] at hp
  rcases List.mem_append.mp hp with hp | hp
  · obtain ⟨q, hq, rfl⟩ := List.mem_map.mp hp
    exact ⟨q, (List.mem_filter.mp hq).1, rfl, rfl⟩
  · obtain ⟨x, hx, rfl⟩ := List.mem_map.mp hp
    have hitem : x.1 ∈ moeItems k events := List.fst_mem_of_mem_zipIdx hx
    obtain ⟨q, hq, heq⟩ := List.mem_map.mp hitem
    refine ⟨q, (List.mem_filter.mp hq).1, ?_, ?_⟩
    · exact congrArg Prod.fst heq
    · rw [moeEntry_segs]
      exact congrArg Prod.snd heq

/-- A window with segments has its entry. -/
theorem mem_makePlan (hnodup : (keysOf events).Nodup) {q : Window × List Segment}
    (hq : q ∈ planned k events) (hmark : q.1.isMark = false) (hsegs : q.2 ≠ []) :
    (q.1.key, ⟨q.2, none⟩) ∈ makePlan k events := by
  rw [makePlan_eq hnodup]
  refine List.mem_append_left _ (List.mem_map.mpr ⟨q, List.mem_filter.mpr ⟨hq, ?_⟩, rfl⟩)
  exact decide_eq_true ⟨hmark, hsegs⟩

/-- A key that names one window names its segments. -/
theorem segs_makePlan (hnodup : (keysOf events).Nodup) {q : Window × List Segment}
    (hq : q ∈ planned k events) (hmark : q.1.isMark = false) :
    (makePlan k events).segs q.1.key = q.2 := by
  unfold Plan.segs
  cases hlookup : (makePlan k events).lookup q.1.key with
  | none =>
    by_contra hsegs
    have hmem := mem_makePlan hnodup hq hmark fun hnil => hsegs hnil.symm
    have hne := List.lookup_eq_none_iff.mp hlookup _ hmem
    simp at hne
  | some e =>
    obtain ⟨before, after, heq, -⟩ := List.lookup_eq_some_iff.mp hlookup
    have hmem : (q.1.key, e) ∈ makePlan k events := by
      rw [heq]
      exact List.mem_append_right _ List.mem_cons_self
    obtain ⟨q', hq', hkey, hsegs⟩ := mem_planned_of_mem hnodup hmem
    rw [eq_of_key_eq hnodup hq hq' hkey.symm]
    exact hsegs.symm

/-- **All planned segments**, in some order, are what the windows emit. -/
theorem all_makePlan_perm (hnodup : (keysOf events).Nodup) :
    (makePlan k events).all.Perm (emit k (0, 0) [] 0 (windows k events)).flatten := by
  have hmarks : ((moeItems k events).zipIdx.map fun p =>
      (p.1.1, moeEntry (moeItems k events) p.2 p.1.2)).flatMap (fun p => p.2.segs) =
        (noted true (planned k events)).flatMap Prod.snd := by
    simp only [List.flatMap_map, moeEntry_segs]
    have hitems := congrArg (List.flatMap Prod.snd) (List.zipIdx_map_fst 0 (moeItems k events))
    rw [List.flatMap_map, moeItems, List.flatMap_map] at hitems
    exact hitems
  have hall : (makePlan k events).all = (noted false (planned k events)).flatMap Prod.snd ++
      (noted true (planned k events)).flatMap Prod.snd := by
    rw [Plan.all, makePlan_eq hnodup, List.flatMap_append, hmarks, List.flatMap_map]
  have hemit : (emit k (0, 0) [] 0 (windows k events)).flatten =
      (planned k events).flatMap Prod.snd := by
    rw [← planned_snd, List.flatMap_def]
  rw [hall, hemit, ← List.flatMap_append]
  generalize planned k events = ps
  induction ps with
  | nil => exact List.Perm.refl _
  | cons p ps ih =>
    rw [noted_cons, noted_cons, List.flatMap_cons]
    by_cases hsegs : p.2 = []
    · rw [if_neg (fun h => h.2 hsegs), if_neg (fun h => h.2 hsegs), hsegs, List.nil_append]
      exact ih
    cases hmark : p.1.isMark with
    | false =>
      rw [if_pos ⟨rfl, hsegs⟩, if_neg (fun h => Bool.false_ne_true h.1), List.cons_append,
        List.flatMap_cons]
      exact ih.append_left p.2
    | true =>
      rw [if_neg (fun h => Bool.false_ne_true h.1.symm), if_pos ⟨rfl, hsegs⟩]
      refine (List.perm_middle.flatMap_right _).trans ?_
      rw [List.flatMap_cons]
      exact ih.append_left p.2

/-! ## Order and bytes -/

/-- The order of units. -/
def Piece.Before (p q : Piece) : Prop := p.1 < q.1 ∨ p.1 = q.1 ∧ p.2 < q.2

/-- The units of reads in order are in order. -/
theorem pairwise_queueUnits {q : List Item} (h : q.Pairwise fun a b => a.read < b.read) :
    (queueUnits q).Pairwise Piece.Before := by
  induction h with
  | nil => exact List.Pairwise.nil
  | cons hfirst _ ih =>
    rename_i it q
    rw [queueUnits_cons, List.pairwise_append]
    refine ⟨?_, ih, fun a ha b hb => ?_⟩
    · rw [Item.units, List.pairwise_map]
      exact List.pairwise_lt_range.imp fun hlt => Or.inr ⟨rfl, hlt⟩
    · obtain ⟨u, -, rfl⟩ := List.mem_map.mp ha
      obtain ⟨it', hit', hb⟩ := List.mem_flatMap.mp hb
      obtain ⟨v, -, rfl⟩ := List.mem_map.mp hb
      exact Or.inl (hfirst it' hit')

theorem nodup_of_before {ps : List Piece} (h : ps.Pairwise Piece.Before) : ps.Nodup :=
  h.imp fun {a b} hab heq => by
    subst heq
    rcases hab with hlt | ⟨-, hlt⟩
    · exact Nat.lt_irrefl _ hlt
    · exact Nat.lt_irrefl _ hlt

/-- Segments whose units are in order are in order. -/
theorem pairwise_before {segs : List Segment} (hgood : ∀ s ∈ segs, ∃ q, s.Good q)
    (h : (unitsOf segs).Pairwise Piece.Before) : segs.Pairwise Segment.Before := by
  induction segs with
  | nil => exact List.Pairwise.nil
  | cons s segs ih =>
    have hcons : unitsOf (s :: segs) = s.units ++ unitsOf segs := rfl
    rw [hcons, List.pairwise_append] at h
    refine List.Pairwise.cons (fun t ht => ?_)
      (ih (fun t ht => hgood t (List.mem_cons_of_mem s ht)) h.2.1)
    obtain ⟨_, hs⟩ := hgood s List.mem_cons_self
    obtain ⟨_, ht'⟩ := hgood t (List.mem_cons_of_mem s ht)
    obtain ⟨b, hb⟩ := hs.bytes
    obtain ⟨c, hc⟩ := ht'.bytes
    obtain ⟨o, ho⟩ := hs.off
    obtain ⟨o', ho'⟩ := ht'.off
    have hspos := hs.pos
    have htpos := ht'.pos
    -- the last unit of the one is before the first of the other
    have hlast : (s.item.read, o + (b - 1)) ∈ s.units := by
      rw [Segment.units, List.mem_map]
      exact ⟨o + (b - 1), List.mem_range'_1.mpr (by omega), rfl⟩
    have hfirst : (t.item.read, o') ∈ unitsOf segs := by
      refine List.mem_flatMap.mpr ⟨t, ht, ?_⟩
      rw [Segment.units, List.mem_map]
      exact ⟨o', List.mem_range'_1.mpr (by omega), rfl⟩
    rcases h.2.2 _ hlast _ hfirst with hlt | ⟨heq, hlt⟩
    · exact Or.inl hlt
    · refine Or.inr ⟨heq, ?_⟩
      dsimp only at hlt
      omega

/-- The bytes of a unit. -/
def Piece.bytes (p : Piece) : List (ℕ × ℕ) := (List.range' (16 * p.2) 16).map (p.1, ·)

theorem flatMap_range' (a b : ℕ) :
    (List.range' a b).flatMap (fun u => List.range' (16 * u) 16) =
      List.range' (16 * a) (16 * b) := by
  induction b generalizing a with
  | zero => rfl
  | succ b ih =>
    rw [List.range'_succ, List.flatMap_cons, ih, Nat.mul_succ, Nat.mul_succ, Nat.add_comm (16 * b),
      List.range'_append_1]

/-- Units from `a` on are bytes from `16 * a` on. -/
theorem flatMap_bytes (r a b : ℕ) :
    ((List.range' a b).map fun u => ((r, u) : Piece)).flatMap Piece.bytes =
      (List.range' (16 * a) (16 * b)).map (r, ·) := by
  rw [← flatMap_range', List.map_flatMap, List.flatMap_map]
  rfl

theorem Segment.Good.span {q : List Item} {s : Segment} (h : s.Good q) :
    s.span = s.units.flatMap Piece.bytes := by
  rw [Segment.units, flatMap_bytes, Nat.mul_div_cancel' h.off, Nat.mul_div_cancel' h.bytes]
  rfl

theorem span_unitsOf {segs : List Segment} (h : ∀ s ∈ segs, ∃ q, s.Good q) :
    segs.flatMap Segment.span = (unitsOf segs).flatMap Piece.bytes := by
  rw [unitsOf, List.flatMap_assoc]
  refine List.flatMap_congr fun s hs => ?_
  obtain ⟨q, hgood⟩ := h s hs
  exact hgood.span

theorem Item.span_units (it : Item) : it.span = it.units.flatMap Piece.bytes := by
  rw [Item.units, List.range_eq_range', flatMap_bytes, Item.span, List.range_eq_range',
    Nat.mul_comm]

theorem Piece.length_bytes (p : Piece) : p.bytes.length = 16 := by
  rw [Piece.bytes, List.length_map, List.length_range']

theorem Piece.disjoint_bytes_iff (p q : Piece) : List.Disjoint p.bytes q.bytes ↔ p ≠ q := by
  obtain ⟨r, u⟩ := p
  obtain ⟨r', v⟩ := q
  constructor
  · rintro hdisjoint heq
    rw [heq] at hdisjoint
    have hmem : (r', 16 * v) ∈ Piece.bytes (r', v) := by
      rw [Piece.bytes, List.mem_map]
      exact ⟨16 * v, List.mem_range'_1.mpr (by simp), rfl⟩
    exact hdisjoint hmem hmem
  · intro hne x hx hx'
    obtain ⟨a, ha, rfl⟩ := List.mem_map.mp hx
    obtain ⟨b, hb, heq⟩ := List.mem_map.mp hx'
    obtain ⟨rfl, rfl⟩ := Prod.mk.inj heq
    rw [List.mem_range'_1] at ha hb
    dsimp only at ha hb
    refine hne (congrArg (Prod.mk _) ?_)
    omega

/-- Different units have different bytes. -/
theorem nodup_bytes_iff (ps : List Piece) : (ps.flatMap Piece.bytes).Nodup ↔ ps.Nodup := by
  have hone : ∀ p ∈ ps, p.bytes.Nodup := fun p _ =>
    List.Nodup.map (fun a b hab => (Prod.mk.inj hab).2) List.nodup_range'
  rw [List.nodup_flatMap, and_iff_right hone]
  exact List.Pairwise.iff Piece.disjoint_bytes_iff

/-- The first units are the first bytes. -/
theorem take_bytes (ps : List Piece) (n : ℕ) :
    (ps.take n).flatMap Piece.bytes = (ps.flatMap Piece.bytes).take (n * 16) := by
  induction ps generalizing n with
  | nil => simp
  | cons p ps ih =>
    cases n with
    | zero => simp
    | succ n =>
      have hfull : p.bytes.take ((n + 1) * 16) = p.bytes := by
        refine List.take_of_length_le ?_
        rw [p.length_bytes]
        omega
      have hrest : (n + 1) * 16 - 16 = n * 16 := by omega
      rw [List.take_succ_cons, List.flatMap_cons, List.flatMap_cons, ih, List.take_append,
        p.length_bytes, hfull, hrest]

/-! ## With the sub-gates off -/

/-- The windows of a record of collectives and reads. -/
def collectives (k : Knobs) : ℕ → List Event → List Window
  | _, [] => []
  | i, .c n :: es => ⟨.c n, k.mb.toNat, readsUntil (i + 1) es, k.ahead⟩ :: collectives k (i + 1) es
  | i, _ :: es => collectives k (i + 1) es

/-- A record of collectives and reads of linears. -/
def Plain (events : List Event) : Prop :=
  ∀ ev ∈ events, (∃ n, ev = .c n) ∨ ∃ ptr nbytes rows, ev = .r ptr nbytes rows

theorem Knobs.Off.plain (h : k.Off) (calls : List Call) : Plain (record k calls) := by
  unfold record
  have hfold : ∀ s : Recorder, Plain s.events →
      Plain (calls.foldl (Recorder.call k) s).events := by
    induction calls with
    | nil => exact fun s hs => hs
    | cons call calls ih =>
      refine fun s hs => ih _ ?_
      have hadd : ∀ ev, (∃ n, ev = .c n) ∨ (∃ ptr nbytes rows, ev = .r ptr nbytes rows) →
          Plain (s.events ++ [ev]) := fun ev hev x hx => by
        rcases List.mem_append.mp hx with hx | hx
        · exact hs x hx
        · rw [List.mem_singleton.mp hx]
          exact hev
      cases call with
      | collective => exact hadd _ (Or.inl ⟨_, rfl⟩)
      | linear => simpa [Recorder.call, h.woa] using hs
      | woA ptr nbytes => simpa [Recorder.call, h.woa] using hs
      | weight ptr nbytes rows => exact hadd _ (Or.inr ⟨ptr, nbytes, rows, rfl⟩)
      | engramJoin => simpa [Recorder.call, h.engram] using hs
      | router => simpa [Recorder.call, h.moe] using hs
  exact hfold _ fun _ hev => nomatch hev

/-- Reads go to the last window until the next collective opens one. -/
theorem foldl_plain {es : List Event} (hes : Plain es) (i : ℕ) (pre : List Window) (w : Window)
    (last : Option (ℕ × ℕ × ℕ)) :
    ((es.zipIdx i).foldl (fun (s : Builder) p => s.event k p.2 p.1)
      ⟨pre ++ [w], some pre.length, last⟩).windows =
      pre ++ { w with queue := w.queue ++ readsUntil i es } :: collectives k i es := by
  induction es generalizing i pre w last with
  | nil => simp [readsUntil, collectives]
  | cons ev es ih =>
    have hrest : Plain es := fun x hx => hes x (List.mem_cons_of_mem ev hx)
    rw [List.zipIdx_cons, List.foldl_cons]
    rcases hes ev List.mem_cons_self with ⟨n, rfl⟩ | ⟨ptr, nbytes, rows, rfl⟩
    · have hbegin : Builder.event k ⟨pre ++ [w], some pre.length, last⟩ i (.c n) =
          ⟨(pre ++ [w]) ++ [⟨.c n, k.mb.toNat, [], k.ahead⟩], some (pre ++ [w]).length, none⟩ := rfl
      rw [hbegin, ih hrest, readsUntil, collectives, List.append_nil, List.append_assoc]
      rfl
    · have hpush : Builder.event k ⟨pre ++ [w], some pre.length, last⟩ i (.r ptr nbytes rows) =
          ⟨pre ++ [{ w with queue := w.queue ++ [⟨i, ptr, nbytes, rows, .r⟩] }],
            some pre.length, last⟩ := by
        show Builder.mk ((pre ++ [w]).modify pre.length _) _ _ = _
        rw [modify_append_cons]
      have hcollect : collectives k i (.r ptr nbytes rows :: es) = collectives k (i + 1) es := rfl
      rw [hpush, ih hrest, readsUntil, hcollect]
      simp

/-- **The windows with the sub-gates off**: one per collective, with what is read up to the
next. -/
theorem collect_plain {es : List Event} (hes : Plain es) (i : ℕ) :
    ((es.zipIdx i).foldl (fun (s : Builder) p => s.event k p.2 p.1) ⟨[], none, none⟩).windows =
      collectives k i es := by
  induction es generalizing i with
  | nil => rfl
  | cons ev es ih =>
    have hrest : Plain es := fun x hx => hes x (List.mem_cons_of_mem ev hx)
    rw [List.zipIdx_cons, List.foldl_cons]
    rcases hes ev List.mem_cons_self with ⟨n, rfl⟩ | ⟨ptr, nbytes, rows, rfl⟩
    · exact foldl_plain hrest (i + 1) [] ⟨.c n, k.mb.toNat, [], k.ahead⟩ none
    · exact ih hrest (i + 1)

theorem mem_collectives {events : List Event} {j n : ℕ} (h : events[j]? = some (.c n)) (i : ℕ) :
    (⟨.c n, k.mb.toNat, readsUntil (i + j + 1) (events.drop (j + 1)), k.ahead⟩ : Window) ∈
      collectives k i events := by
  induction events generalizing i j with
  | nil => exact nomatch h
  | cons ev events ih =>
    cases j with
    | zero =>
      obtain rfl := Option.some.inj h
      exact List.mem_cons_self
    | succ j =>
      have hrest := ih (i := i + 1) h
      rw [Nat.add_right_comm i 1 j] at hrest
      cases ev with
      | c m => exact List.mem_cons_of_mem _ hrest
      | e m => exact hrest
      | L m => exact hrest
      | m m => exact hrest
      | w ptr nbytes => exact hrest
      | r ptr nbytes rows => exact hrest

theorem collectives_key {events : List Event} {i : ℕ} {w : Window}
    (h : w ∈ collectives k i events) : (∃ n, w.key = .c n) ∧ w.lookAhead = k.ahead := by
  induction events generalizing i with
  | nil => exact nomatch h
  | cons ev events ih =>
    cases ev with
    | c n =>
      rcases List.mem_cons.mp h with rfl | h
      · exact ⟨⟨n, rfl⟩, rfl⟩
      · exact ih h
    | e n => exact ih h
    | L n => exact ih h
    | m n => exact ih h
    | w ptr nbytes => exact ih h
    | r ptr nbytes rows => exact ih h

/-! ## The promise holds exactly where attention-core windows are apart -/

theorem budgetOf_le_limitOf (k : Knobs) (key : Key) : budgetOf k key ≤ limitOf k key := by
  cases key with
  | c n => exact Nat.le_refl _
  | e n => exact Nat.le_refl _
  | l lin => exact Nat.le_add_right _ _
  | m n => exact Nat.le_refl _

/-- The limit of the abstract window is that of its key. -/
theorem limit_abs (hnodup : (keysOf events).Nodup) {w : Window} (hw : w ∈ windows k events) :
    16 * (w.abs k).limit ≤ limitOf k w.key := by
  have hbudget := (built_windows hnodup).budget w hw
  have hle := budgetOf_le_limitOf k w.key
  unfold FetchAhead.Window.limit Window.abs
  dsimp only
  by_cases hmark : w.isMark
  · rw [if_pos hmark]
    dsimp only
    omega
  rw [if_neg hmark]
  by_cases hcore : w.isCore ∧ 0 < k.wobMb
  · have hlimit : limitOf k w.key = w.budget + k.wobMb.toNat := by
      have hkey := hcore.1
      unfold Window.isCore at hkey
      cases h : w.key with
      | l lin => rw [hbudget, h]; rfl
      | c n => rw [h] at hkey; exact nomatch hkey
      | e n => rw [h] at hkey; exact nomatch hkey
      | m n => rw [h] at hkey; exact nomatch hkey
    rw [if_pos hcore]
    dsimp only
    omega
  · rw [if_neg hcore]
    dsimp only
    omega

/-- The abstract windows of a record read different units, in order. -/
theorem units_abs (ws : List Window) :
    (ws.map (Window.abs k)).flatMap (·.units) = queueUnits (flat ws) := by
  rw [List.flatMap_map, queueUnits, flat, List.flatMap_assoc]
  rfl

theorem marksEmpty_abs {ws : List Window} (h : MarksEmpty ws) :
    FetchAhead.MarksEmpty (ws.map (Window.abs k)) := by
  intro v hv hmark
  obtain ⟨w, hw, rfl⟩ := List.mem_map.mp hv
  rw [w.isMark_abs] at hmark
  show queueUnits w.queue = []
  rw [h w hw hmark]
  rfl

theorem emit_windows (hnodup : (keysOf events).Nodup) :
    (emit k (0, 0) [] 0 (windows k events)).map unitsOf =
        FetchAhead.run 0 0 ((windows k events).map (Window.abs k)) ∧
      ∀ segs ∈ emit k (0, 0) [] 0 (windows k events), ∀ s ∈ segs,
        ∃ w ∈ windows k events, s.Good w.queue :=
  emit_run (built_windows hnodup).empty (starts_zero _) (covers_zero (fun _ _ => rfl) _)

/-- What is true of every abstract window and what it fetches is true of the windows. -/
theorem planned_forall (hnodup : (keysOf events).Nodup)
    {R : List Piece → FetchAhead.Window Piece → Prop}
    (h : List.Forall₂ R (FetchAhead.run 0 0 ((windows k events).map (Window.abs k)))
      ((windows k events).map (Window.abs k))) {q : Window × List Segment}
    (hq : q ∈ planned k events) : R (unitsOf q.2) (q.1.abs k) := by
  rw [← (emit_windows hnodup).1, List.forall₂_map_left_iff, List.forall₂_map_right_iff] at h
  have hmem : (q.2, q.1) ∈ (emit k (0, 0) [] 0 (windows k events)).zip (windows k events) := by
    have hswap := List.mem_map_of_mem (f := Prod.swap) hq
    rwa [planned, List.zip_swap] at hswap
  exact (List.forall₂_iff_zip.mp h).2 hmem

/-- What every window emits: within its limit, and in order. -/
theorem planned_spec (hnodup : (keysOf events).Nodup) {q : Window × List Segment}
    (hq : q ∈ planned k events) :
    (unitsOf q.2).length ≤ (q.1.abs k).limit ∧ (unitsOf q.2).Pairwise Piece.Before ∧
      ∀ s ∈ q.2, ∃ w ∈ windows k events, s.Good w.queue := by
  have hrun := FetchAhead.run_forall₂ 0 0
    (List.Sublist.refl (((windows k events).map (Window.abs k)).flatMap (·.units)))
  obtain ⟨hlen, hsub⟩ := planned_forall hnodup hrun hq
  refine ⟨hlen, ?_, (emit_windows hnodup).2 q.2 ?_⟩
  · rw [units_abs] at hsub
    exact (pairwise_queueUnits (built_windows hnodup).order).sublist hsub
  · rw [← planned_snd]
    exact List.mem_map_of_mem hq

/-- **Nothing is planned twice** exactly where attention-core windows are apart. -/
theorem nodup_all_iff (hnodup : (keysOf events).Nodup) :
    ((makePlan k events).all.flatMap Segment.span).Nodup ↔
      FetchAhead.Clear 0 0 ((windows k events).map (Window.abs k)) := by
  obtain ⟨hunits, hgood⟩ := emit_windows (k := k) hnodup
  have hbuilt := built_windows (k := k) hnodup
  have hflat : unitsOf (emit k (0, 0) [] 0 (windows k events)).flatten =
      (FetchAhead.run 0 0 ((windows k events).map (Window.abs k))).flatten := by
    rw [← hunits, unitsOf, List.flatten_eq_flatMap, List.flatMap_assoc, ← List.flatMap_def]
    rfl
  have hspan : (emit k (0, 0) [] 0 (windows k events)).flatten.flatMap Segment.span =
      (unitsOf (emit k (0, 0) [] 0 (windows k events)).flatten).flatMap Piece.bytes := by
    refine span_unitsOf fun s hs => ?_
    obtain ⟨segs, hsegs, hs⟩ := List.mem_flatten.mp hs
    obtain ⟨w, -, hw⟩ := hgood segs hsegs s hs
    exact ⟨w.queue, hw⟩
  have hu : (((windows k events).map (Window.abs k)).flatMap (·.units)).Nodup := by
    rw [units_abs]
    exact nodup_of_before (pairwise_queueUnits hbuilt.order)
  rw [((all_makePlan_perm hnodup).flatMap_right _).nodup_iff, hspan, nodup_bytes_iff, hflat,
    FetchAhead.nodup_run_iff (marksEmpty_abs hbuilt.empty) hu]

/-- With WOB off every window is apart. -/
theorem clear_of_wob_off (hwob : k.wobMb ≤ 0) (ws : List Window) :
    FetchAhead.Clear 0 0 (ws.map (Window.abs k)) := by
  refine FetchAhead.clear_of_not_split (fun v hv first second hkind => ?_) 0 0
  obtain ⟨w, -, rfl⟩ := List.mem_map.mp hv
  have hcore : ¬ (w.isCore ∧ 0 < k.wobMb) := fun hcore => Int.not_lt.mpr hwob hcore.2
  unfold Window.abs at hkind
  dsimp only at hkind
  rw [if_neg hcore] at hkind
  split at hkind <;> exact nomatch hkind

/-- With the sub-gates off a collective's window takes the first bytes of what is read. -/
theorem segs_off (hnodup : (keysOf events).Nodup) (hoff : k.Off) (hplain : Plain events)
    {i n : ℕ} (hi : events[i]? = some (.c n)) :
    ((makePlan k events).segs (.c n)).flatMap Segment.span =
      ((readsUntil (i + 1) (events.drop (i + 1))).flatMap Item.span).take
        (k.mb.toNat / 16 * 16) := by
  have hws : windows k events = collectives k 0 events := by
    rw [windows, if_neg (Int.not_lt.mpr hoff.skipN)]
    exact collect_plain hplain 0
  have hwindow := mem_collectives (k := k) hi 0
  rw [Nat.zero_add, ← hws] at hwindow
  -- every window takes the first units of its own
  have hown : ∀ v ∈ (windows k events).map (Window.abs k), v.kind = .own false := by
    intro v hv
    obtain ⟨w, hw, rfl⟩ := List.mem_map.mp hv
    rw [hws] at hw
    obtain ⟨⟨m, hkey⟩, hlook⟩ := collectives_key hw
    have hmark : ¬ w.isMark := by
      rw [Window.isMark, hkey]
      exact Bool.false_ne_true
    have hcore : ¬ (w.isCore ∧ 0 < k.wobMb) := fun hcore => Int.not_lt.mpr hoff.wob hcore.2
    unfold Window.abs
    dsimp only
    rw [if_neg hmark, if_neg hcore, hlook, hoff.ahead]
  have hrun : List.Forall₂ (fun fetched w => fetched = w.units.take w.budget)
      (FetchAhead.run 0 0 ((windows k events).map (Window.abs k)))
      ((windows k events).map (Window.abs k)) := by
    rw [FetchAhead.run_of_own hown, List.forall₂_map_left_iff, List.forall₂_same]
    exact fun _ _ => rfl
  rw [← planned_fst] at hwindow
  obtain ⟨q, hq, hfst⟩ := List.mem_map.mp hwindow
  have hunits := planned_forall hnodup hrun hq
  have hsegs := segs_makePlan hnodup hq (by rw [hfst]; rfl)
  rw [hfst] at hunits hsegs
  rw [hsegs, span_unitsOf fun s hs => ?_, hunits, take_bytes]
  · congr 1
    show (queueUnits _).flatMap Piece.bytes = _
    rw [queueUnits, List.flatMap_assoc]
    exact List.flatMap_congr fun it _ => it.span_units.symm
  · obtain ⟨w, -, hw⟩ := (planned_spec hnodup hq).2.2 s hs
    exact ⟨w.queue, hw⟩

/-- A good segment of a window is a piece of a recorded weight. -/
theorem Segment.Good.planned (hnodup : (keysOf events).Nodup) {w : Window}
    (hw : w ∈ windows k events) {s : Segment} (h : s.Good w.queue) : Planned events s := by
  have hflat : s.item ∈ flat (windows k events) := List.mem_flatMap.mpr ⟨w, hw, h.mem⟩
  obtain ⟨ev, hev, hweight⟩ := (built_windows hnodup).reads _ hflat
  exact ⟨ev, s.item.ptr, s.item.nbytes, hev, hweight, rfl, h.off, h.bytes, h.pos, h.inside⟩

/-- What an entry of the plan keeps in any case. -/
theorem entry_spec (hnodup : (keysOf events).Nodup) {p : Key × Entry}
    (hp : p ∈ makePlan k events) : total p.2.segs ≤ limitOf k p.1 ∧
      p.2.segs.Pairwise Segment.Before ∧ ∀ s ∈ p.2.segs, Planned events s := by
  obtain ⟨q, hq, hkey, hsegs⟩ := mem_planned_of_mem hnodup hp
  obtain ⟨hlen, horder, hgood⟩ := planned_spec hnodup hq
  have hlimit := limit_abs hnodup (planned_fst ▸ List.mem_map_of_mem hq : q.1 ∈ windows k _)
  rw [hsegs] at hlen horder hgood
  rw [hkey] at hlimit
  refine ⟨?_, pairwise_before (fun s hs => ?_) horder, fun s hs => ?_⟩
  · rw [total_eq fun s hs => ?_]
    · omega
    · obtain ⟨w, -, hw⟩ := hgood s hs
      exact hw.bytes
  · obtain ⟨w, -, hw⟩ := hgood s hs
    exact ⟨w.queue, hw⟩
  · obtain ⟨w, hw, hs⟩ := hgood s hs
    exact hs.planned hnodup hw

/-- **The L2 prefetch plan.** For every sequence of hook calls and all knobs, the plan of the
recorded forward keeps its promise exactly where every attention-core window with WOB is apart
from what the look-ahead of the window before it and the MoE window before it hold. -/
theorem plan_sound_iff (k : Knobs) (calls : List Call) :
    Sound k (record k calls) (makePlan k (record k calls)) ↔
      FetchAhead.Clear 0 0 ((windows k (record k calls)).map (Window.abs k)) := by
  have hnodup := nodup_keysOf_record k calls
  constructor
  · exact fun h => (nodup_all_iff hnodup).mp h.once
  · exact fun hclear =>
      { planned := fun p hp => (entry_spec hnodup hp).2.2
        budget := fun p hp => (entry_spec hnodup hp).1
        once := (nodup_all_iff hnodup).mpr hclear
        order := fun p hp => (entry_spec hnodup hp).2.1
        longest := fun hoff i n hi => segs_off hnodup hoff (hoff.plain calls) hi }

/-- AHEAD, WOA and WOB on; the other sub-gates off. -/
def aheadWob : Knobs := ⟨true, true, false, false, 0, 6291456, 6291456, 12582912, 10485760, 4194304⟩

/-- A collective, a linear of 32 bytes, and 64 bytes of wo_a. -/
def wobCalls : List Call := [.collective, .weight 4096 32 none, .linear, .woA 8192 64]

/-- The collective's window looks ahead into wo_a, and the attention-core window begins again. -/
theorem not_sound_aheadWob :
    ¬ Sound aheadWob (record aheadWob wobCalls) (makePlan aheadWob (record aheadWob wobCalls)) :=
  fun h => absurd h.once (by decide +kernel)

end L2Prefetch
