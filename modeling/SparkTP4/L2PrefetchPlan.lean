import SparkTP4.L2PrefetchTake

/-!
# The plan fetches ahead

Counted in units, the loop of `_make_plan` is the run of `FetchAhead` over the same windows
(`emit_run`): the look-ahead cursor and the cover of the MoE windows are the two numbers that
say what is held.
-/

namespace L2Prefetch

variable {k : Knobs}

/-- How many items of the queue are wo_a. -/
def Window.leading (w : Window) : ℕ := w.queue.findIdx fun it => it.kind ≠ .w

/-- A window in units. -/
def Window.abs (k : Knobs) (w : Window) : FetchAhead.Window Piece where
  kind :=
    if w.isMark then .mark
    else if w.isCore ∧ 0 < k.wobMb then
      .split (queueUnits (w.queue.take w.leading)).length (k.wobMb.toNat / 16)
    else .own w.lookAhead
  budget := w.budget / 16
  units := queueUnits w.queue

theorem Window.isMark_abs (w : Window) : (w.abs k).isMark = w.isMark := by
  unfold FetchAhead.Window.isMark Window.abs
  dsimp only
  by_cases hmark : w.isMark
  · rw [if_pos hmark, hmark]
  · rw [if_neg hmark]
    by_cases hcore : w.isCore ∧ 0 < k.wobMb
    · rw [if_pos hcore, eq_false_of_ne_true hmark]
    · rw [if_neg hcore, eq_false_of_ne_true hmark]

/-- The segments of the windows from number `j` on. -/
def emit (k : Knobs) : Pos → Cover → ℕ → List Window → List (List Segment)
  | _, _, _, [] => []
  | start, cover, j, w :: rest =>
    let out := windowStep k start cover j w rest
    out.1 :: emit k out.2.1 out.2.2 (j + 1) rest

/-! ## The cover -/

/-- The cover of the windows up to the next mark: a mark with `m` units left holds the first
ones; no window from the next mark on is covered. -/
def Covers (cover : Cover) : ℕ → ℕ → List Window → Prop
  | _, _, [] => True
  | m, j, w :: ws =>
    if w.isMark then ∀ i, j ≤ i → cover.get i = (0, 0)
    else Valid w.queue (cover.get j) ∧
      index w.queue (cover.get j) = min (queueUnits w.queue).length m ∧
      Covers cover (m - (queueUnits w.queue).length) (j + 1) ws

theorem Cover.get_cons_self (j : ℕ) (p : Pos) (cover : Cover) :
    Cover.get ((j, p) :: cover) j = p := by
  simp [Cover.get]

theorem Cover.get_cons_of_ne {i j : ℕ} (h : i ≠ j) (p : Pos) (cover : Cover) :
    Cover.get ((j, p) :: cover) i = cover.get i := by
  have hbeq : (i == j) = false := by simpa using h
  simp [Cover.get, List.lookup_cons, hbeq]

/-- Nothing is held where nothing is covered. -/
theorem covers_zero {cover : Cover} {j : ℕ} (h : ∀ i, j ≤ i → cover.get i = (0, 0))
    (ws : List Window) : Covers cover 0 j ws := by
  induction ws generalizing j with
  | nil => trivial
  | cons w ws ih =>
    rw [Covers]
    split
    · exact h
    · rw [h j (Nat.le_refl j), Nat.min_zero, Nat.zero_sub]
      exact ⟨valid_zero _, index_zero _, ih fun i hi => h i (Nat.le_of_succ_le hi)⟩

theorem reach_zero (ws : List (FetchAhead.Window Piece)) : FetchAhead.reach 0 ws = [] := by
  induction ws with
  | nil => rfl
  | cons w ws ih =>
    rw [FetchAhead.reach, List.take_zero, Nat.zero_sub, List.nil_append, ih]
    exact ite_self _

/-- What the scan of a MoE mark leaves. -/
structure Scanned (ws : List Window) (k : Knobs) (j left : ℕ) (cover : Cover)
    (out : List Segment × Cover) : Prop where
  units : unitsOf out.1 = FetchAhead.reach (left / 16) (ws.map (Window.abs k))
  covers : Covers out.2 (left / 16) j ws
  before : ∀ i < j, out.2.get i = cover.get i
  good : ∀ s ∈ out.1, ∃ w ∈ ws, s.Good w.queue

theorem moeScan_scanned (k : Knobs) {j : ℕ} (left : ℕ) {cover : Cover}
    (h : ∀ i, j ≤ i → cover.get i = (0, 0)) (ws : List Window) :
    Scanned ws k j left cover (moeScan j left cover ws) := by
  induction ws generalizing j left cover with
  | nil => exact ⟨rfl, trivial, fun _ _ => rfl, fun s hs => nomatch hs⟩
  | cons w ws ih =>
    rw [moeScan]
    by_cases hstop : w.isMark ∨ left < 16
    · rw [if_pos hstop]
      refine ⟨?_, ?_, fun _ _ => rfl, fun s hs => nomatch hs⟩
      · rcases hstop with hmark | hleft
        · rw [List.map_cons, FetchAhead.reach, w.isMark_abs, if_pos hmark]
          rfl
        · rw [Nat.div_eq_of_lt hleft, reach_zero]
          rfl
      · rcases hstop with hmark | hleft
        · rw [Covers, if_pos hmark]
          exact h
        · rw [Nat.div_eq_of_lt hleft]
          exact covers_zero h _
    rw [if_neg hstop]
    obtain ⟨hmark, hleft⟩ := not_or.mp hstop
    have hmore := take_taken (valid_zero w.queue) left
    have hunits := hmore.units
    rw [index_zero, List.drop_zero] at hunits
    have htotal := total_eq fun s hs => (hmore.good s hs).bytes
    rw [hunits, List.length_take] at htotal
    have hdiv : (left - total (take w.queue (0, 0) left).1) / 16 =
        left / 16 - (queueUnits w.queue).length := by
      omega
    have hfresh : ∀ i, j + 1 ≤ i →
        Cover.get ((j, (take w.queue (0, 0) left).2) :: cover) i = (0, 0) := fun i hi => by
      rw [Cover.get_cons_of_ne (Nat.ne_of_gt hi)]
      exact h i (Nat.le_of_succ_le hi)
    have hrest := ih (left - total (take w.queue (0, 0) left).1) hfresh
    have hself : Cover.get (moeScan (j + 1) (left - total (take w.queue (0, 0) left).1)
        ((j, (take w.queue (0, 0) left).2) :: cover) ws).2 j = (take w.queue (0, 0) left).2 := by
      rw [hrest.before j (Nat.lt_succ_self j), Cover.get_cons_self]
    refine ⟨?_, ?_, fun i hi => ?_, fun s hs => ?_⟩
    · rw [List.map_cons, FetchAhead.reach, w.isMark_abs, if_neg hmark, unitsOf_append, hunits,
        hrest.units, hdiv]
      rfl
    · rw [Covers, if_neg hmark]
      dsimp only
      rw [hself, ← hdiv]
      refine ⟨hmore.valid, ?_, hrest.covers⟩
      rw [hmore.index, index_zero, Nat.zero_add]
    · dsimp only
      rw [hrest.before i (Nat.lt_succ_of_lt hi), Cover.get_cons_of_ne (Nat.ne_of_lt hi)]
    · rcases List.mem_append.mp hs with hs | hs
      · exact ⟨w, List.mem_cons_self, hmore.good s hs⟩
      · obtain ⟨v, hv, hgood⟩ := hrest.good s hs
        exact ⟨v, List.mem_cons_of_mem w hv, hgood⟩

/-! ## The loop -/

/-- The position from which a window takes, when the window before it reached `a`. -/
def Starts (a : ℕ) (start : Pos) : List Window → Prop
  | [] => True
  | w :: _ => Valid w.queue start ∧ index w.queue start = a

/-- MoE marks collect no reads. -/
def MarksEmpty (ws : List Window) : Prop := ∀ w ∈ ws, w.isMark → w.queue = []

theorem MarksEmpty.tail {w : Window} {ws : List Window} (h : MarksEmpty (w :: ws)) :
    MarksEmpty ws := fun v hv => h v (List.mem_cons_of_mem w hv)

theorem starts_zero (ws : List Window) : Starts 0 (0, 0) ws := by
  cases ws with
  | nil => trivial
  | cons w ws => exact ⟨valid_zero _, index_zero _⟩

theorem valid_resume {q : List Item} {start cover : Pos} (hs : Valid q start)
    (hc : Valid q cover) : Valid q (resume start cover) := by
  unfold resume
  split
  · exact hc
  · exact hs

/-- The later position is the larger number of units. -/
theorem index_resume {q : List Item} {start cover : Pos} (hs : Valid q start)
    (hc : Valid q cover) : index q (resume start cover) = max (index q start) (index q cover) := by
  unfold resume
  split
  · rename_i hlt
    exact (Nat.max_eq_right (index_le_of_before hs hc hlt)).symm
  · rename_i hge
    refine (Nat.max_eq_left ?_).symm
    by_cases heq : cover = start
    · rw [heq]
    · refine index_le_of_before hc hs ?_
      unfold Pos.Before at hge ⊢
      have hne : ¬ (cover.1 = start.1 ∧ cover.2 = start.2) := fun h => heq (Prod.ext h.1 h.2)
      omega

/-- **WOB** takes some of the leading wo_a reads and some of what is read after them. -/
theorem unitsOf_wobTake (w : Window) (wob : ℕ) : unitsOf (wobTake wob w) =
    ((queueUnits w.queue).take (queueUnits (w.queue.take w.leading)).length).take (w.budget / 16) ++
      ((queueUnits w.queue).drop (queueUnits (w.queue.take w.leading)).length).take (wob / 16) := by
  have hsplit : queueUnits w.queue =
      queueUnits (w.queue.take w.leading) ++ queueUnits (w.queue.drop w.leading) := by
    rw [← queueUnits_append, List.take_append_drop]
  rw [hsplit, List.take_left, List.drop_left, wobTake, unitsOf_append,
    (take_taken (valid_zero _) _).units, (take_taken (valid_zero _) _).units]
  rfl

theorem good_wobTake {w : Window} {wob : ℕ} {s : Segment} (hs : s ∈ wobTake wob w) :
    s.Good w.queue := by
  rcases List.mem_append.mp hs with hs | hs
  · have hgood := (take_taken (valid_zero _) _).good s hs
    exact { hgood with mem := List.mem_of_mem_take hgood.mem }
  · have hgood := (take_taken (valid_zero _) _).good s hs
    exact { hgood with mem := List.mem_of_mem_drop hgood.mem }

/-- A window with its own weights, and where the next one starts. -/
structure Owned (k : Knobs) (m a : ℕ) (w : Window) (rest : List Window)
    (out : List Segment × Pos) : Prop where
  units : unitsOf out.1 = (w.abs k).fetch m a ++
    FetchAhead.lookAhead (m - (w.abs k).units.length) ((w.abs k).spare m a)
      (rest.map (Window.abs k))
  starts : Starts (FetchAhead.cursor (m - (w.abs k).units.length) ((w.abs k).spare m a)
    (rest.map (Window.abs k))) out.2 rest
  good : ∀ s ∈ out.1, ∃ v ∈ w :: rest, s.Good v.queue

/-- The next window's queue and cover. -/
theorem Covers.next {cover : Cover} {m j : ℕ} {w : Window} {ws : List Window}
    (h : Covers cover m j (w :: ws)) (hempty : MarksEmpty (w :: ws)) :
    Valid w.queue (cover.get j) ∧
      index w.queue (cover.get j) = min (queueUnits w.queue).length m := by
  rw [Covers] at h
  by_cases hmark : w.isMark
  · rw [if_pos hmark] at h
    rw [h j (Nat.le_refl j), hempty w List.mem_cons_self hmark]
    exact ⟨valid_zero _, (Nat.zero_min m).symm⟩
  · rw [if_neg hmark] at h
    exact ⟨h.1, h.2.1⟩

theorem ownTake_owned {m a j : ℕ} {start : Pos} {cover : Cover} {w : Window} {rest : List Window}
    (hmark : ¬ w.isMark) (hcore : ¬ (w.isCore ∧ 0 < k.wobMb)) (hempty : MarksEmpty rest)
    (hstart : Valid w.queue start ∧ index w.queue start = (w.abs k).entry m a)
    (hcover : Covers cover (m - (queueUnits w.queue).length) (j + 1) rest) :
    Owned k m a w rest (ownTake start cover j w rest) := by
  have hkind : (w.abs k).kind = .own w.lookAhead := by
    rw [Window.abs]
    dsimp only
    rw [if_neg hmark, if_neg hcore]
  have hown := take_taken hstart.1 w.budget
  have hfetch : (w.abs k).fetch m a = unitsOf (take w.queue start w.budget).1 := by
    rw [hown.units, hstart.2, FetchAhead.Window.fetch, hkind]
    rfl
  have htotal := total_eq fun s hs => (hown.good s hs).bytes
  have hspare : (w.abs k).spare m a =
      if w.lookAhead then (w.budget - total (take w.queue start w.budget).1) / 16 else 0 := by
    rw [FetchAhead.Window.spare, hkind, hfetch]
    cases w.lookAhead with
    | false => rfl
    | true =>
      show w.budget / 16 - _ = _
      rw [if_pos rfl]
      omega
  cases rest with
  | nil =>
    refine ⟨?_, trivial, fun s hs => ⟨w, List.mem_cons_self, hown.good s hs⟩⟩
    rw [hfetch]
    simp [ownTake, FetchAhead.lookAhead, FetchAhead.next]
  | cons next rest =>
    obtain ⟨hvalid, hindex⟩ := hcover.next hempty
    rw [ownTake]
    by_cases hlook : w.lookAhead ∧ w.queue.length ≤ (take w.queue start w.budget).2.1 ∧
        16 ≤ w.budget - total (take w.queue start w.budget).1
    · have hmore := take_taken hvalid (w.budget - total (take w.queue start w.budget).1)
      have hleft : (w.budget - total (take w.queue start w.budget).1) / 16 ≠ 0 := by omega
      rw [if_pos hlook.1] at hspare
      rw [if_pos hlook]
      refine ⟨?_, ⟨hmore.valid, ?_⟩, fun s hs => ?_⟩
      · rw [unitsOf_append, hmore.units, hindex, hfetch, hspare]
        rfl
      · rw [hmore.index, hindex, hspare, FetchAhead.cursor, if_neg hleft]
        rfl
      · rcases List.mem_append.mp hs with hs | hs
        · exact ⟨w, List.mem_cons_self, hown.good s hs⟩
        · exact ⟨next, List.mem_cons_of_mem w List.mem_cons_self, hmore.good s hs⟩
    · -- the budget is spent, or the window does not look ahead
      have hzero : (w.abs k).spare m a = 0 := by
        rw [hspare]
        split
        · rename_i hahead
          by_contra hne
          have hleft : 16 ≤ w.budget - total (take w.queue start w.budget).1 := by omega
          exact hlook ⟨hahead, hown.ended hleft, hleft⟩
        · rfl
      rw [if_neg hlook]
      refine ⟨?_, ?_, fun s hs => ⟨w, List.mem_cons_self, hown.good s hs⟩⟩
      · rw [hzero, hfetch, FetchAhead.lookAhead, List.take_zero, List.append_nil]
      · rw [hzero, FetchAhead.cursor, if_pos rfl]
        exact starts_zero _

/-- **The loop of `_make_plan` fetches ahead**: in units, the segments of the windows are what
the abstract windows fetch; every segment is a piece of a weight that some window reads. -/
theorem emit_run {ws : List Window} (hempty : MarksEmpty ws) {m a j : ℕ} {start : Pos}
    {cover : Cover} (hstart : Starts a start ws) (hcover : Covers cover m j ws) :
    (emit k start cover j ws).map unitsOf = FetchAhead.run m a (ws.map (Window.abs k)) ∧
      ∀ segs ∈ emit k start cover j ws, ∀ s ∈ segs, ∃ w ∈ ws, s.Good w.queue := by
  induction ws generalizing m a j start cover with
  | nil => exact ⟨rfl, fun _ h => absurd h List.not_mem_nil⟩
  | cons w ws ih =>
    have hlift : ∀ {segs : List (List Segment)},
        (∀ l ∈ segs, ∀ s ∈ l, ∃ v ∈ ws, s.Good v.queue) →
          ∀ l ∈ segs, ∀ s ∈ l, ∃ v ∈ w :: ws, s.Good v.queue := fun h l hl s hs => by
      obtain ⟨v, hv, hgood⟩ := h l hl s hs
      exact ⟨v, List.mem_cons_of_mem w hv, hgood⟩
    rw [emit, List.map_cons, List.map_cons, FetchAhead.run, w.isMark_abs]
    by_cases hmark : w.isMark
    · -- a mark leaves the start where it is, at the beginning
      have hq := hempty w List.mem_cons_self hmark
      have hzero : start = (0, 0) := by
        have hle : start.1 ≤ 0 := by
          have := hstart.1.le
          rwa [hq] at this
        have hoff : start.2 = 0 := by
          by_contra hne
          obtain ⟨it, hit, -⟩ := hstart.1.inside hne
          rw [hq] at hit
          cases hit
        exact Prod.ext (Nat.le_zero.mp hle) hoff
      rw [Covers, if_pos hmark] at hcover
      have hscan := moeScan_scanned k (j := j + 1) w.budget
        (fun i hi => hcover i (Nat.le_of_succ_le hi)) ws
      rw [windowStep, if_pos hmark, if_pos hmark, hzero]
      obtain ⟨hunits, hgood⟩ := ih hempty.tail (starts_zero ws) hscan.covers
      refine ⟨?_, fun l hl => ?_⟩
      · dsimp only
        rw [hunits, hscan.units]
        rfl
      · rcases List.mem_cons.mp hl with rfl | hl
        · exact fun s hs => by
            obtain ⟨v, hv, hs⟩ := hscan.good s hs
            exact ⟨v, List.mem_cons_of_mem w hv, hs⟩
        · exact hlift hgood l hl
    rw [Covers, if_neg hmark] at hcover
    obtain ⟨hvalid, hindex, hcover⟩ := hcover
    rw [windowStep, if_neg hmark, if_neg hmark]
    by_cases hcore : w.isCore ∧ 0 < k.wobMb
    · have hkind : (w.abs k).kind =
          .split (queueUnits (w.queue.take w.leading)).length (k.wobMb.toNat / 16) := by
        rw [Window.abs]
        dsimp only
        rw [if_neg hmark, if_pos hcore]
      have hspare : (w.abs k).spare m a = 0 := by
        rw [FetchAhead.Window.spare, hkind]
      rw [if_pos hcore, hspare, FetchAhead.cursor, if_pos rfl]
      obtain ⟨hunits, hgood⟩ := ih hempty.tail (starts_zero ws) hcover
      refine ⟨?_, fun l hl => ?_⟩
      · dsimp only
        rw [hunits, unitsOf_wobTake, FetchAhead.Window.fetch, hkind, FetchAhead.lookAhead,
          List.take_zero, List.append_nil]
        rfl
      · rcases List.mem_cons.mp hl with rfl | hl
        · exact fun s hs => ⟨w, List.mem_cons_self, good_wobTake hs⟩
        · exact hlift hgood l hl
    · rw [if_neg hcore]
      have hentry : index w.queue (resume start (cover.get j)) = (w.abs k).entry m a := by
        rw [index_resume hstart.1 hvalid, hstart.2, hindex]
        rfl
      have hown := ownTake_owned hmark hcore hempty.tail
        ⟨valid_resume hstart.1 hvalid, hentry⟩ hcover
      obtain ⟨hunits, hgood⟩ := ih hempty.tail hown.starts hcover
      refine ⟨?_, fun l hl => ?_⟩
      · dsimp only
        rw [hunits, hown.units]
        rfl
      · rcases List.mem_cons.mp hl with rfl | hl
        · exact hown.good
        · exact hlift hgood l hl

end L2Prefetch
