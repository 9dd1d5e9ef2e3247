import SparkTP4.ReplicatedSplit
import SparkTP4.Striping
import Mathlib.Data.List.MinMax
import Mathlib.Data.Nat.ModEq

/-!
# The split computes the layer

The ranges of the ranks are the stripes of the tiles (`ranges_eq`), so they cut the columns
of the layer; a window is inside the weight and around the range of its rank. A layer whose
blocks of columns depend only on their own tiles computes, on the rows from one tile to
another, the columns of the whole layer (`Linear.OwnTiles.forward_proxy`). So the parts of
the ranks – windows or padded slices – shard the output of the layer (`shards`), and every
gather returns it on every rank (`split_exact`).
-/

namespace ReplicatedSplit

open RowMatrix RoceColumns Striping

variable {α β X : Type}

/-! ## Ranges -/

theorem getD_map_range {γ : Type} (f : ℕ → γ) (d : γ) {n r : ℕ} (hr : r < n) :
    ((List.range n).map f).getD r d = f r := by
  rw [List.getD_eq_getElem _ _ (by rwa [List.length_map, List.length_range]), List.getElem_map,
    List.getElem_range]

/-- The first row of rank `r`, and the last one of the rank before it. -/
def edge (n world r : ℕ) : ℕ := packOffset (n / TILE) world r * TILE

theorem sum_take_counts (n : ℕ) {world r : ℕ} (hr : r ≤ world) :
    ((counts n world).take r).sum = packOffset (n / TILE) world r := by
  induction r with
  | zero => rfl
  | succ r ih =>
    rw [List.take_add_one, List.sum_append, ih (Nat.le_of_succ_le hr)]
    unfold counts
    rw [List.getElem?_map, List.getElem?_range hr]
    show _ + (stripePacks (n / TILE) world r + 0) = _
    rfl

/-- **The ranges are the stripes of the tiles.** -/
theorem ranges_eq (n world : ℕ) :
    ranges n world = (List.range world).map fun r => (edge n world r, edge n world (r + 1)) := by
  unfold ranges starts
  rw [show counts n world = (List.range world).map fun r => stripePacks (n / TILE) world r from rfl,
    List.zip_map', List.map_map]
  refine List.map_congr_left fun r hr => ?_
  have hsum := sum_take_counts n (List.mem_range.mp hr).le
  show (((counts n world).take r).sum * TILE,
    ((counts n world).take r).sum * TILE + stripePacks (n / TILE) world r * TILE) = _
  rw [hsum, ← Nat.add_mul]
  rfl

section edge

variable {n world : ℕ}

theorem edge_zero : edge n world 0 = 0 := Nat.zero_mul TILE

theorem edge_last (hn : TILE ∣ n) (hworld : 0 < world) : edge n world world = n := by
  unfold edge
  rw [packOffset_last hworld, Nat.div_mul_cancel hn]

theorem edge_mono : Monotone (edge n world) :=
  monotone_nat_of_le_succ fun _ => Nat.mul_le_mul_right TILE (Nat.le_add_right _ _)

theorem edge_le_succ (n world r : ℕ) : edge n world r ≤ edge n world (r + 1) :=
  edge_mono (Nat.le_succ r)

theorem edge_dvd (r : ℕ) : TILE ∣ edge n world r := Nat.dvd_mul_left TILE _

theorem edge_le (hn : TILE ∣ n) (hworld : 0 < world) {r : ℕ} (hr : r ≤ world) :
    edge n world r ≤ n :=
  (edge_mono hr).trans_eq (edge_last hn hworld)

theorem edge_succ (r : ℕ) :
    edge n world (r + 1) = edge n world r + stripePacks (n / TILE) world r * TILE :=
  Nat.add_mul _ _ TILE

/-- Every rank has a tile. -/
theorem edge_lt_succ (hworld : 0 < world) (hle : world ≤ n / TILE) (r : ℕ) :
    edge n world r < edge n world (r + 1) := by
  rw [edge_succ]
  have hpos : 0 < stripePacks (n / TILE) world r := Nat.add_pos_left (Nat.div_pos hle hworld) _
  exact Nat.lt_add_of_pos_right (Nat.mul_pos hpos (by decide))

/-- No range is wider than the widest. -/
theorem edge_sub_le_width {r : ℕ} (hr : r < world) :
    edge n world (r + 1) - edge n world r ≤ rangesWidth n world := by
  rw [edge_succ, Nat.add_sub_cancel_left]
  exact Nat.mul_le_mul_right TILE
    (List.le_max_of_le (List.mem_map_of_mem (List.mem_range.mpr hr)) le_rfl)

theorem rangesWidth_dvd : TILE ∣ rangesWidth n world := Nat.dvd_mul_left TILE _

theorem rangesWidth_le (hn : TILE ∣ n) (hworld : 0 < world) : rangesWidth n world ≤ n := by
  have hmax : (counts n world).foldr max 0 ≤ n / TILE := by
    refine List.max_le_of_forall_le _ _ fun c hc => ?_
    obtain ⟨r, hr, rfl⟩ := List.mem_map.mp hc
    have hle := edge_le hn hworld (show r + 1 ≤ world from List.mem_range.mp hr)
    rw [edge_succ] at hle
    exact (Nat.le_div_iff_mul_le (by decide)).mpr (le_of_add_le_right hle)
  exact (Nat.mul_le_mul_right TILE hmax).trans (Nat.div_mul_le_self n TILE)

/-- **The window of a rank is inside the weight, tile-aligned and around its range.** -/
theorem window_spec (hn : TILE ∣ n) (hworld : 0 < world) {r : ℕ} (hr : r < world) :
    let lo := edge n world r
    let w := window n lo (rangesWidth n world)
    w + rangesWidth n world ≤ n ∧ TILE ∣ w ∧ w ≤ lo ∧
      edge n world (r + 1) ≤ w + rangesWidth n world := by
  have hwidth := rangesWidth_le hn hworld
  have hown := edge_sub_le_width (n := n) hr
  have hlast := edge_le hn hworld (show r + 1 ≤ world from hr)
  have haligned : TILE ∣ window n (edge n world r) (rangesWidth n world) := by
    unfold window
    rcases min_choice (edge n world r) (n - rangesWidth n world) with h | h
    · rw [h]
      exact edge_dvd r
    · rw [h]
      exact Nat.dvd_sub hn rangesWidth_dvd
  refine ⟨?_, haligned, min_le_left _ _, ?_⟩
  · unfold window
    omega
  · unfold window
    omega

end edge

/-! ## The layer on some of its tiles -/

theorem length_cut {lo hi : ℕ} {data : List α} (hhi : hi ≤ data.length) :
    (cut lo hi data).length = hi - lo := by
  unfold cut
  rw [List.length_take, List.length_drop]
  omega

theorem cut_cut {lo hi a b : ℕ} (hb : b ≤ hi - lo) (data : List α) :
    cut a b (cut lo hi data) = cut (lo + a) (lo + b) data := by
  unfold cut
  rw [List.drop_take, List.drop_drop, List.take_take, show lo + b - (lo + a) = b - a by omega]
  exact congrArg (List.take · _) (by omega)

theorem Param.cut_cut {lo hi a b : ℕ} (hb : b ≤ hi - lo) (p : Param α) :
    (p.cut lo hi).cut a b = p.cut (lo + a) (lo + b) := by
  cases p with
  | scalar v => rfl
  | vector elements => exact congrArg Param.vector (ReplicatedSplit.cut_cut hb elements)
  | matrix rows => exact congrArg Param.matrix (ReplicatedSplit.cut_cut hb rows)

theorem Param.proxy_proxy {kinds : List (String × Kind)} {k n0 n1 a b : ℕ} (hb : b ≤ n1 - n0)
    (name : String) (p : Param α) :
    (p.proxy kinds k n0 n1 name).proxy kinds k a b name = p.proxy kinds k (n0 + a) (n0 + b) name := by
  unfold Param.proxy
  cases kinds.lookup name with
  | none => rfl
  | some kind =>
    cases kind with
    | rows => exact Param.cut_cut hb p
    | flat =>
      have hmul : b * (k / 32) ≤ n1 * (k / 32) - n0 * (k / 32) := by
        rw [← Nat.sub_mul]
        exact Nat.mul_le_mul_right _ hb
      refine (Param.cut_cut hmul p).trans ?_
      rw [← Nat.add_mul, ← Nat.add_mul]

/-- **A proxy of a proxy is a proxy of the layer.** -/
theorem proxyWith_proxyWith {kinds : List (String × Kind)} {n0 n1 a b : ℕ} (hb : b ≤ n1 - n0)
    (layer : Layer α) :
    proxyWith kinds (proxyWith kinds layer n0 n1) a b =
      proxyWith kinds layer (n0 + a) (n0 + b) := by
  unfold proxyWith
  rw [Layer.mk.injEq]
  refine ⟨cut_cut hb layer.weight, rfl, rfl, ?_, ?_, ?_⟩
  · rw [List.map_map]
    exact List.map_congr_left fun np _ => Prod.ext rfl (Param.proxy_proxy hb np.1 np.2)
  · rw [Option.map_map]
    exact congrArg (Option.map · _) (funext fun _ => (Nat.add_sub_add_left n0 b a).symm)
  · rw [Option.map_map]
    exact congrArg (Option.map · _) (funext fun _ => (Nat.add_sub_add_left n0 b a).symm)

/-- **The layer on the tiles from `a` to `b` computes their columns of the layer.** -/
theorem Linear.OwnTiles.forward_proxy {linear : Linear α β X} {layer : Layer α}
    (h : linear.OwnTiles (scaleParams layer)) {a b : ℕ} (hab : a ≤ b) (hb : b * TILE ≤ layer.n)
    (x : X) :
    linear.forward (proxy layer (a * TILE) (b * TILE)) x =
      (linear.forward layer x).slice (a * TILE) (b * TILE) := by
  have hcols : b * TILE ≤ (linear.forward layer x).cols :=
    hb.trans_eq (linear.cols_forward layer x).symm
  have hn : (proxy layer (a * TILE) (b * TILE)).n = (b - a) * TILE := by
    show (cut _ _ layer.weight).length = _
    rw [length_cut hb, Nat.sub_mul]
  refine ext_blocks (n := b - a) (w := TILE) ?_ ?_ ?_ fun t ht => ?_
  · rw [linear.cols_forward, hn]
  · rw [cols_slice hcols, Nat.sub_mul]
  · rw [height_slice, linear.height_forward, linear.height_forward]
  · have hle : (t + 1) * TILE ≤ (b - a) * TILE := Nat.mul_le_mul_right TILE ht
    have hsum : (a + t + 1) * TILE ≤ layer.n :=
      (Nat.mul_le_mul_right TILE (show a + t + 1 ≤ b by omega)).trans hb
    have hlo : a * TILE + t * TILE = (a + t) * TILE := (Nat.add_mul _ _ _).symm
    have hhi : a * TILE + (t + 1) * TILE = (a + t + 1) * TILE := by
      rw [← Nat.add_mul, Nat.add_assoc]
    have hsub : (t + 1) * TILE ≤ b * TILE - a * TILE :=
      hle.trans_eq (Nat.sub_mul b a TILE)
    rw [slice_slice hcols hsub, hlo, hhi]
    refine h _ _ x t (a + t) (hle.trans_eq hn.symm) hsum ?_
    show proxyWith _ (proxyWith _ layer _ _) _ _ = proxyWith _ layer _ _
    rw [proxyWith_proxyWith hsub, hlo, hhi]

/-! ## The states that the ranks agree on -/

/-- A rank's tiles: the window of its rank, or its own range. -/
def proxyStart (win : Bool) (n world r : ℕ) : ℕ :=
  if win then window n (edge n world r) (rangesWidth n world) else edge n world r

/-- The end of a rank's tiles. -/
def proxyStop (win : Bool) (n world r : ℕ) : ℕ :=
  if win then window n (edge n world r) (rangesWidth n world) + rangesWidth n world
  else edge n world (r + 1)

/-- The state of a rank, with windows or with slices. -/
def stateOf (win : Bool) (layer : Layer α) (world r : ℕ) : State α where
  proxy := proxy layer (proxyStart win layer.n world r) (proxyStop win layer.n world r)
  ranges := ranges layer.n world
  width := rangesWidth layer.n world
  offs := (List.range world).map fun s =>
    edge layer.n world s - proxyStart win layer.n world s

section decide

variable {linear : Linear α β X} {equal : RowMatrix β → RowMatrix β → Bool} {WINDOW : Bool}
  {layer : Layer α} {rank world : ℕ} {inputs : List X} {st : State α}

theorem getD_ranges (n : ℕ) (hrank : rank < world) :
    (ranges n world).getD rank (0, 0) = (edge n world rank, edge n world (rank + 1)) := by
  rw [ranges_eq]
  exact getD_map_range _ _ hrank

/-- The starts of all ranks' windows. -/
theorem wins_eq (n : ℕ) :
    ((ranges n world).map fun (a, _) => window n a (rangesWidth n world)) =
      (List.range world).map (proxyStart true n world) := by
  rw [ranges_eq, List.map_map]
  rfl

theorem offs_eq (n : ℕ) :
    (((ranges n world).zip ((List.range world).map (proxyStart true n world))).map
        fun ((a, _), w) => a - w) =
      (List.range world).map fun s => edge n world s - proxyStart true n world s := by
  rw [ranges_eq, List.zip_map', List.map_map]
  rfl

theorem offs_slice (n : ℕ) :
    List.replicate world 0 =
      (List.range world).map fun s => edge n world s - proxyStart false n world s := by
  have hzero : (fun s => edge n world s - proxyStart false n world s) = fun _ => 0 :=
    funext fun s => Nat.sub_self (edge n world s)
  rw [hzero, List.map_const', List.length_range]

theorem slice_of_decide (hrank : rank < world)
    (h : (ReplicatedSplit.decide linear equal WINDOW layer rank world inputs).slice = some st) :
    st = stateOf false layer world rank := by
  have hstate : (⟨proxy layer (edge layer.n world rank) (edge layer.n world (rank + 1)),
      ranges layer.n world, rangesWidth layer.n world, List.replicate world 0⟩ : State α) =
      stateOf false layer world rank := by
    rw [offs_slice layer.n]
    rfl
  unfold ReplicatedSplit.decide at h
  simp only [getD_ranges _ hrank, hstate] at h
  split_ifs at h
  all_goals exact (Option.some.inj h).symm

theorem window_of_decide (hrank : rank < world)
    (h : (ReplicatedSplit.decide linear equal WINDOW layer rank world inputs).window = some st) :
    st = stateOf true layer world rank := by
  have hwin : ((List.range world).map (proxyStart true layer.n world)).getD rank 0 =
      proxyStart true layer.n world rank := getD_map_range _ 0 hrank
  unfold ReplicatedSplit.decide at h
  simp only [getD_ranges _ hrank, wins_eq, offs_eq, hwin] at h
  split_ifs at h with hn hW hown hslice hexact hexact
  · -- the window is the rank's own range
    have hstop : edge layer.n world (rank + 1) = proxyStop true layer.n world rank := by
      have hlt := edge_le_succ layer.n world rank
      show _ = proxyStart true layer.n world rank + rangesWidth layer.n world
      rw [hown.1, ← hown.2, Nat.add_sub_cancel' hlt]
    rw [← Option.some.inj h, ← hown.1, hstop]
    rfl
  · exact absurd h (by simp)
  · exact (Option.some.inj h).symm
  · exact (Option.some.inj h).symm

/-- **The ranks agree on windows or on slices.** -/
theorem build_eq_stateOf {inputs : ℕ → List X} {sts : ℕ → State α}
    (h : ∀ r < world, build ((List.range world).map fun r =>
      ReplicatedSplit.decide linear equal WINDOW layer r world (inputs r)) r = some (sts r)) :
    ∃ win, ∀ r < world, sts r = stateOf win layer world r := by
  set candidates := (List.range world).map fun r =>
    ReplicatedSplit.decide linear equal WINDOW layer r world (inputs r) with hcandidates
  have hget : ∀ r < world, candidates[r]? =
      some (ReplicatedSplit.decide linear equal WINDOW layer r world (inputs r)) := by
    intro r hr
    rw [hcandidates, List.getElem?_map, List.getElem?_range hr, Option.map_some]
  refine ⟨candidates.all fun c => c.window.isSome, fun r hr => ?_⟩
  have hr' := h r hr
  unfold build at hr'
  rw [hget r hr, Option.bind_some] at hr'
  split_ifs at hr' with hwin hslice
  · rw [hwin]
    exact window_of_decide hr hr'
  · rw [Bool.eq_false_of_not_eq_true hwin]
    exact slice_of_decide hr hr'

end decide

/-! ## The parts shard the output of the layer -/

section parts

variable {linear : Linear α β X} {layer : Layer α} {world : ℕ}

/-- The tiles that a rank runs on. -/
theorem proxyStart_spec (win : Bool) {n : ℕ} (hn : TILE ∣ n) (hworld : 0 < world) {r : ℕ}
    (hr : r < world) :
    TILE ∣ proxyStart win n world r ∧ TILE ∣ proxyStop win n world r ∧
      proxyStart win n world r ≤ edge n world r ∧
      edge n world (r + 1) ≤ proxyStop win n world r ∧ proxyStop win n world r ≤ n ∧
      proxyStop win n world r - proxyStart win n world r ≤ rangesWidth n world := by
  cases win with
  | false =>
    exact ⟨edge_dvd r, edge_dvd (r + 1), le_rfl, le_rfl, edge_le hn hworld hr, edge_sub_le_width hr⟩
  | true =>
    obtain ⟨hfit, hdvd, hle, hcover⟩ := window_spec hn hworld hr
    exact ⟨hdvd, Nat.dvd_add hdvd rangesWidth_dvd, hle, hcover, hfit, (Nat.add_sub_cancel_left _ _).le⟩

/-- **What a rank computes is the columns of its tiles.** -/
theorem forward_stateOf (h : linear.OwnTiles (scaleParams layer)) (hn : TILE ∣ layer.n)
    (hworld : 0 < world) (win : Bool) {r : ℕ} (hr : r < world) (x : X) :
    linear.forward (stateOf win layer world r).proxy x =
      (linear.forward layer x).slice (proxyStart win layer.n world r)
        (proxyStop win layer.n world r) := by
  obtain ⟨⟨a, ha⟩, ⟨b, hb⟩, hstart, hstop, hle, -⟩ := proxyStart_spec win hn hworld hr
  have hedge := edge_le_succ layer.n world r
  show linear.forward (proxy layer _ _) x = _
  rw [Nat.mul_comm] at ha hb
  rw [ha] at hstart ⊢
  rw [hb] at hstop hle ⊢
  have hab : a * TILE ≤ b * TILE := hstart.trans (hedge.trans hstop)
  exact h.forward_proxy (Nat.le_of_mul_le_mul_right hab (by decide)) hle x

/-- **The parts of the ranks shard the output.** -/
theorem shards (h : linear.OwnTiles (scaleParams layer)) (hn : TILE ∣ layer.n)
    (hworld : 0 < world) (win : Bool) (x : X) :
    Shards (linear.forward layer x) world (edge layer.n world)
      (fun r => edge layer.n world r - proxyStart win layer.n world r)
      fun r => linear.forward (stateOf win layer world r).proxy x where
  mono := edge_mono
  cut_zero := edge_zero
  cut_world := (edge_last hn hworld).trans (linear.cols_forward layer x).symm
  height r _ := by rw [linear.height_forward, linear.height_forward]
  fits r hr := by
    obtain ⟨-, -, hstart, hstop, hle, -⟩ := proxyStart_spec win hn hworld hr
    have hedge := edge_le_succ layer.n world r
    rw [forward_stateOf h hn hworld win hr,
      cols_slice (hle.trans_eq (linear.cols_forward layer x).symm)]
    omega
  holds r hr := by
    obtain ⟨-, -, hstart, hstop, hle, -⟩ := proxyStart_spec win hn hworld hr
    have hedge := edge_le_succ layer.n world r
    rw [forward_stateOf h hn hworld win hr,
      slice_slice (hle.trans_eq (linear.cols_forward layer x).symm) (by omega)]
    congr 1 <;> omega

section check

variable {equal : RowMatrix β → RowMatrix β → Bool} {WINDOW : Bool} {rank : ℕ} {inputs : List X}

theorem sliceExact_stateOf (h : linear.OwnTiles (scaleParams layer)) (hn : TILE ∣ layer.n)
    (hworld : 0 < world) (hequal : ∀ a, equal a a = true) (win : Bool) (hrank : rank < world) :
    sliceExact linear equal layer (stateOf win layer world rank).proxy
      (proxyStart win layer.n world rank) (proxyStop win layer.n world rank) inputs = true := by
  obtain ⟨-, -, -, -, hle, -⟩ := proxyStart_spec win hn hworld hrank
  refine List.all_eq_true.mpr fun x _ => ?_
  show (_ == _ && _) = true
  rw [forward_stateOf h hn hworld win hrank x,
    cols_slice (hle.trans_eq (linear.cols_forward layer x).symm), hequal, beq_self_eq_true]
  rfl

/-- **The check passes**: a rank has a candidate with a window and one with its slice. -/
theorem decide_eq (h : linear.OwnTiles (scaleParams layer)) (hn : TILE ∣ layer.n)
    (hworld : 0 < world) (hle : world ≤ layer.n / TILE) (hfp8 : layer.fp8 = true)
    (hequal : ∀ a, equal a a = true) (hrank : rank < world) :
    ReplicatedSplit.decide linear equal WINDOW layer rank world inputs =
      ⟨if WINDOW then some (stateOf true layer world rank) else none,
        some (stateOf false layer world rank)⟩ := by
  have hslice : sliceExact linear equal layer
      (proxy layer (edge layer.n world rank) (edge layer.n world (rank + 1)))
      (edge layer.n world rank) (edge layer.n world (rank + 1)) inputs = true :=
    sliceExact_stateOf h hn hworld hequal false hrank
  have hwindow : sliceExact linear equal layer (proxy layer (proxyStart true layer.n world rank)
      (proxyStart true layer.n world rank + rangesWidth layer.n world))
      (proxyStart true layer.n world rank)
      (proxyStart true layer.n world rank + rangesWidth layer.n world) inputs = true :=
    sliceExact_stateOf h hn hworld hequal true hrank
  have hn' : layer.n % TILE = 0 ∧ world ≤ layer.n / TILE ∧ layer.fp8 = true :=
    ⟨Nat.mod_eq_zero_of_dvd hn, hle, hfp8⟩
  unfold ReplicatedSplit.decide
  simp only [getD_ranges _ hrank, wins_eq, offs_eq, getD_map_range _ 0 hrank,
    if_pos hslice, if_pos hwindow, if_neg (not_not_intro hn')]
  rw [offs_slice layer.n]
  cases WINDOW with
  | false => rfl
  | true =>
    rw [if_neg Bool.noConfusion, if_pos rfl]
    split_ifs with hown
    · -- the window is the rank's own range
      have hstop : edge layer.n world (rank + 1) = proxyStop true layer.n world rank := by
        show _ = proxyStart true layer.n world rank + rangesWidth layer.n world
        rw [hown.1, ← hown.2, Nat.add_sub_cancel' (edge_le_succ layer.n world rank)]
      rw [Candidates.mk.injEq]
      refine ⟨congrArg some ?_, rfl⟩
      unfold stateOf
      rw [← hown.1, hstop]
    · rfl

/-- The ranks agree on windows where they are wanted, else on slices. -/
theorem build_eq {inputs : ℕ → List X} (h : linear.OwnTiles (scaleParams layer))
    (hn : TILE ∣ layer.n) (hworld : 0 < world) (hle : world ≤ layer.n / TILE)
    (hfp8 : layer.fp8 = true) (hequal : ∀ a, equal a a = true) (hrank : rank < world) :
    build ((List.range world).map fun r =>
      ReplicatedSplit.decide linear equal WINDOW layer r world (inputs r)) rank =
        some (stateOf WINDOW layer world rank) := by
  rw [List.map_congr_left fun r hr =>
    decide_eq h hn hworld hle hfp8 hequal (List.mem_range.mp hr)]
  set c := fun r => (⟨if WINDOW then some (stateOf true layer world r) else none,
    some (stateOf false layer world r)⟩ : Candidates α) with hc
  unfold build
  rw [List.getElem?_map, List.getElem?_range hrank, Option.map_some, Option.bind_some,
    List.all_map, List.all_map]
  have hslice : (List.range world).all ((fun c => c.slice.isSome) ∘ c) = true :=
    List.all_eq_true.mpr fun _ _ => rfl
  rw [hslice]
  cases WINDOW with
  | false =>
    rw [if_neg, if_pos rfl]
    rw [List.all_eq_true]
    exact fun hall => Bool.noConfusion (hall rank (List.mem_range.mpr hrank))
  | true => exact if_pos (List.all_eq_true.mpr fun _ _ => rfl)

end check

section padded

variable [Zero β]

theorem height_padded (m : RowMatrix β) (width : ℕ) : (padded m width).height = m.height := by
  unfold padded
  split_ifs
  · exact height_padCols m _
  · rfl

theorem cols_padded {m : RowMatrix β} {width : ℕ} (h : m.cols ≤ width) :
    (padded m width).cols = width := by
  unfold padded
  split_ifs with hlt
  · exact Nat.add_sub_cancel' h
  · omega

theorem slice_padded (m : RowMatrix β) {width lo hi : ℕ} (hhi : hi ≤ m.cols) :
    (padded m width).slice lo hi = m.slice lo hi := by
  unfold padded
  split_ifs
  · exact slice_padCols m _ hhi
  · rfl

/-- Padding the parts leaves their shards where they are. -/
theorem shards_padded {m : RowMatrix β} {cut off : ℕ → ℕ} {parts : ℕ → RowMatrix β} {width : ℕ}
    (h : Shards m world cut off parts) (hwidth : ∀ r < world, (parts r).cols ≤ width) :
    Shards m world cut off fun r => padded (parts r) width where
  mono := h.mono
  cut_zero := h.cut_zero
  cut_world := h.cut_world
  height r hr := by rw [height_padded, h.height r hr]
  fits r hr := by
    rw [cols_padded (hwidth r hr)]
    exact (h.fits r hr).trans (hwidth r hr)
  holds r hr := by rw [slice_padded _ (h.fits r hr), h.holds r hr]

end padded

end parts

/-! ## The gathers -/

section gathers

variable {layer : Layer α} {world : ℕ} {win : Bool} {m : RowMatrix β} {parts : ℕ → RowMatrix β}

theorem mapIdx_map_range {γ δ : Type} (f : ℕ → γ → δ) (g : ℕ → γ) (n : ℕ) :
    ((List.range n).map g).mapIdx f = (List.range n).map fun r => f r (g r) := by
  refine List.ext_getElem (by simp) fun i hi hi' => ?_
  rw [List.getElem_mapIdx, List.getElem_map, List.getElem_map, List.getElem_range]

/-- The offset of a rank's columns in its part. -/
def offset (win : Bool) (layer : Layer α) (world r : ℕ) : ℕ :=
  edge layer.n world r - proxyStart win layer.n world r

theorem zip_offs (rank : ℕ) :
    (stateOf win layer world rank).ranges.zip (stateOf win layer world rank).offs =
      (List.range world).map fun r =>
        ((edge layer.n world r, edge layer.n world (r + 1)), offset win layer world r) := by
  show (ranges layer.n world).zip _ = _
  rw [ranges_eq]
  exact List.zip_map'

/-- **The gather along the last dimension.** -/
theorem gatherLast_eq
    (h : Shards m world (edge layer.n world) (offset win layer world) parts) (hworld : 0 < world)
    (hwidth : ∀ r < world, (parts r).cols = rangesWidth layer.n world) (rank : ℕ) :
    gatherLast ((List.range world).map parts) (stateOf win layer world rank) = some m := by
  unfold gatherLast assemble
  split_ifs with hall
  · rw [Option.bind_fun_some]
    refine h.catCols_exact hworld fun r hr => ?_
    have hmem : (edge layer.n world r, edge layer.n world (r + 1)) ∈ ranges layer.n world := by
      rw [ranges_eq]
      exact List.mem_map_of_mem (List.mem_range.mpr hr)
    exact (hwidth r hr).trans (eq_of_beq (List.all_eq_true.mp hall _ hmem)).symm
  · rw [zip_offs]
    simp only [mapIdx_map_range]
    exact h.catCols_wide hworld hwidth

/-- **The gather along the first dimension.** -/
theorem gatherFirst_eq
    (h : Shards m world (edge layer.n world) (offset win layer world) parts) (hworld : 0 < world)
    (hwidth : ∀ r < world, (parts r).cols = rangesWidth layer.n world) {rank : ℕ}
    (hrank : rank < world) :
    gatherFirst ((List.range world).map parts) (parts rank) (stateOf win layer world rank) =
      some m := by
  have hlen : (stateOf win layer world rank).ranges.length = world := by
    show (ranges layer.n world).length = world
    rw [ranges_eq, List.length_map, List.length_range]
  have hstacked := stacked_catRows hworld
    (fun r hr => (h.height r hr).trans (h.height rank hrank).symm) hwidth
  unfold gatherFirst
  rw [← Option.bind_assoc, hlen]
  show ((catRows _).bind fun g => g.stacked world (parts rank).height
    (rangesWidth layer.n world)).bind _ = _
  rw [hstacked, Option.bind_some]
  unfold assembleStacked
  rw [zip_offs, List.zip_map', List.map_map]
  exact h.catCols_parts hworld

/-! ## The gather of unequal columns -/

/-- A whole number of tiles is a whole number of packs. -/
theorem tile_packs (es : ElementSize) {c : ℕ} (hc : TILE ∣ c) : c * es.bytes % PACK_BYTES = 0 :=
  Nat.mod_eq_zero_of_dvd (((show PACK_BYTES ∣ TILE by decide).trans hc).mul_right es.bytes)

theorem widths_eq (n world : ℕ) :
    (compactLayout (ranges n world)).1 =
      (List.range world).map fun r => edge n world (r + 1) - edge n world r := by
  unfold compactLayout
  rw [ranges_eq, List.map_map]
  rfl

/-- The packs of each rank. -/
theorem columnPacks_widths (es : ElementSize) {n : ℕ} (hworld : 0 < world)
    (hle : world ≤ n / TILE) :
    columnPacks world (compactLayout (ranges n world)).1 es =
      some ((List.range world).map fun r =>
        (edge n world (r + 1) - edge n world r) * es.bytes / PACK_BYTES) := by
  rw [widths_eq]
  unfold columnPacks
  rw [if_neg, if_neg, List.map_map]
  · rfl
  · rw [List.any_map, List.any_eq_true]
    rintro ⟨r, -, hr⟩
    exact of_decide_eq_true hr (tile_packs es (Nat.dvd_sub (edge_dvd _) (edge_dvd _)))
  · rw [List.length_map, List.length_range, List.any_map, List.any_eq_true]
    rintro (hne | ⟨r, -, hr⟩)
    · exact hne rfl
    · have hlt := edge_lt_succ hworld hle r
      have hone : edge n world (r + 1) - edge n world r < 1 := of_decide_eq_true hr
      omega

theorem toMatrix_handed (es : ElementSize) (rank : ℕ) (loc : Strided β) (st : State α) :
    (handed es rank loc st).toMatrix = loc.toMatrix := by
  unfold handed
  split_ifs
  · rfl
  · exact loc.toMatrix_cloned

theorem getD_offs {rank : ℕ} (hrank : rank < world) :
    (stateOf win layer world rank).offs.getD rank 0 = offset win layer world rank :=
  getD_map_range (offset win layer world) 0 hrank

theorem getD_widths {n rank : ℕ} (hrank : rank < world) :
    (compactLayout (ranges n world)).1.getD rank 0 = edge n world (rank + 1) - edge n world rank := by
  rw [widths_eq]
  exact getD_map_range _ 0 hrank

/-- **What is handed over has rows of whole packs.** -/
theorem handed_spec (es : ElementSize) (rank : ℕ) {loc : Strided β} (st : State α)
    (hcols : TILE ∣ loc.cols) :
    (handed es rank loc st).stride1 = 1 ∧
      (handed es rank loc st).stride0 * es.bytes % PACK_BYTES = 0 ∧
      (handed es rank loc st).aligned = true ∧ (handed es rank loc st).rows = loc.rows ∧
      (handed es rank loc st).cols = loc.cols := by
  unfold handed
  split_ifs with hok
  · unfold localOk at hok
    simp only [Bool.and_eq_true, beq_iff_eq] at hok
    obtain ⟨⟨⟨⟨hunit, hrow⟩, haligned⟩, -⟩, -⟩ := hok
    exact ⟨hunit, hrow, haligned, rfl, rfl⟩
  · exact ⟨rfl, tile_packs es hcols, rfl, rfl, rfl⟩

variable (layer win) in
/-- **Every rank launches**, where the gather admits the number of rows. -/
theorem roceLaunch_eq_some {es : ElementSize} {maxGatherBytes : ℕ} {rank : ℕ} {loc : Strided β}
    (hrank : rank < world) (hcols : TILE ∣ loc.cols)
    (hfits : offset win layer world rank + (edge layer.n world (rank + 1) - edge layer.n world rank)
      ≤ loc.cols)
    (hoff : TILE ∣ offset win layer world rank)
    (hgathers : shouldAllGatherColumns world maxGatherBytes es loc.rows
      (compactLayout (ranges layer.n world)).1 = true) :
    ∃ launch, roceLaunch world maxGatherBytes es rank loc (stateOf win layer world rank) =
      some launch := by
  obtain ⟨hunit, hrow, haligned, hrows, hcols'⟩ :=
    handed_spec es rank (stateOf win layer world rank) hcols
  unfold roceLaunch
  show ∃ launch, launchColumns world maxGatherBytes es rank _ (compactLayout
    (ranges layer.n world)).1 _ = some launch
  unfold launchColumns
  rw [getD_offs hrank, getD_widths hrank, hrows, hcols', if_neg (ne_false_of_eq_true hgathers), if_neg,
    if_neg, if_neg (Nat.not_lt.mpr hfits)]
  · exact ⟨_, rfl⟩
  · rw [haligned]
    exact fun h => h.elim (fun hne => hne (tile_packs es hoff)) (fun h => Bool.noConfusion h)
  · exact fun h => h.elim (fun hne => hne hunit) (fun hne => hne hrow)

/-- **The gather of unequal columns**, on a rank that is admitted. -/
theorem gatherColumns_eq [Zero β] {es : ElementSize} {maxGatherBytes rank : ℕ}
    {locals : ℕ → Strided β}
    (h : Shards m world (edge layer.n world) (offset win layer world) parts)
    (hn : TILE ∣ layer.n) (hworld : 0 < world) (hle : world ≤ layer.n / TILE)
    (hparts : ∀ r < world, (locals r).toMatrix = parts r) (hcols : ∀ r < world, TILE ∣ (parts r).cols)
    (hrank : rank < world)
    (hgathers : shouldAllGatherColumns world maxGatherBytes es m.height
      (compactLayout (ranges layer.n world)).1 = true) :
    ∃ launches colPacks, (∀ r < world, roceLaunch world maxGatherBytes es r (locals r)
        (stateOf win layer world r) = some (launches r)) ∧
      columnPacks world (compactLayout (ranges layer.n world)).1 es = some colPacks ∧
      ∀ run : Run es launches colPacks rank, run.gathered = m := by
  have hcols' : ∀ r < world, (locals r).cols = (parts r).cols := fun r hr => by
    rw [← hparts r hr, Strided.cols_toMatrix]
  have hrows : ∀ r < world, (locals r).rows = m.height := fun r hr => by
    rw [← h.height r hr, ← hparts r hr, Strided.height_toMatrix]
  have hlaunch : ∀ r, ∃ launch, r < world → roceLaunch world maxGatherBytes es r (locals r)
      (stateOf win layer world r) = some launch := by
    intro r
    by_cases hr : r < world
    · obtain ⟨launch, hlaunch⟩ := roceLaunch_eq_some layer win hr
        (by rw [hcols' r hr]; exact hcols r hr) (by rw [hcols' r hr]; exact h.fits r hr)
        (Nat.dvd_sub (edge_dvd r) (proxyStart_spec win hn hworld hr).1)
        (by rw [hrows r hr]; exact hgathers)
      exact ⟨launch, fun _ => hlaunch⟩
    · exact ⟨⟨(locals r).mem, 0, 0, 0⟩, fun hr' => absurd hr' hr⟩
  choose launches hlaunches using hlaunch
  set colPacks := (List.range world).map fun r =>
    (edge layer.n world (r + 1) - edge layer.n world r) * es.bytes / PACK_BYTES with hpacks
  have hlen : colPacks.length = world := by rw [hpacks, List.length_map, List.length_range]
  have hsharded : Sharded es m (edge layer.n world) (offset win layer world)
      (fun r => handed es r (locals r) (stateOf win layer world r)) launches colPacks := by
    refine ⟨?_, fun r hr => ?_, fun r hr => ?_⟩
    · rw [hlen]
      refine ⟨h.mono, h.cut_zero, h.cut_world, fun r hr => ?_, fun r hr => ?_, fun r hr => ?_⟩
      · rw [toMatrix_handed, hparts r hr, h.height r hr]
      · rw [toMatrix_handed, hparts r hr]
        exact h.fits r hr
      · rw [toMatrix_handed, hparts r hr]
        exact h.holds r hr
    · rw [getD_map_range _ 0 (hlen ▸ hr)]
      exact es.packs_mul (tile_packs es (Nat.dvd_sub (edge_dvd _) (edge_dvd _)))
    · have hr' : r < world := hlen ▸ hr
      have hreads := launchColumns_eq_some (hlaunches r hr')
      rw [getD_offs hr'] at hreads
      exact (getD_widths (n := layer.n) hr') ▸ hreads
  exact ⟨launches, colPacks, hlaunches, columnPacks_widths es hworld hle, fun run =>
    hsharded.gathered_eq run (hlen.symm ▸ hrank)⟩

end gathers

/-! ## The split -/

/-- Each rank's window is inside the weight, tile-aligned and around its own range. -/
def WindowsFit (n world : ℕ) : Prop :=
  ∀ (r lo hi : ℕ), (ranges n world)[r]? = some (lo, hi) →
    window n lo (rangesWidth n world) + rangesWidth n world ≤ n ∧
      TILE ∣ window n lo (rangesWidth n world) ∧ TILE ∣ rangesWidth n world ∧
      window n lo (rangesWidth n world) ≤ lo ∧
      hi ≤ window n lo (rangesWidth n world) + rangesWidth n world

/-- The ranges partition the rows. -/
def RangesPartition (n world : ℕ) : Prop :=
  (ranges n world).length = world ∧ (∀ range ∈ ranges n world, range.1 < range.2 ∧ range.2 ≤ n) ∧
    ∀ c < n, ∃! r : ℕ, ∃ lo hi, (ranges n world)[r]? = some (lo, hi) ∧ lo ≤ c ∧ c < hi

/-- The packs of the ranks are disjoint and cover a row of the output. -/
def PacksPartition (n world : ℕ) (es : ElementSize) : Prop :=
  ∃ widths dst row, packLayout (ranges n world) es.bytes = some (widths, dst, row) ∧
    widths.length = world ∧ dst.length = world ∧ row * PACK = n * es.bytes ∧
    (∀ r < world, dst.getD r 0 + widths.getD r 0 ≤ row) ∧
    ∀ p < row, ∃! r, r < world ∧ dst.getD r 0 ≤ p ∧ p < dst.getD r 0 + widths.getD r 0

section layout

variable {n world : ℕ}

theorem getElem?_ranges {r lo hi : ℕ} (h : (ranges n world)[r]? = some (lo, hi)) :
    r < world ∧ lo = edge n world r ∧ hi = edge n world (r + 1) := by
  rw [ranges_eq, List.getElem?_map, Option.map_eq_some_iff] at h
  obtain ⟨r', hr', heq⟩ := h
  obtain ⟨hlt, hget⟩ := List.getElem?_eq_some_iff.mp hr'
  rw [List.getElem_range] at hget
  rw [List.length_range] at hlt
  obtain rfl := hget
  exact ⟨hlt, (congrArg Prod.fst heq).symm, (congrArg Prod.snd heq).symm⟩

theorem windowsFit (hn : TILE ∣ n) (hworld : 0 < world) : WindowsFit n world := by
  intro r lo hi h
  obtain ⟨hr, rfl, rfl⟩ := getElem?_ranges h
  obtain ⟨hfit, hdvd, hle, hcover⟩ := window_spec hn hworld hr
  exact ⟨hfit, hdvd, rangesWidth_dvd, hle, hcover⟩

theorem rangesPartition (hn : TILE ∣ n) (hworld : 0 < world) (hle : world ≤ n / TILE) :
    RangesPartition n world := by
  refine ⟨?_, fun range hrange => ?_, fun c hc => ?_⟩
  · rw [ranges_eq, List.length_map, List.length_range]
  · rw [ranges_eq] at hrange
    obtain ⟨r, hr, rfl⟩ := List.mem_map.mp hrange
    exact ⟨edge_lt_succ hworld hle r, edge_le hn hworld (List.mem_range.mp hr)⟩
  · obtain ⟨r, ⟨hr, hlo, hhi⟩, huniq⟩ :=
      existsUnique_cut edge_mono edge_zero (hc.trans_eq (edge_last hn hworld).symm)
    refine ⟨r, ⟨_, _, ?_, hlo, hhi⟩, fun r' ⟨lo, hi, h, hlo', hhi'⟩ => ?_⟩
    · rw [ranges_eq, List.getElem?_map, List.getElem?_range hr, Option.map_some]
    · obtain ⟨hr', rfl, rfl⟩ := getElem?_ranges h
      exact huniq r' ⟨hr', hlo', hhi'⟩

/-- The first pack of rank `r` in a row of the output. -/
def packEdge (n world : ℕ) (es : ElementSize) (r : ℕ) : ℕ := edge n world r * es.bytes / PACK

theorem packEdge_mono (es : ElementSize) : Monotone (packEdge n world es) := fun _ _ h =>
  Nat.div_le_div_right (Nat.mul_le_mul_right _ (edge_mono h))

theorem packEdge_succ (es : ElementSize) (r : ℕ) :
    packEdge n world es r + (edge n world (r + 1) - edge n world r) * es.bytes / PACK =
      packEdge n world es (r + 1) := by
  have hdvd : PACK ∣ edge n world r * es.bytes :=
    Nat.dvd_of_mod_eq_zero (tile_packs es (edge_dvd r))
  unfold packEdge
  rw [← Nat.add_div_of_dvd_right hdvd, ← Nat.add_mul, Nat.add_sub_cancel' (edge_le_succ n world r)]

theorem packsPartition (hn : TILE ∣ n) (hworld : 0 < world) (es : ElementSize) :
    PacksPartition n world es := by
  have hdst : (compactLayout (ranges n world)).2 = (List.range world).map (edge n world) := by
    unfold compactLayout
    rw [ranges_eq]
    exact List.map_map
  have hsum : (compactLayout (ranges n world)).1.sum = n := by
    rw [widths_eq, sum_cuts edge_mono edge_zero, edge_last hn hworld]
  have hlast : packEdge n world es world = n * es.bytes / PACK := by
    unfold packEdge
    rw [edge_last hn hworld]
  have hzero : packEdge n world es 0 = 0 := by
    unfold packEdge
    rw [edge_zero, Nat.zero_mul, Nat.zero_div]
  refine ⟨(List.range world).map fun r =>
      (edge n world (r + 1) - edge n world r) * es.bytes / PACK,
    (List.range world).map (packEdge n world es), n * es.bytes / PACK, ?_, by simp, by simp,
    Nat.div_mul_cancel (Nat.dvd_of_mod_eq_zero (tile_packs es hn)), fun r hr => ?_, fun p hp => ?_⟩
  · show (if _ then none else some _) = _
    rw [if_neg, hsum, hdst, widths_eq, List.map_map, List.map_map]
    · rfl
    · rw [List.any_eq_true]
      rintro ⟨v, hv, hne⟩
      refine of_decide_eq_true hne (tile_packs es ?_)
      rcases List.mem_append.mp hv with hv | hv
      · rw [widths_eq] at hv
        obtain ⟨r, -, rfl⟩ := List.mem_map.mp hv
        exact Nat.dvd_sub (edge_dvd _) (edge_dvd _)
      · rw [hdst] at hv
        obtain ⟨r, -, rfl⟩ := List.mem_map.mp hv
        exact edge_dvd r
  · rw [getD_map_range _ 0 hr, getD_map_range _ 0 hr, packEdge_succ, ← hlast]
    exact packEdge_mono es hr
  · obtain ⟨r, ⟨hr, hlo, hhi⟩, huniq⟩ :=
      existsUnique_cut (packEdge_mono es) hzero (hp.trans_eq hlast.symm)
    refine ⟨r, ⟨hr, ?_, ?_⟩, fun r' ⟨hr', hlo', hhi'⟩ => huniq r' ⟨hr', ?_, ?_⟩⟩
    · rwa [getD_map_range _ 0 hr]
    · rwa [getD_map_range _ 0 hr, getD_map_range _ 0 hr, packEdge_succ]
    · rwa [getD_map_range _ 0 hr'] at hlo'
    · rwa [getD_map_range _ 0 hr', getD_map_range _ 0 hr', packEdge_succ] at hhi'

end layout

/-- **The replicated-linear split.** Windows fit, ranges and packs partition the columns, and
whatever states the ranks agree on, each of the three gathers returns on every rank the
output of the whole layer. -/
theorem split_exact [Zero β] (linear : Linear α β X) (layer : Layer α) {world : ℕ}
    (htiles : linear.OwnTiles (scaleParams layer)) (hn : TILE ∣ layer.n) (hworld : 0 < world)
    (hle : world ≤ layer.n / TILE) :
    WindowsFit layer.n world ∧ RangesPartition layer.n world ∧
    (∀ es, PacksPartition layer.n world es) ∧
    ∀ (equal : RowMatrix β → RowMatrix β → Bool) (WINDOW : Bool) (inputs : ℕ → List X)
      (sts : ℕ → State α),
      (∀ r < world, build ((List.range world).map fun r =>
        ReplicatedSplit.decide linear equal WINDOW layer r world (inputs r)) r = some (sts r)) →
      ∀ (x : X), ∀ rank < world,
        let parts := fun r => padded (linear.forward (sts r).proxy x) (sts r).width
        gatherLast ((List.range world).map parts) (sts rank) = some (linear.forward layer x) ∧
        gatherFirst ((List.range world).map parts) (parts rank) (sts rank) =
          some (linear.forward layer x) ∧
        ∀ (es : ElementSize) (maxGatherBytes : ℕ) (locals : ℕ → Strided β),
          (∀ r < world, (locals r).toMatrix = linear.forward (sts r).proxy x) →
          shouldAllGatherColumns world maxGatherBytes es (linear.height x)
            (compactLayout (sts rank).ranges).1 = true →
          ∃ launches colPacks,
            (∀ r < world, roceLaunch world maxGatherBytes es r (locals r) (sts r) =
              some (launches r)) ∧
            columnPacks world (compactLayout (sts rank).ranges).1 es = some colPacks ∧
            ∀ run : Run es launches colPacks rank, run.gathered = linear.forward layer x := by
  refine ⟨windowsFit hn hworld, rangesPartition hn hworld hle, fun es => packsPartition hn hworld es,
    fun equal WINDOW inputs sts hbuild x rank hrank => ?_⟩
  obtain ⟨win, hsts⟩ := build_eq_stateOf hbuild
  have hshards := shards htiles hn hworld win x
  have hcols : ∀ r < world, (linear.forward (stateOf win layer world r).proxy x).cols =
      proxyStop win layer.n world r - proxyStart win layer.n world r := fun r hr => by
    rw [forward_stateOf htiles hn hworld win hr x, cols_slice ((proxyStart_spec win hn hworld
      hr).2.2.2.2.1.trans_eq (linear.cols_forward layer x).symm)]
  have hnarrow : ∀ r < world, (linear.forward (stateOf win layer world r).proxy x).cols ≤
      rangesWidth layer.n world := fun r hr => by
    rw [hcols r hr]
    exact (proxyStart_spec win hn hworld hr).2.2.2.2.2
  have hpadded := shards_padded hshards hnarrow
  have hparts : ∀ r < world, padded (linear.forward (sts r).proxy x) (sts r).width =
      padded (linear.forward (stateOf win layer world r).proxy x) (rangesWidth layer.n world) :=
    fun r hr => by rw [hsts r hr]; rfl
  intro parts
  have hmap : (List.range world).map parts = (List.range world).map fun r =>
      padded (linear.forward (stateOf win layer world r).proxy x) (rangesWidth layer.n world) :=
    List.map_congr_left fun r hr => hparts r (List.mem_range.mp hr)
  rw [hmap, show parts rank = _ from hparts rank hrank, hsts rank hrank]
  refine ⟨gatherLast_eq hpadded hworld (fun r hr => cols_padded (hnarrow r hr)) rank,
    gatherFirst_eq hpadded hworld (fun r hr => cols_padded (hnarrow r hr)) hrank,
    fun es maxGatherBytes locals hlocals hgathers => ?_⟩
  have hgathers' : shouldAllGatherColumns world maxGatherBytes es (linear.forward layer x).height
      (compactLayout (ranges layer.n world)).1 = true := by
    rw [linear.height_forward]
    exact hgathers
  obtain ⟨launches, colPacks, hlaunches, hpacks, hrun⟩ := gatherColumns_eq hshards hn hworld hle
    (fun r hr => (hlocals r hr).trans (by rw [hsts r hr]))
    (fun r hr => by
      rw [hcols r hr]
      exact Nat.dvd_sub (proxyStart_spec win hn hworld hr).2.1 (proxyStart_spec win hn hworld hr).1)
    hrank hgathers'
  exact ⟨launches, colPacks, fun r hr => by rw [hsts r hr]; exact hlaunches r hr, hpacks, hrun⟩

/-- The dense layer: an input row against every row of the weight. -/
def dense : Linear ℤ ℤ (List (List ℤ)) where
  forward layer x := ofFn x.length layer.n
    (fun i => layer.weight.map fun w => (List.zipWith (· * ·) (x.getD i []) w).sum)
    fun _ => List.length_map _
  height x := x.length
  height_forward _ _ := height_ofFn
  cols_forward _ _ := rfl

theorem dense_ownTiles (kinds : List (String × Kind)) : dense.OwnTiles kinds := by
  intro layer layer' x t t' ht ht' htile
  have hweight : cut (t * TILE) ((t + 1) * TILE) layer.weight =
      cut (t' * TILE) ((t' + 1) * TILE) layer'.weight := congrArg Layer.weight htile
  refine ext_row ?_ ?_ fun i hi => ?_
  · rw [cols_slice ht, cols_slice ht', Nat.succ_mul, Nat.succ_mul, Nat.add_sub_cancel_left,
      Nat.add_sub_cancel_left]
  · rw [height_slice, height_slice, dense.height_forward, dense.height_forward]
  · rw [height_slice, dense.height_forward] at hi
    have hrow (l : Layer ℤ) : (dense.forward l x).row i =
        l.weight.map fun w => (List.zipWith (· * ·) (x.getD i []) w).sum :=
      row_ofFn (h := fun _ => List.length_map _) hi
    rw [row_slice, row_slice, hrow, hrow, ← List.map_drop, ← List.map_take, ← List.map_drop,
      ← List.map_take]
    exact congrArg (List.map _) hweight

/-- A layer of three tiles. -/
def threeTiles : Layer ℤ where
  weight := (List.range 384).map fun i => [Int.ofNat i]
  k := 1
  fp8 := true
  parameters := []
  outputSize := some 384
  outputSizePerPartition := none

theorem threeTiles_n : threeTiles.n = 384 := by
  show ((List.range 384).map _).length = 384
  rw [List.length_map, List.length_range]

/-- Two ranks share three tiles: the window of the second one starts in the first one's range. -/
theorem split_exact_three_tiles :
    gatherLast ((List.range 2).map fun r => padded
      (dense.forward (stateOf true threeTiles 2 r).proxy [[1], [2]])
      (stateOf true threeTiles 2 r).width)
      (stateOf true threeTiles 2 1) = some (dense.forward threeTiles [[1], [2]]) :=
  have hn : TILE ∣ threeTiles.n := by
    rw [threeTiles_n]
    decide
  have hle : 2 ≤ threeTiles.n / TILE := by
    rw [threeTiles_n]
    decide
  ((split_exact dense threeTiles (dense_ownTiles _) hn (by decide) hle).2.2.2
    (fun a b => a.rows == b.rows) true (fun _ => [[[1], [2]]]) (stateOf true threeTiles 2)
    (fun _ hr => build_eq (dense_ownTiles _) hn (by decide) hle rfl
      (fun a => beq_self_eq_true a.rows) hr) [[1], [2]] 1 (by decide)).1

end ReplicatedSplit
