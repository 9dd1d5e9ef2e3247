import SparkTP4.LiveLength
import Mathlib.Data.List.Range
import Mathlib.Data.Option.NAry

/-!
# The three updates of the live length agree

A value first: on five positions the kernel's products are the ones of torch's
`cumprod`, whichever of its two associations the number of rows selects, and
its run length is the sum of torch's products of hits, so a lane computes what
torch computes for its row (`kernelRow_eq`). Up to the capacity of the live
buffer the kernel therefore writes what torch's operations write
(`launchVcapk_eq`).

Then the runs. The invariant `Inv` ties the mark of a proposal to the graph it
was replayed from: if the batch is as large as the graph and the graph holds
the update, the live buffer already has the rows of the confidence that was
handed on. The size and variant a verify looks up in `_vcap["captured"]` are
the ones of that graph (`skips_spec`), so a skipped verify starts with the rows
the stock update would have written (`run_agree`).
-/

namespace LiveLength

variable {F : Type} {fp : Fp32 F} {cfg : Config F}

/-! ## A row -/

/-- The tree over five elements. -/
theorem sklansky_five (op : F → F → F) (x0 x1 x2 x3 x4 d : F) :
    sklansky op [x0, x1, x2, x3, x4] d =
      [x0, op x1 x0, op x2 (op x1 x0), op (op x3 x2) (op x1 x0),
        op x4 (op (op x3 x2) (op x1 x0))] := by
  simp [sklansky, sklanskyPass, List.range_succ]

/-- **The kernel's products are torch's**, in the association of either scan. -/
theorem cumprod_five (rows : ℕ) (x : ℕ → F) :
    fp.cumprod rows [x 0, x 1, x 2, x 3, x 4] =
      kernelProducts fp (if rows = 1 then 0 else 1) x := by
  unfold Fp32.cumprod kernelProducts
  by_cases h : rows = 1
  · simp [h, scan, fp.mul_comm (x 4)]
  · simp only [if_neg h, sklansky_five, fp.mul_comm (x 1) (x 0), fp.mul_comm (x 3) (x 2),
      Nat.one_ne_zero, if_false]

theorem length_padThr (t : F) (ts : List F) (n : ℕ) : (padThr t ts n).length = n := by
  unfold padThr
  rw [List.length_take, List.length_append, List.length_replicate]
  omega

/-- A list of five is the list of its five elements. -/
theorem eq_five {α : Type} {l : List α} (h : l.length = 5) (d : α) :
    l = [l.getD 0 d, l.getD 1 d, l.getD 2 d, l.getD 3 d, l.getD 4 d] := by
  match l, h with
  | [_, _, _, _, _], _ => rfl

/-- The hits of five products, at the kernel's thresholds. -/
theorem hits_five (thr : Threshold F) (c0 c1 c2 c3 c4 : F) :
    hits fp thr [c0, c1, c2, c3, c4] =
      [(fp.ge c0 (thrAt fp thr 0)).toInt, (fp.ge c1 (thrAt fp thr 1)).toInt,
        (fp.ge c2 (thrAt fp thr 2)).toInt, (fp.ge c3 (thrAt fp thr 3)).toInt,
        (fp.ge c4 (thrAt fp thr 4)).toInt] := by
  cases thr with
  | scalar t => rfl
  | list t ts =>
    show List.zipWith (fun x t => (fp.ge x t).toInt) [c0, c1, c2, c3, c4] (padThr t ts 5) = _
    rw [eq_five (length_padThr t ts 5) fp.zero]
    rfl

/-- The kernel's count is the sum of the products of hits. -/
theorem kernelCount_five (thr : Threshold F) (c0 c1 c2 c3 c4 : F) :
    kernelCount fp thr [c0, c1, c2, c3, c4] =
      (scan (· * ·) (hits fp thr [c0, c1, c2, c3, c4])).sum := by
  rw [hits_five]
  simp [kernelCount, scan, add_assoc]

/-- **A lane of the kernel computes torch's live length of its row.** -/
theorem kernelRow_eq {c : Confidence F} (hcols : c.cols = 5) (hstride : c.colStride = 1) (r : ℕ) :
    kernelRow fp cfg (if c.rows = 1 then 0 else 1) c r = liveOf fp cfg c.rows (c.row r) := by
  obtain ⟨x, hx⟩ : ∃ x : ℕ → F, x = fun i => fp.clamp01 (c.data (r * c.rowStride + i)) := ⟨_, rfl⟩
  have hrow : (c.row r).map (fun y => fp.clamp y fp.zero fp.one) = [x 0, x 1, x 2, x 3, x 4] := by
    unfold Confidence.row Confidence.elem
    rw [hcols, hstride, hx]
    rfl
  unfold kernelRow liveOf
  rw [← hx, hrow, cumprod_five]
  simp only [kernelProducts, kernelCount_five]

/-! ## The rows written -/

/-- The lanes below a bound, masked by it, are the rows below it. -/
theorem filterMap_masked {α : Type} {n m : ℕ} (h : n ≤ m) (f : ℕ → α) :
    (List.range m).filterMap (fun r => if r < n then some (f r) else none) =
      (List.range n).map f := by
  obtain ⟨k, rfl⟩ := Nat.exists_eq_add_of_le h
  have hlow : (List.range n).filterMap (fun r => if r < n then some (f r) else none) =
      (List.range n).map f := by
    rw [← List.filterMap_eq_map]
    refine List.filterMap_congr fun r hr => ?_
    rw [if_pos (List.mem_range.mp hr)]
    rfl
  have hhigh : ((List.range k).map (n + ·)).filterMap
      (fun r => if r < n then some (f r) else none) = [] := by
    rw [List.filterMap_eq_nil_iff]
    intro r hr
    obtain ⟨j, -, rfl⟩ := List.mem_map.mp hr
    exact if_neg (Nat.not_lt.mpr (Nat.le_add_right n j))
  rw [List.range_add, List.filterMap_append, hlow, hhigh, List.append_nil]

/-- The kernel stores one value for each row of the batch. -/
theorem launchVcapk_eq_map (c : Confidence F) (bs : ℕ) : launchVcapk fp cfg c bs =
    (List.range bs).map fun r => (r, kernelRow fp cfg (if bs = 1 then 0 else 1) c r) :=
  filterMap_masked ((Nat.le_pow_clog Nat.one_lt_two bs).trans (Nat.le_max_right _ _)) _

/-- The rows of a copy of as many values as the batch has rows. -/
theorem copyRows_map {bs : ℕ} (h : bs ≤ maxBs) (f : ℕ → ℤ) :
    copyRows bs ((List.range bs).map f) = some ((List.range bs).map fun r => (r, f r)) := by
  unfold copyRows
  rw [List.length_map, List.length_range, if_pos (Nat.min_eq_left h).symm, List.zip_map_right]
  congr 1
  rw [List.zip_eq_zipWith, List.zipWith_self]
  simp

/-- **The kernel writes what torch's operations write**, where the buffer has the rows. -/
theorem launchVcapk_eq {c : Confidence F} (hcols : c.cols = 5) (hstride : c.colStride = 1)
    (h : c.rows ≤ maxBs) :
    setLiveFromConfidence fp cfg c c.rows = some (launchVcapk fp cfg c c.rows) := by
  rw [launchVcapk_eq_map, setLiveFromConfidence, copyRows_map h]
  simp only [kernelRow_eq hcols hstride]

/-- The kernel writes inside the buffer exactly for a batch the buffer has rows for. -/
theorem launchVcapk_within (c : Confidence F) (bs : ℕ) :
    (∀ w ∈ launchVcapk fp cfg c bs, w.1 < maxBs) ↔ bs ≤ maxBs := by
  rw [launchVcapk_eq_map]
  simp only [List.mem_map, List.mem_range, forall_exists_index, and_imp,
    forall_apply_eq_imp_iff₂]
  refine ⟨fun h => ?_, fun h r hr => hr.trans_le h⟩
  by_contra hlt
  exact Nat.lt_irrefl _ (h maxBs (Nat.not_le.mp hlt))

/-! ## The memory -/

theorem store_cons (w : ℕ × ℤ) (ws : List (ℕ × ℤ)) (m : ℕ → ℤ) :
    store (w :: ws) m = store ws (Function.update m w.1 w.2) := rfl

/-- A cell that is not written keeps its value. -/
theorem store_of_not_mem {ws : List (ℕ × ℤ)} {r : ℕ} (h : r ∉ ws.map Prod.fst) (m : ℕ → ℤ) :
    store ws m r = m r := by
  induction ws generalizing m with
  | nil => rfl
  | cons w ws ih =>
    rw [List.map_cons, List.mem_cons, not_or] at h
    rw [store_cons, ih h.2, Function.update_of_ne h.1]

/-- A cell that is written does not depend on the memory before. -/
theorem store_of_mem {ws : List (ℕ × ℤ)} {r : ℕ} (h : r ∈ ws.map Prod.fst) (m m' : ℕ → ℤ) :
    store ws m r = store ws m' r := by
  induction ws generalizing m m' with
  | nil => cases h
  | cons w ws ih =>
    rw [store_cons, store_cons]
    by_cases hr : r ∈ ws.map Prod.fst
    · exact ih hr _ _
    · rw [List.map_cons, List.mem_cons, or_iff_left hr] at h
      rw [store_of_not_mem hr, store_of_not_mem hr, h, Function.update_self, Function.update_self]

/-- Storing the same again changes nothing. -/
theorem store_store (ws : List (ℕ × ℤ)) (m : ℕ → ℤ) : store ws (store ws m) = store ws m := by
  funext r
  by_cases h : r ∈ ws.map Prod.fst
  · exact store_of_mem h _ _
  · rw [store_of_not_mem h]

/-! ## Sizes -/

/-- The graph of a batch: the smallest captured size that holds it. -/
theorem graphSize_spec {bs size : ℕ} (h : graphSize cfg bs = some size) :
    size ∈ cfg.sizes ∧ bs ≤ size ∧ ∀ b ∈ cfg.sizes, bs ≤ b → size ≤ b := by
  obtain ⟨hmem, hle⟩ := List.min?_eq_some_iff.mp h
  obtain ⟨hsize, hbs⟩ := List.mem_filter.mp hmem
  exact ⟨hsize, of_decide_eq_true hbs, fun b hb hbs =>
    hle b (List.mem_filter.mpr ⟨hb, decide_eq_true hbs⟩)⟩

theorem mem_consecutive {prev b : ℕ} {l : List ℕ} (h : b ∈ consecutive prev l) :
    b ∈ l ∧ (b = prev + 1 ∨ ∃ a ∈ l, b = a + 1) := by
  induction l generalizing prev with
  | nil => cases h
  | cons x rest ih =>
    have hrest (hb : b ∈ consecutive x rest) :
        b ∈ x :: rest ∧ (b = prev + 1 ∨ ∃ a ∈ x :: rest, b = a + 1) := by
      obtain ⟨hmem, rfl | ⟨a, ha, rfl⟩⟩ := ih hb
      · exact ⟨List.mem_cons_of_mem x hmem, .inr ⟨x, List.mem_cons_self, rfl⟩⟩
      · exact ⟨List.mem_cons_of_mem x hmem, .inr ⟨a, List.mem_cons_of_mem x ha, rfl⟩⟩
    unfold consecutive at h
    split at h
    · next hx =>
      obtain rfl | hb := List.mem_cons.mp h
      · exact ⟨List.mem_cons_self, .inl hx.symm⟩
      · exact hrest hb
    · exact hrest h

/-- An eligible size is captured, and it is the smallest or follows another captured size. -/
theorem mem_eligibleSizes {size : ℕ} (h : size ∈ eligibleSizes cfg) :
    size ∈ cfg.sizes ∧ ((∀ b ∈ cfg.sizes, size ≤ b) ∨ ∃ a ∈ cfg.sizes, size = a + 1) := by
  have hmem (b : ℕ) : b ∈ cfg.sizes.dedup.insertionSort (· ≤ ·) ↔ b ∈ cfg.sizes := by
    rw [List.mem_insertionSort, List.mem_dedup]
  have hsorted := List.pairwise_insertionSort (· ≤ ·) cfg.sizes.dedup
  unfold eligibleSizes at h
  generalize cfg.sizes.dedup.insertionSort (· ≤ ·) = l at h hmem hsorted
  cases l with
  | nil => cases h
  | cons x rest =>
    obtain rfl | hb := List.mem_cons.mp h
    · refine ⟨(hmem size).mp List.mem_cons_self, .inl fun b hb => ?_⟩
      obtain rfl | hb := List.mem_cons.mp ((hmem b).mpr hb)
      · exact Nat.le_refl b
      · exact (List.pairwise_cons.mp hsorted).1 b hb
    · obtain ⟨hsize, rfl | ⟨a, ha, rfl⟩⟩ := mem_consecutive hb
      · exact ⟨(hmem _).mp (List.mem_cons_of_mem x hsize),
          .inr ⟨x, (hmem x).mp List.mem_cons_self, rfl⟩⟩
      · exact ⟨(hmem _).mp (List.mem_cons_of_mem x hsize),
          .inr ⟨a, (hmem a).mp (List.mem_cons_of_mem x ha), rfl⟩⟩

/-- **No batch is padded into an eligible size but the smallest.** -/
theorem eligible_unpadded {bs size : ℕ} (h : size ∈ eligibleSizes cfg)
    (hgraph : graphSize cfg bs = some size) : size = bs ∨ ∀ b ∈ cfg.sizes, size ≤ b := by
  obtain ⟨-, hsmall | ⟨a, ha, rfl⟩⟩ := mem_eligibleSizes h
  · exact .inr hsmall
  · obtain ⟨-, hbs, hleast⟩ := graphSize_spec hgraph
    refine .inl (Nat.le_antisymm ?_ hbs)
    by_contra hlt
    exact absurd (hleast a ha (by omega)) (Nat.not_succ_le_self a)

/-! ## The invariant -/

/-- The live buffer has the rows the stock update computes from a confidence. -/
def Current (fp : Fp32 F) (cfg : Config F) (live : ℕ → ℤ) (c : Confidence F) (bs : ℕ) : Prop :=
  ∃ ws, setLiveFromConfidence fp cfg c bs = some ws ∧ ∀ r < bs, live r = store ws live r

/-- What a captured graph holds is decided by the configuration. -/
def Holds (cfg : Config F) (v size : ℕ) : Recorded → Prop
  | .nothing => cfg.samplerUpdates v size = false
  | .torch _ => cfg.samplerUpdates v size = true
  | .fused tensor => cfg.samplerUpdates v size = true ∧ tensor.rows = size ∧ tensor.cols = 5 ∧
      tensor.colStride = 1 ∧ size ≤ maxBs

/-- What holds in every state of a run, whatever its mark. -/
structure Base (fp : Fp32 F) (cfg : Config F) (s : State F) : Prop where
  agree : Agree fp cfg s
  /-- Without an A/B there is one variant. -/
  variant : cfg.active = false → s.variant = 0
  /-- A graph belongs to variant 0 or is captured for each variant. -/
  graphs : ∀ v size rec, s.graphs v size = some rec →
    (v = 0 ∨ cfg.active = true ∧ cfg.perVariant size = true) ∧ Holds cfg v size rec
  /-- A registered size is captured, with the update in it. -/
  captured : ∀ tag size, (tag, size) ∈ s.captured → size ∈ cfg.sizes ∧ ∃ v, tag = cfg.tag v ∧
    cfg.samplerUpdates v size = true ∧ (s.graphs v size).isSome = true

/-- A batch as large as its graph has its rows in the buffer, if the graph of the variant
holds the update. -/
def Replayed (fp : Fp32 F) (cfg : Config F) (s : State F) (v : ℕ) (c : Confidence F)
    (bs : ℕ) : Prop :=
  ∃ size, graphSize cfg bs = some size ∧ (size = bs →
    cfg.samplerUpdates (s.replayed v size) size = true → Current fp cfg s.live c bs)

/-- What holds in every state of a run. -/
structure Inv (fp : Fp32 F) (cfg : Config F) (s : State F) : Prop extends Base fp cfg s where
  /-- A mark is one of a replay. -/
  mark : ∀ bs, s.step = some (true, some bs) → ∃ v c, s.own = some (v, c) ∧
    Replayed fp cfg s v c bs

/-- A step that leaves the graphs and the variant alone keeps what does not depend on the
mark. -/
theorem Base.of_eq {s t : State F} (h : Base fp cfg s) (hagree : Agree fp cfg t)
    (hvariant : t.variant = s.variant) (hgraphs : t.graphs = s.graphs)
    (hcaptured : t.captured = s.captured) : Base fp cfg t :=
  ⟨hagree, hvariant ▸ h.variant, hgraphs ▸ h.graphs, hgraphs ▸ hcaptured ▸ h.captured⟩

/-- Without the mark of a replay there is nothing else to keep. -/
theorem Base.unmarked {s : State F} (h : Base fp cfg s)
    (hstep : ∀ bs, s.step ≠ some (true, some bs)) : Inv fp cfg s :=
  ⟨h, fun bs hbs => absurd hbs (hstep bs)⟩

theorem accepts_spec {s : State F} {v bs : ℕ} {c : Confidence F}
    (h : s.accepts cfg v c bs = true) : c.cols = 5 ∧ c.colStride = 1 ∧ c.rows = bs := by
  unfold State.accepts at h
  simp only [Bool.and_eq_true, beq_iff_eq] at h
  exact ⟨h.1.1.1.1.1.2, h.1.1.1.1.2, h.1.1.2⟩

/-! ## Updates -/

/-- An update that may run. -/
def UpdateOk (fp : Fp32 F) (cfg : Config F) (u : Update F) : Prop :=
  (u.graph = true → ∃ ws, setLiveFromConfidence fp cfg (u.confidence.first u.bs) u.bs = some ws ∧
    ∀ w ∈ u.writes, w.1 ∈ ws.map Prod.fst) ∧
  (u.fused = true → (∀ w ∈ u.writes, w.1 < maxBs) ∧
    setLiveFromConfidence fp cfg u.confidence u.confidence.rows = some u.writes)

theorem Agree.of_eq {s t : State F} (h : Agree fp cfg s) (hupdates : t.updates = s.updates)
    (hverifies : t.verifies = s.verifies) : Agree fp cfg t :=
  ⟨hverifies ▸ h.verified, hupdates ▸ h.rows, hupdates ▸ h.fused⟩

theorem Agree.cons {s t : State F} {u : Update F} (h : Agree fp cfg s) (hu : UpdateOk fp cfg u)
    (hupdates : t.updates = u :: s.updates) (hverifies : t.verifies = s.verifies) :
    Agree fp cfg t := by
  refine ⟨hverifies ▸ h.verified, fun x hx => ?_, fun x hx => ?_⟩
  · obtain rfl | hx := List.mem_cons.mp (hupdates ▸ hx)
    · exact hu.1
    · exact h.rows x hx
  · obtain rfl | hx := List.mem_cons.mp (hupdates ▸ hx)
    · exact hu.2
    · exact h.fused x hx

/-- **An eager update**, by the kernel or by torch, writes what the stock update writes, and
nothing else of the state but the checks changes. -/
theorem liveUpdate_spec {s t : State F} {c : Confidence F} {bs : ℕ}
    (hfits : s.accepts cfg s.variant c bs = true → bs ≤ maxBs)
    (h : s.liveUpdate fp cfg c bs = some t) : ∃ u checks off,
      t = { s.apply u with checks := checks, off := off } ∧ UpdateOk fp cfg u ∧
        setLiveFromConfidence fp cfg c bs = some u.writes := by
  unfold State.liveUpdate at h
  split at h
  · next haccepts =>
    obtain ⟨hcols, hstride, rfl⟩ := accepts_spec haccepts
    split at h
    · obtain ⟨ws, hws, rfl⟩ := Option.map_eq_some_iff.mp h
      exact ⟨_, _, _, rfl, ⟨nofun, nofun⟩, hws⟩
    · obtain rfl := Option.some.inj h
      have heq : setLiveFromConfidence fp cfg c c.rows = _ :=
        launchVcapk_eq hcols hstride (hfits haccepts)
      exact ⟨_, s.checks, s.off, rfl,
        ⟨nofun, fun _ => ⟨(launchVcapk_within c c.rows).mpr (hfits haccepts), heq⟩⟩, heq⟩
  · obtain ⟨ws, hws, rfl⟩ := Option.map_eq_some_iff.mp h
    exact ⟨_, s.checks, s.off, rfl, ⟨nofun, nofun⟩, hws⟩

/-- The eager call of the sampler. -/
theorem Base.samplerCall {s t : State F} {out : Confidence F} {bs : ℕ} (h : Base fp cfg s)
    (hfits : cfg.samplerUpdates s.variant bs = true →
      s.accepts cfg s.variant (out.first bs) bs = true → bs ≤ maxBs)
    (hs : s.samplerCall fp cfg out bs = some t) :
    Base fp cfg t ∧ t.step = s.step ∧ t.graphs = s.graphs := by
  unfold State.samplerCall at hs
  split at hs
  · next hupdates =>
    obtain ⟨u, checks, off, rfl, hu, -⟩ := liveUpdate_spec (hfits hupdates) hs
    exact ⟨h.of_eq (h.agree.cons hu rfl rfl) rfl rfl rfl, rfl, rfl⟩
  · obtain rfl := Option.some.inj hs
    exact ⟨h, rfl, rfl⟩

/-! ## Graphs -/

theorem first_first (c : Confidence F) (bs : ℕ) : (c.first bs).first bs = c.first bs := by
  unfold Confidence.first
  dsimp only
  rw [← Nat.min_assoc, Nat.min_self]

/-- What is recorded while a graph is captured. -/
theorem records_spec {s : State F} {v size : ℕ} {out : Confidence F} {rec : Recorded}
    (hfits : cfg.samplerUpdates v size = true →
      s.accepts cfg v (out.first size) size = true → size ≤ maxBs)
    (h : s.records fp cfg v out size = some rec) : Holds cfg v size rec := by
  unfold State.records at h
  split at h
  · next hupdates =>
    split at h
    · next haccepts =>
      obtain rfl := Option.some.inj h
      obtain ⟨hcols, hstride, hrows⟩ := accepts_spec haccepts
      exact ⟨hupdates, hrows, hcols, hstride, hfits hupdates haccepts⟩
    · obtain ⟨-, -, rfl⟩ := Option.map_eq_some_iff.mp h
      exact hupdates
  · next hupdates =>
    obtain rfl := Option.some.inj h
    exact Bool.eq_false_iff.mpr hupdates

/-- The graphs after a capture. -/
theorem Base.capture {s t : State F} {v size : ℕ} {out : Confidence F} (h : Base fp cfg s)
    (hsize : size ∈ cfg.sizes) (hv : v = 0 ∨ cfg.active = true ∧ cfg.perVariant size = true)
    (hfits : cfg.samplerUpdates v size = true →
      s.accepts cfg v (out.first size) size = true → size ≤ maxBs)
    (hs : s.capture fp cfg v out size = some t) : Base fp cfg t ∧ t.step = s.step := by
  obtain ⟨rec, hrec, rfl⟩ := Option.map_eq_some_iff.mp hs
  have hholds := records_spec hfits hrec
  have hgraph (w n : ℕ) : Function.update s.graphs v (Function.update (s.graphs v) size (some rec))
      w n = if w = v ∧ n = size then some rec else s.graphs w n := by
    by_cases hw : w = v
    · subst hw
      rw [Function.update_self]
      by_cases hn : n = size
      · subst hn
        rw [Function.update_self, if_pos ⟨rfl, rfl⟩]
      · rw [Function.update_of_ne hn, if_neg fun h => hn h.2]
    · rw [Function.update_of_ne hw, if_neg fun h => hw h.1]
  refine ⟨⟨h.agree.of_eq rfl rfl, h.variant, fun w n r hr => ?_, fun tag n hmem => ?_⟩, rfl⟩
  · dsimp only at hr
    rw [hgraph] at hr
    split at hr
    · next heq =>
      obtain ⟨rfl, rfl⟩ := heq
      obtain rfl := Option.some.inj hr
      exact ⟨hv, hholds⟩
    · exact h.graphs w n r hr
  · have hold (hmem : (tag, n) ∈ s.captured) : n ∈ cfg.sizes ∧ ∃ w, tag = cfg.tag w ∧
        cfg.samplerUpdates w n = true ∧ ((Function.update s.graphs v
          (Function.update (s.graphs v) size (some rec))) w n).isSome = true := by
      obtain ⟨hn, w, hw, hupdates, hsome⟩ := h.captured tag n hmem
      refine ⟨hn, w, hw, hupdates, ?_⟩
      rw [hgraph]
      split
      · rfl
      · exact hsome
    dsimp only at hmem ⊢
    split at hmem
    · exact hold hmem
    · next hne =>
      obtain heq | hmem := List.mem_cons.mp hmem
      · obtain ⟨rfl, rfl⟩ := Prod.mk.inj heq
        refine ⟨hsize, v, rfl, ?_, ?_⟩
        · cases rec with
          | nothing => exact absurd rfl hne
          | torch => exact hholds
          | fused => exact hholds.1
        · rw [hgraph, if_pos ⟨rfl, rfl⟩]
          rfl
      · exact hold hmem

/-- **A replay** of a graph with the update leaves the rows of its confidence in the buffer. -/
theorem replay_spec {s t : State F} {out : Confidence F} {bs size : ℕ} (h : Base fp cfg s)
    (hfits : cfg.samplerUpdates (s.replayed s.variant size) size = true → size = bs)
    (hs : s.replay fp cfg out bs size = some t) : Agree fp cfg t ∧ t.variant = s.variant ∧
      t.graphs = s.graphs ∧ t.captured = s.captured ∧
        (size = bs → cfg.samplerUpdates (s.replayed s.variant size) size = true →
          Current fp cfg t.live (out.first bs) bs) := by
  have hrun (fused : Bool) {ws : List (ℕ × ℤ)} (hsize : size = bs)
      (hws : setLiveFromConfidence fp cfg (out.first size) size = some ws)
      (hfused : fused = true → (∀ w ∈ ws, w.1 < maxBs) ∧
        setLiveFromConfidence fp cfg (out.first size) (out.first size).rows = some ws) :
      Agree fp cfg (s.apply ⟨fused, true, bs, out.first size, ws⟩) ∧
        Current fp cfg (store ws s.live) (out.first bs) bs := by
    subst hsize
    refine ⟨h.agree.cons ⟨fun _ => ⟨ws, ?_, fun w hw => List.mem_map_of_mem hw⟩, hfused⟩ rfl rfl,
      ws, hws, fun r _ => by rw [store_store]⟩
    dsimp only
    rw [first_first]
    exact hws
  unfold State.replay at hs
  split at hs
  · cases hs
  · next hgraph =>
    obtain rfl := Option.some.inj hs
    have hnothing : cfg.samplerUpdates (s.replayed s.variant size) size = false :=
      (h.graphs _ _ _ hgraph).2
    exact ⟨h.agree, rfl, rfl, rfl, fun _ hupdates => by rw [hnothing] at hupdates; cases hupdates⟩
  · next hgraph =>
    obtain ⟨-, hs⟩ := Option.ite_none_right_eq_some.mp hs
    obtain ⟨ws, hws, rfl⟩ := Option.map_eq_some_iff.mp hs
    obtain ⟨hagree, hcurrent⟩ := hrun false (hfits (h.graphs _ _ _ hgraph).2) hws nofun
    exact ⟨hagree, rfl, rfl, rfl, fun _ _ => hcurrent⟩
  · next hgraph =>
    obtain ⟨hlayout, hs⟩ := Option.ite_none_right_eq_some.mp hs
    obtain rfl := Option.some.inj hs
    obtain ⟨hupdates, hrows, hcols, hstride, hle⟩ := (h.graphs _ _ _ hgraph).2
    rw [← hlayout] at hrows hcols hstride
    have hws : setLiveFromConfidence fp cfg (out.first size) (out.first size).rows = _ :=
      launchVcapk_eq hcols hstride (hrows.trans_le hle)
    rw [hrows] at hws
    obtain ⟨hagree, hcurrent⟩ := hrun true (hfits hupdates) hws fun _ =>
      ⟨(launchVcapk_within _ _).mpr hle, by rw [hrows]; exact hws⟩
    exact ⟨hagree, rfl, rfl, rfl, fun _ _ => hcurrent⟩

/-- The draft of a proposal. -/
theorem draft_spec {s t : State F} {p : Proposal F} (h : Base fp cfg s)
    (hfits : Fits cfg s (.propose p)) (hs : s.draft fp cfg p = some t) :
    Base fp cfg t ∧ t.graphs = s.graphs ∧
      (p.draft = .replay → Replayed fp cfg t s.variant (p.out.first p.bs) p.bs) := by
  unfold State.draft at hs
  unfold Fits at hfits
  split at hs
  · next hdraft =>
    simp only [hdraft] at hfits
    obtain ⟨size, hsize, hs⟩ := Option.bind_eq_some_iff.mp hs
    obtain ⟨hagree, hvariant, hgraphs, hcaptured, hcurrent⟩ :=
      replay_spec h (hfits size hsize) hs
    refine ⟨h.of_eq hagree hvariant hgraphs hcaptured, hgraphs, fun _ => ⟨size, hsize, ?_⟩⟩
    unfold State.replayed
    rw [hgraphs]
    exact hcurrent
  · next hdraft =>
    simp only [hdraft] at hfits
    obtain ⟨hbase, -, hgraphs⟩ := h.samplerCall hfits hs
    exact ⟨hbase, hgraphs, fun hreplay => by rw [hdraft] at hreplay; cases hreplay⟩
  · next hdraft =>
    obtain rfl := Option.some.inj hs
    exact ⟨h, rfl, fun hreplay => by rw [hdraft] at hreplay; cases hreplay⟩

/-! ## A skipped verify -/

theorem graphSize_of_mem {bs size : ℕ} (h : graphSize cfg bs = some size) (hbs : bs ∈ cfg.sizes) :
    size = bs :=
  have ⟨_, hle, hleast⟩ := graphSize_spec h
  Nat.le_antisymm (hleast bs hbs (Nat.le_refl bs)) hle

theorem tag_inj {v w : ℕ} (hactive : cfg.active = true) (h : cfg.tag v = cfg.tag w) : v = w := by
  unfold Config.tag at h
  rw [if_pos hactive, if_pos hactive] at h
  exact Option.some.inj h

/-- **The registered graph of a batch is the one a replay takes**, and it holds the update. -/
theorem graphVariant_spec {s : State F} {bs : ℕ} (h : Base fp cfg s)
    (hmem : (s.graphVariant cfg bs, bs) ∈ s.captured) :
    bs ∈ cfg.sizes ∧ cfg.samplerUpdates (s.replayed s.variant bs) bs = true := by
  obtain ⟨hbs, v, htag, hupdates, hsome⟩ := h.captured _ _ hmem
  refine ⟨hbs, ?_⟩
  obtain ⟨rec, hrec⟩ := Option.isSome_iff_exists.mp hsome
  have hv : v = if cfg.perVariant bs = true then s.variant else 0 := by
    by_cases hactive : cfg.active = true
    · exact (tag_inj hactive htag).symm
    · obtain rfl | ⟨hactive', -⟩ := (h.graphs v bs rec hrec).1
      · rw [h.variant (Bool.eq_false_iff.mpr hactive), ite_self]
      · exact absurd hactive' hactive
  have hreplayed : s.replayed s.variant bs = v := by
    unfold State.replayed
    rw [hv]
    by_cases hper : cfg.perVariant bs = true
    · rw [if_pos hper] at hv ⊢
      rw [← hv, if_pos hsome]
    · rw [if_neg hper]
      split
      · next hgraph =>
        obtain ⟨rec', hrec'⟩ := Option.isSome_iff_exists.mp hgraph
        obtain hzero | ⟨-, hper'⟩ := (h.graphs _ _ rec' hrec').1
        · exact hzero
        · exact absurd hper' hper
      · rfl
  rw [hreplayed]
  exact hupdates

/-- **A verify is skipped only with its rows in the buffer.** -/
theorem Inv.skips {s : State F} {bs : ℕ} {c : Confidence F} (h : Inv fp cfg s)
    (hproper : Proper s (.verify bs (some c))) (hskip : s.skips cfg bs = true) :
    Current fp cfg s.live c bs := by
  unfold State.skips at hskip
  simp only [Bool.and_eq_true, decide_eq_true_eq] at hskip
  obtain ⟨⟨hstep, -⟩, hmem⟩ := hskip
  obtain ⟨v, c', hown, size, hsize, hcurrent⟩ := h.mark bs hstep
  obtain ⟨rfl, rfl⟩ := Prod.mk.inj (Option.some.inj ((hproper hstep).symm.trans hown))
  obtain ⟨hbs, hupdates⟩ := graphVariant_spec h.toBase hmem
  obtain rfl := graphSize_of_mem hsize hbs
  exact hcurrent rfl hupdates

/-! ## Runs -/

/-- A verify that starts with the rows of its confidence. -/
theorem Base.start {s : State F} {bs : ℕ} {c : Confidence F} {before : ℕ → ℤ}
    (h : Base fp cfg s) (hws : ∃ ws, setLiveFromConfidence fp cfg c bs = some ws ∧
      ∀ r < bs, s.live r = store ws before r) : Base fp cfg (s.start bs c before) := by
  refine h.of_eq ⟨fun w hw => ?_, h.agree.rows, h.agree.fused⟩ rfl rfl rfl
  obtain rfl | hw := List.mem_cons.mp hw
  · exact hws
  · exact h.agree.verified w hw

/-- The verify. -/
theorem Inv.verify {s t : State F} {bs : ℕ} {c : Option (Confidence F)} (h : Inv fp cfg s)
    (hproper : Proper s (.verify bs c)) (hfits : Fits cfg s (.verify bs c))
    (hs : s.verify fp cfg bs c = some t) : Inv fp cfg t := by
  have hbase : Base fp cfg { s with step := none } :=
    h.toBase.of_eq (h.agree.of_eq rfl rfl) rfl rfl rfl
  cases c with
  | none =>
    obtain rfl := Option.some.inj hs
    exact hbase.unmarked nofun
  | some c =>
    dsimp only [State.verify] at hs
    split at hs
    · next hskip =>
      obtain rfl := Option.some.inj hs
      exact (hbase.start (h.skips hproper hskip)).unmarked nofun
    · next hskip =>
      obtain ⟨t, ht, rfl⟩ := Option.map_eq_some_iff.mp hs
      have hfits' : ({ s with step := none } : State F).accepts cfg s.variant c bs = true →
          bs ≤ maxBs := hfits (Bool.eq_false_iff.mpr hskip)
      obtain ⟨u, checks, off, rfl, hu, hws⟩ := liveUpdate_spec hfits' ht
      have hbase' : Base fp cfg { ({ s with step := none } : State F).apply u with
          checks := checks, off := off } :=
        hbase.of_eq (hbase.agree.cons hu rfl rfl) rfl rfl rfl
      exact (hbase'.start ⟨u.writes, hws, fun _ _ => rfl⟩).unmarked nofun

/-- **One step keeps the invariant.** -/
theorem Inv.next {s t : State F} {e : Event F} (h : Inv fp cfg s) (hproper : Proper s e)
    (hfits : Fits cfg s e) (hs : s.next fp cfg e = some t) : Inv fp cfg t := by
  cases e with
  | useVariant v =>
    obtain ⟨hactive, hs⟩ := Option.ite_none_right_eq_some.mp hs
    obtain rfl := Option.some.inj hs
    exact ⟨⟨h.agree.of_eq rfl rfl, fun hoff => absurd hactive (Bool.eq_false_iff.mp hoff),
      h.graphs, h.captured⟩, h.mark⟩
  | capture v size out =>
    obtain ⟨⟨hsize, hv⟩, hs⟩ := Option.ite_none_right_eq_some.mp hs
    obtain ⟨hbase, hstep⟩ := h.toBase.capture hsize hv hfits hs
    have hnone : t.step = none := hstep.trans hproper
    exact hbase.unmarked fun bs => by rw [hnone]; nofun
  | warmUp bs out =>
    obtain ⟨hbase, hstep, -⟩ := h.toBase.samplerCall hfits hs
    have hnone : t.step = none := hstep.trans hproper
    exact hbase.unmarked fun bs => by rw [hnone]; nofun
  | propose p =>
    obtain ⟨t, ht, rfl⟩ := Option.map_eq_some_iff.mp hs
    obtain ⟨hbase, -, hreplayed⟩ := draft_spec h.toBase hfits ht
    refine ⟨hbase.of_eq (hbase.agree.of_eq rfl rfl) rfl rfl rfl, fun bs hbs => ?_⟩
    obtain ⟨hfolded, hkeyword⟩ := Prod.mk.inj (Option.some.inj hbs)
    obtain ⟨hreplay, hhanded⟩ := of_decide_eq_true hfolded
    obtain ⟨-, hbs⟩ := Option.ite_none_right_eq_some.mp hkeyword
    obtain rfl := Option.some.inj hbs
    exact ⟨s.variant, p.out.first p.bs, if_pos hhanded, hreplayed hreplay⟩
  | verify bs c => exact h.verify hproper hfits hs

/-- The invariant of a fresh process. -/
theorem Inv.init : Inv fp cfg (State.init F cfg) :=
  ⟨⟨⟨nofun, nofun, nofun⟩, fun _ => rfl, nofun, nofun⟩, nofun⟩

/-- The runs whose every step meets the condition. -/
abbrev Reachable (fp : Fp32 F) (cfg : Config F) (s : State F) : Prop :=
  Transition.Reachable (State.next fp cfg) (fun s e => Proper s e ∧ Fits cfg s e)
    (State.init F cfg) s

theorem Reachable.inv {s : State F} (h : Reachable fp cfg s) : Inv fp cfg s :=
  h.invariant _ Inv.init fun _ _ _ hinv hallowed hs => hinv.next hallowed.1 hallowed.2 hs

/-- **The three updates agree** in every run whose batches the live buffer and the graphs
fit. -/
theorem run_agree {s : State F} (h : Reachable fp cfg s) : Agree fp cfg s :=
  h.inv.agree

/-- fp32 values among a NaN, zero and one, whose products are exact. -/
def exactBits : Fp32 (Option ℤ) where
  zero := some 0
  one := some 1
  mul := Option.map₂ (· * ·)
  maximum := Option.map₂ max
  minimum := Option.map₂ min
  isNan := Option.isNone
  ge x y := match x, y with
    | some a, some b => decide (b ≤ a)
    | _, _ => false
  mul_comm _ _ := Option.map₂_comm Int.mul_comm

/-- Two variants with the update in their draft graphs. -/
def sampleConfig (sizes : List ℕ) : Config (Option ℤ) where
  thr := .list (some 0) [some 1]
  kmin := 1
  stride := 6
  triton := true
  checks := 8
  active := true
  limit := none
  vcap _ := true
  vcapk _ := true
  sizes := sizes
  head := true

/-- The sampler's confidences: row 1 ends in a NaN. -/
def sampleOut (rows : ℕ) : Confidence (Option ℤ) where
  rows := rows
  cols := 5
  rowStride := 5
  colStride := 1
  isCuda := true
  data i := if i = 7 then none else some 1

/-- A graph of two rows is captured for the second variant, a proposal of a batch of two
replays it, and the verify is skipped. -/
theorem run_agree_skipped : ∃ s, s.verifies.length = 1 ∧
    s.updates.map (fun u => (u.fused, u.graph, u.writes)) = [(true, true, [(0, 6), (1, 3)])] ∧
      Agree exactBits (sampleConfig [1, 2]) s := by
  have hrun : Transition.run (State.next exactBits (sampleConfig [1, 2]))
      (State.init _ (sampleConfig [1, 2]))
      [.capture 1 2 (sampleOut 2), .useVariant 1,
        .propose ⟨2, true, .replay, sampleOut 2, true⟩,
        .verify 2 (some ((sampleOut 2).first 2))] = some _ := rfl
  refine ⟨_, rfl, by decide +kernel, run_agree (.of_run hrun ?_)⟩
  refine ⟨⟨rfl, fun _ _ => by decide⟩, fun s hs => ?_⟩
  obtain rfl := Option.some.inj hs
  refine ⟨⟨trivial, trivial⟩, fun s hs => ?_⟩
  obtain rfl := Option.some.inj hs
  refine ⟨⟨trivial, fun size hsize _ => (Option.some.inj hsize).symm⟩, fun s hs => ?_⟩
  obtain rfl := Option.some.inj hs
  exact ⟨⟨fun _ => rfl, fun _ _ => by decide⟩, fun _ _ => trivial⟩

/-- With the condition left out, a batch of one that is padded into the smallest graph has a
second row written, and a graph of 65 rows is written past the live buffer. -/
theorem padded_and_oversized_disagree :
    (∃ s, Transition.Reachable (State.next exactBits (sampleConfig [2])) Proper
        (State.init _ (sampleConfig [2])) s ∧ ¬Agree exactBits (sampleConfig [2]) s) ∧
      ∃ s, Transition.Reachable (State.next exactBits (sampleConfig [65])) Proper
        (State.init _ (sampleConfig [65])) s ∧ ¬Agree exactBits (sampleConfig [65]) s := by
  have hrun (size bs : ℕ) (t : State (Option ℤ))
      (h : Transition.run (State.next exactBits (sampleConfig [size]))
        (State.init _ (sampleConfig [size])) [.capture 0 size (sampleOut size),
          .propose ⟨bs, true, .replay, sampleOut size, true⟩] = some t) :
      Transition.Reachable (State.next exactBits (sampleConfig [size])) Proper
        (State.init _ (sampleConfig [size])) t :=
    .of_run h ⟨rfl, fun _ _ => ⟨trivial, fun _ _ => trivial⟩⟩
  refine ⟨⟨_, hrun 2 1 _ rfl, fun h => ?_⟩, ⟨_, hrun 65 65 _ rfl, fun h => ?_⟩⟩
  · obtain ⟨ws, hws, hmem⟩ := h.rows _ List.mem_cons_self rfl
    obtain rfl := Option.some.inj hws
    exact absurd (hmem (1, 3) (by decide +kernel)) (by decide +kernel)
  · exact absurd ((launchVcapk_within _ 65).mp (h.fused _ List.mem_cons_self rfl).1) (by decide)

end LiveLength
