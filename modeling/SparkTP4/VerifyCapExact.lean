import Mathlib.Algebra.BigOperators.Group.Finset.Basic
import Mathlib.Algebra.Order.BigOperators.Group.Finset
import SparkTP4.VerifyCap

/-!
# The three remaps of the dead verify rows agree

`srcOf` is the row a verify row takes its router output from. The fallback, with or without its
cache, and the patched router read it directly. For the kernel, the anchors are live and so
never written, and no two lanes write one cell: its copies are private, and the order of the
lanes' loads and stores does not matter.
-/

namespace VerifyCap

open LaneCopy MaskedTile StridedMatrix Transition

variable {F S : Type}

/-- The row a verify row takes its router output from. -/
def srcOf (cfg : Config) (live : ℕ → ℤ) (r : ℕ) : ℕ :=
  if live (r / cfg.stride) ≤ (r % cfg.stride : ℕ) then r / cfg.stride * cfg.stride else r

/-- A row is live. -/
def Live (cfg : Config) (live : ℕ → ℤ) (r : ℕ) : Prop :=
  (r % cfg.stride : ℕ) < live (r / cfg.stride)

/-- Every request among `m` rows has a live row. -/
def Anchored (cfg : Config) (live : ℕ → ℤ) (m : ℕ) : Prop := ∀ q < m / cfg.stride, 1 ≤ live q

section rows

variable {cfg : Config} {live : ℕ → ℤ} {m : ℕ}

theorem srcOf_of_live {r : ℕ} (h : Live cfg live r) : srcOf cfg live r = r := if_neg h.not_ge

theorem srcOf_le (r : ℕ) : srcOf cfg live r ≤ r := by
  unfold srcOf
  by_cases h : live (r / cfg.stride) ≤ (r % cfg.stride : ℕ)
  · rw [if_pos h]
    exact Nat.div_mul_le_self r cfg.stride
  · rw [if_neg h]

theorem div_lt_of_lt (hdvd : m % cfg.stride = 0) {r : ℕ} (hr : r < m) :
    r / cfg.stride < m / cfg.stride :=
  Nat.div_lt_div_of_lt_of_dvd (Nat.dvd_of_mod_eq_zero hdvd) hr

/-- The anchor is live. -/
theorem live_anchor (hdvd : m % cfg.stride = 0) (hlive : Anchored cfg live m) {r : ℕ} (hr : r < m) :
    Live cfg live (r / cfg.stride * cfg.stride) := by
  unfold Live
  rw [Nat.mul_mod_left, Nat.mul_div_cancel _ cfg.stride_pos]
  exact Int.lt_of_add_one_le (hlive _ (div_lt_of_lt hdvd hr))

/-- The source of a row is live. -/
theorem live_srcOf (hdvd : m % cfg.stride = 0) (hlive : Anchored cfg live m) {r : ℕ} (hr : r < m) :
    Live cfg live (srcOf cfg live r) := by
  unfold srcOf
  by_cases h : live (r / cfg.stride) ≤ (r % cfg.stride : ℕ)
  · rw [if_pos h]
    exact live_anchor hdvd hlive hr
  · rw [if_neg h]
    exact not_le.mp h

theorem srcM_eq {r : ℕ} (hr : r < m) : srcM cfg.stride live m r = srcOf cfg live r := by
  simp only [srcM, srcOf, if_pos hr]

/-! ## The fallback and its cache -/

theorem computeSrc_eq (hdvd : m % cfg.stride = 0) (hbs : m / cfg.stride ≤ maxBs) :
    computeSrc cfg live m = (List.range m).map (srcOf cfg live) := by
  refine List.map_congr_left fun r hr => ?_
  have hreq := div_lt_of_lt hdvd (List.mem_range.mp hr)
  -- the clamp does nothing: there are at most `MAX_BS` requests
  have hmin : min (r / cfg.stride) (maxBs - 1) = r / cfg.stride := min_eq_left (by omega)
  simp only [srcOf, hmin]

theorem length_computeSrc : (computeSrc cfg live m).length = m := by
  rw [computeSrc, List.length_map, List.length_range]

/-- The cache holds nothing, or the source rows of some number of rows. -/
def Cached (cfg : Config) (live : ℕ → ℤ) (cache : Option (List ℕ)) : Prop :=
  ∀ src ∈ cache, ∃ m, src = computeSrc cfg live m

theorem srcRows_eq {cache : Option (List ℕ)} (h : Cached cfg live cache) (m : ℕ) :
    srcRows cfg live cache m = (computeSrc cfg live m, some (computeSrc cfg live m)) := by
  cases cache with
  | none => rfl
  | some src =>
    obtain ⟨m', rfl⟩ := h src rfl
    show (if _ then _ else _) = _
    rw [length_computeSrc]
    by_cases hm : m' = m
    · rw [if_pos hm, hm]
    · rw [if_neg hm]

theorem cached_forwardCache (layers : List (Routing F)) :
    Cached cfg live (forwardCache cfg live layers) := by
  suffices h : ∀ cache, Cached cfg live cache →
      Cached cfg live (layers.foldl (fun cache x => (remapSelect cfg live cache x).2) cache) from
    h none (by simp [Cached])
  induction layers with
  | nil => exact fun _ h => h
  | cons x layers ih =>
    intro cache h
    refine ih _ ?_
    show Cached cfg live (srcRows cfg live cache x.m).2
    rw [srcRows_eq h]
    rintro src ⟨⟩
    exact ⟨x.m, rfl⟩

/-- **The cache is not seen.** -/
theorem remapSelect_cached (layers : List (Routing F)) (x : Routing F) :
    (remapSelect cfg live (forwardCache cfg live layers) x).1 = (remapSelect cfg live none x).1 := by
  show (x.weights.indexSelect (srcRows cfg live (forwardCache cfg live layers) x.m).1,
    x.indices.indexSelect (srcRows cfg live (forwardCache cfg live layers) x.m).1) = _
  rw [srcRows_eq (cached_forwardCache layers)]
  rfl

theorem remapSelect_eq (x : Routing F) (hdvd : x.m % cfg.stride = 0)
    (hbs : x.m / cfg.stride ≤ maxBs) :
    (remapSelect cfg live none x).1 =
      ((List.range x.m).map fun r => x.weights.row (srcOf cfg live r),
        (List.range x.m).map fun r => x.indices.row (srcOf cfg live r)) := by
  show (List.map x.weights.row (computeSrc cfg live x.m),
    List.map x.indices.row (computeSrc cfg live x.m)) = _
  rw [computeSrc_eq hdvd hbs, List.map_map, List.map_map]
  rfl

end rows

/-! ## The kernel -/

/-- Program order: no store of a cell comes before its load. -/
def Ordered (a b : Op) : Prop := a.access = .store → b ≠ ⟨a.buf, .load, a.k⟩

theorem pairwise_passOps (k : ℕ) : (passOps k).Pairwise Ordered := by
  simp [passOps, Ordered]

theorem k_of_mem_passOps {k : ℕ} {op : Op} (h : op ∈ passOps k) : op.k = k := by
  simp only [passOps, List.mem_cons, List.not_mem_nil, or_false] at h
  rcases h with rfl | rfl | rfl | rfl <;> rfl

theorem pairwise_laneOps (K : ℕ) : (laneOps K).Pairwise Ordered := by
  refine List.pairwise_flatMap.mpr ⟨fun k _ => pairwise_passOps k, ?_⟩
  refine List.pairwise_lt_range.imp fun {k k'} hlt a ha b hb _ heq => ?_
  have hk : b.k = a.k := (congrArg Op.k heq :)
  rw [k_of_mem_passOps ha, k_of_mem_passOps hb] at hk
  exact hlt.ne hk.symm

theorem mem_laneOps (b : Buf) (a : Access) {k K : ℕ} (hk : k < K) : ⟨b, a, k⟩ ∈ laneOps K := by
  refine List.mem_flatMap.mpr ⟨k, List.mem_range.mpr hk, ?_⟩
  cases b <;> cases a <;> simp [passOps]

/-- A lane has made an access. -/
def Done (rest : ℕ → List Op) (b : Buf) (a : Access) (t : ℕ × ℕ) : Prop := ⟨b, a, t.2⟩ ∉ rest t.1

section done

variable {rest : ℕ → List Op} {r : ℕ} {op : Op} {ops : List Op}

theorem Done.of_update (hrest : rest r = op :: ops) {b : Buf} {a : Access} {t : ℕ × ℕ}
    (h : Done (Function.update rest r ops) b a t) :
    Done rest b a t ∨ (op = ⟨b, a, t.2⟩ ∧ t.1 = r) := by
  by_cases ht : t.1 = r
  · unfold Done at h ⊢
    rw [ht, Function.update_self] at h
    rw [ht, hrest, List.mem_cons, not_or]
    by_cases heq : (⟨b, a, t.2⟩ : Op) = op
    · exact Or.inr ⟨heq.symm, rfl⟩
    · exact Or.inl ⟨heq, h⟩
  · unfold Done at h
    rw [Function.update_of_ne ht] at h
    exact Or.inl h

variable {α : Type} {J : Tasks ℕ (ℕ × ℕ)} {mem₀ : ℕ → α} {c : Cells ℕ (ℕ × ℕ) α}

/-- An access to this buffer. -/
theorem copying_exec (hJ : J.Private) (hrest : rest r = op :: ops)
    (hord : (rest r).Pairwise Ordered)
    (h : Copying J mem₀ (Done rest op.buf .load) (Done rest op.buf .store) c) (other : α) :
    Copying J mem₀ (Done (Function.update rest r ops) op.buf .load)
      (Done (Function.update rest r ops) op.buf .store) (c.access J other (r, op.k) op.access) := by
  refine h.access hJ other (r, op.k) op.access (fun hstore => ?_) (fun t _ ht => ?_) fun t _ ht => ?_
  · show _ ∉ rest r
    rw [hrest] at hord ⊢
    rw [List.mem_cons, not_or]
    refine ⟨fun heq => ?_, fun hmem => (List.pairwise_cons.mp hord).1 _ hmem hstore rfl⟩
    rw [← heq] at hstore
    cases hstore
  · refine (ht.of_update hrest).imp_right fun heq => ⟨congrArg Op.access heq.1, ?_⟩
    exact Prod.ext heq.2 (congrArg Op.k heq.1).symm
  · refine (ht.of_update hrest).imp_right fun heq => ⟨congrArg Op.access heq.1, ?_⟩
    exact Prod.ext heq.2 (congrArg Op.k heq.1).symm

/-- An access to the other buffer. -/
theorem copying_skip (hrest : rest r = op :: ops) {b : Buf} (hb : op.buf ≠ b)
    (h : Copying J mem₀ (Done rest b .load) (Done rest b .store) c) :
    Copying J mem₀ (Done (Function.update rest r ops) b .load)
      (Done (Function.update rest r ops) b .store) c := by
  refine h.mono (fun t _ ht => ?_) fun t _ ht => ?_
  · exact (ht.of_update hrest).resolve_right fun heq => hb (congrArg Op.buf heq.1)
  · exact (ht.of_update hrest).resolve_right fun heq => hb (congrArg Op.buf heq.1)

end done

/-- **The invariant of a launch**, from the contents `w₀` and `i₀` of the buffers. -/
structure Inv (L : Launch) (w₀ : ℕ → F) (i₀ : ℕ → ℤ) (s : State F) : Prop where
  w : Copying (L.tasks L.sw) w₀ (Done s.rest .w .load) (Done s.rest .w .store) s.w
  i : Copying (L.tasks L.si) i₀ (Done s.rest .i .load) (Done s.rest .i .store) s.i
  ordered : ∀ r, (s.rest r).Pairwise Ordered

theorem step_cases {L : Launch} {zero : F} {s s' : State F} {r : ℕ}
    (h : step L zero s r = some s') : r < L.block ∧ ∃ op ops, s.rest r = op :: ops ∧
      s' = { exec L zero r op s with rest := Function.update s.rest r ops } := by
  unfold step at h
  by_cases hr : r < L.block
  · rw [if_pos hr] at h
    cases hrest : s.rest r with
    | nil => simp [hrest] at h
    | cons op ops =>
      rw [hrest] at h
      exact ⟨hr, op, ops, rfl, (Option.some.inj h).symm⟩
  · simp [if_neg hr] at h

theorem Inv.step {L : Launch} {w₀ : ℕ → F} {i₀ : ℕ → ℤ} {zero : F} {s s' : State F} {r : ℕ}
    (hw : (L.tasks L.sw).Private) (hi : (L.tasks L.si).Private) (h : Inv L w₀ i₀ s)
    (hs : VerifyCap.step L zero s r = some s') : Inv L w₀ i₀ s' := by
  obtain ⟨-, op, ops, hrest, rfl⟩ := step_cases hs
  have hordered : ∀ q, (Function.update s.rest r ops q).Pairwise Ordered := by
    intro q
    by_cases hq : q = r
    · rw [hq, Function.update_self]
      have := h.ordered r
      rw [hrest] at this
      exact (List.pairwise_cons.mp this).2
    · rw [Function.update_of_ne hq]
      exact h.ordered q
  obtain ⟨b, a, k⟩ := op
  cases b with
  | w =>
    exact ⟨copying_exec hw hrest (h.ordered r) h.w zero, copying_skip hrest (by simp) h.i, hordered⟩
  | i =>
    exact ⟨copying_skip hrest (by simp) h.w, copying_exec hi hrest (h.ordered r) h.i 0, hordered⟩

/-! ## The launch of `remap_dead_rows` -/

section launch

variable {cfg : Config} {live : ℕ → ℤ} {x : Routing F}

theorem dead_iff {r : ℕ} (hr : r < x.m) :
    (remapLaunch cfg live x).dead r = true ↔ ¬ Live cfg live r := by
  have hlive : (remapLaunch cfg live x).liveOf r = live (r / cfg.stride) := if_pos hr
  unfold Launch.dead Live
  rw [hlive, Bool.and_eq_true_iff, decide_eq_true_iff, decide_eq_true_iff, not_lt]
  exact ⟨And.right, fun h => ⟨hr, h⟩⟩

theorem lt_of_dead {r : ℕ} (h : (remapLaunch cfg live x).dead r = true) : r < x.m := by
  unfold Launch.dead at h
  exact of_decide_eq_true (Bool.and_eq_true_iff.mp h).1

/-- **The copies of the launch are private**: an anchor is live, and is not written. -/
theorem tasks_private (hdvd : x.m % cfg.stride = 0) (hlive : Anchored cfg live x.m) {s : ℕ}
    (hs : ∀ r < x.m, r * s = r * kTarget) : ((remapLaunch cfg live x).tasks s).Private := by
  have hact : ∀ {t}, ((remapLaunch cfg live x).tasks s).active t = true →
      (remapLaunch cfg live x).dead t.1 = true ∧ t.1 < x.m ∧ t.2 < kTarget := fun {t} h => by
    have h := Bool.and_eq_true_iff.mp h
    exact ⟨h.1, lt_of_dead h.1, of_decide_eq_true h.2⟩
  refine ⟨fun t t' ht ht' heq => ?_, fun t t' ht ht' heq => ?_⟩
  · obtain ⟨-, hlt, hk⟩ := hact ht
    obtain ⟨hdead', hlt', hk'⟩ := hact ht'
    have hanchor : t.1 / cfg.stride * cfg.stride < x.m := (Nat.div_mul_le_self _ _).trans_lt hlt
    change t.1 / cfg.stride * cfg.stride * s + t.2 = t'.1 * s + t'.2 at heq
    rw [hs _ hanchor, hs _ hlt'] at heq
    refine (dead_iff hlt').mp hdead' ?_
    rw [← (addr_inj hk hk' heq).1]
    exact live_anchor hdvd hlive hlt
  · obtain ⟨-, hlt, hk⟩ := hact ht
    obtain ⟨-, hlt', hk'⟩ := hact ht'
    change t.1 * s + t.2 = t'.1 * s + t'.2 at heq
    rw [hs _ hlt, hs _ hlt'] at heq
    exact Prod.ext (addr_inj hk hk' heq).1 (addr_inj hk hk' heq).2

theorem inv_start :
    Inv (remapLaunch cfg live x) x.weights.data x.indices.data (start x) := by
  have hnot : ∀ b a s t, ((remapLaunch cfg live x).tasks s).active t = true →
      ¬ Done (start x).rest b a t := fun b a s t ht hdone =>
    hdone (mem_laneOps b a (of_decide_eq_true (Bool.and_eq_true_iff.mp ht).2))
  exact ⟨.start _ (start x).w (hnot _ _ _) (hnot _ _ _),
    .start _ (start x).i (hnot _ _ _) (hnot _ _ _), fun _ => pairwise_laneOps kTarget⟩

/-- **A buffer at the end of the kernel** holds, in each row, what its source row held. -/
theorem mem_of_copying {α : Type} {s : ℕ} {mem₀ : ℕ → α} {rest : ℕ → List Op} {b : Buf}
    {c : Cells ℕ (ℕ × ℕ) α} (hs : ∀ r < x.m, r * s = r * kTarget)
    (h : Copying ((remapLaunch cfg live x).tasks s) mem₀ (Done rest b .load) (Done rest b .store) c)
    (hfin : ∀ r < (remapLaunch cfg live x).block, rest r = []) {r k : ℕ} (hr : r < x.m)
    (hk : k < kTarget) : c.mem (r * kTarget + k) = mem₀ (srcOf cfg live r * kTarget + k) := by
  by_cases hdead : (remapLaunch cfg live x).dead r = true
  · have hactive : ((remapLaunch cfg live x).tasks s).active (r, k) = true :=
      Bool.and_eq_true_iff.mpr ⟨hdead, decide_eq_true hk⟩
    have hdone : Done rest b .store (r, k) := by
      show _ ∉ rest r
      rw [hfin r (hr.trans_le (le_nextPowerOf2 x.m))]
      exact List.not_mem_nil
    have hsrc : srcOf cfg live r = r / cfg.stride * cfg.stride :=
      if_pos (not_lt.mp ((dead_iff hr).mp hdead))
    rw [← hs r hr, ← hs _ ((srcOf_le r).trans_lt hr), hsrc]
    exact h.mem (r, k) hactive hdone
  · have hlive : Live cfg live r := not_not.mp fun hn => hdead ((dead_iff hr).mpr hn)
    rw [srcOf_of_live hlive]
    refine h.kept _ fun t ht heq => hdead ?_
    have hact := Bool.and_eq_true_iff.mp ht
    change t.1 * s + t.2 = r * kTarget + k at heq
    rw [hs _ (lt_of_dead hact.1)] at heq
    rw [← (addr_inj (of_decide_eq_true hact.2) hk heq).1]
    exact hact.1

/-- The tensor the kernel has left. -/
theorem toRows_of_mem {α : Type} {t : View α} {mem : ℕ → α} (hm : t.rows = x.m)
    (hcols : t.cols = kTarget) (ht : t.isContiguous = true)
    (h : ∀ r < x.m, ∀ k < kTarget, mem (r * kTarget + k) =
      t.data (srcOf cfg live r * kTarget + k)) :
    View.toRows { t with data := mem } = (List.range x.m).map fun r => t.row (srcOf cfg live r) := by
  have haddr : ∀ r < x.m, ∀ k < kTarget,
      r * t.rowStride + k * t.colStride = r * kTarget + k := fun r hr k hk => by
    rw [t.addr_of_contiguous ht (hm ▸ hr) (hcols ▸ hk), hcols]
  unfold View.toRows
  rw [hm]
  refine List.map_congr_left fun r hr => List.map_congr_left fun k hk => ?_
  have hr := List.mem_range.mp hr
  have hk : k < kTarget := hcols ▸ List.mem_range.mp hk
  show mem (r * t.rowStride + k * t.colStride) = t.data (_ * t.rowStride + k * t.colStride)
  rw [haddr r hr k hk, haddr _ ((srcOf_le r).trans_lt hr) k hk]
  exact h r hr k hk

/-- The kernel's addresses are those of the tensor. -/
theorem rowStride_eq {α : Type} {t : View α} (hm : t.rows = x.m) (hcols : t.cols = kTarget)
    (ht : t.isContiguous = true) : ∀ r < x.m, r * t.rowStride = r * kTarget := fun r hr => by
  have hpos : 0 < t.cols := hcols ▸ (by decide : 0 < kTarget)
  have haddr := t.addr_of_contiguous ht (hm ▸ hr) hpos
  rwa [Nat.zero_mul, Nat.add_zero, Nat.add_zero, hcols] at haddr

/-- **The kernel ends with the rows of the fallback**, whatever the order of its accesses. -/
theorem contents_of_run {zero : F} (hdvd : x.m % cfg.stride = 0)
    (hbs : x.m / cfg.stride ≤ maxBs) (hlive : Anchored cfg live x.m) {triton : Bool}
    (hplace : inPlace triton x = true) {sched : List ℕ} {s : State F}
    (hrun : run (step (remapLaunch cfg live x) zero) (start x) sched = some s)
    (hfin : s.finished (remapLaunch cfg live x)) :
    s.contents x = (remapSelect cfg live none x).1 := by
  unfold inPlace at hplace
  simp only [Bool.and_eq_true_iff, decide_eq_true_iff] at hplace
  obtain ⟨⟨⟨⟨-, hcw⟩, hci⟩, hcols⟩, -⟩ := hplace
  have hcols' : x.indices.cols = kTarget := x.cols_eq.symm.trans hcols
  have hstride := rowStride_eq x.rows_eq hcols hcw
  have hstride' := rowStride_eq rfl hcols' hci
  have hreach := Reachable.of_run hrun (allowedRun_of_forall (fun _ _ => trivial) _ _)
  have hinv : Inv (remapLaunch cfg live x) x.weights.data x.indices.data s :=
    hreach.invariant _ inv_start fun s r s' h _ hs =>
      h.step (tasks_private hdvd hlive hstride) (tasks_private hdvd hlive hstride') hs
  rw [remapSelect_eq x hdvd hbs]
  refine Prod.ext (toRows_of_mem x.rows_eq hcols hcw ?_) (toRows_of_mem rfl hcols' hci ?_)
  · exact fun r hr k hk => mem_of_copying hstride hinv.w hfin hr hk
  · exact fun r hr k hk => mem_of_copying hstride' hinv.i hfin hr hk

end launch

/-! ## The kernel can always end -/

/-- What the lanes have left. -/
def State.left (L : Launch) (s : State F) : ℕ := ∑ r ∈ Finset.range L.block, (s.rest r).length

theorem left_of_step {L : Launch} {zero : F} {s s' : State F} {r : ℕ}
    (h : step L zero s r = some s') : s'.left L < s.left L := by
  obtain ⟨hr, op, ops, hrest, rfl⟩ := step_cases h
  refine Finset.sum_lt_sum (fun q _ => ?_) ⟨r, Finset.mem_range.mpr hr, ?_⟩
  · show (Function.update s.rest r ops q).length ≤ _
    by_cases hq : q = r
    · rw [hq, Function.update_self, hrest]
      exact Nat.le_succ ops.length
    · rw [Function.update_of_ne hq]
  · show (Function.update s.rest r ops r).length < _
    rw [Function.update_self, hrest]
    exact Nat.lt_succ_self ops.length

/-- A kernel that has not ended has a lane that can go on. -/
theorem exists_step {L : Launch} (zero : F) {s : State F} (h : ¬ s.finished L) :
    ∃ r s', step L zero s r = some s' := by
  unfold State.finished at h
  push Not at h
  obtain ⟨r, hr, hne⟩ := h
  obtain ⟨op, ops, hrest⟩ := List.exists_cons_of_ne_nil hne
  refine ⟨r, { exec L zero r op s with rest := Function.update s.rest r ops }, ?_⟩
  unfold step
  rw [if_pos hr, hrest]

theorem exists_finish (L : Launch) (zero : F) (s : State F) :
    ∃ more s', run (step L zero) s more = some s' ∧ s'.finished L := by
  induction hn : s.left L using Nat.strong_induction_on generalizing s with
  | _ n ih =>
    by_cases hfin : s.finished L
    · exact ⟨[], s, rfl, hfin⟩
    · obtain ⟨r, s₁, hstep⟩ := exists_step zero hfin
      obtain ⟨more, s', hrun, hfin'⟩ := ih _ (hn ▸ left_of_step hstep) s₁ rfl
      refine ⟨r :: more, s', ?_, hfin'⟩
      show (step L zero s r).bind _ = _
      rw [hstep]
      exact hrun

/-! ## The three remaps -/

/-- The router loads what the fallback selects. -/
theorem fusedGateLive_eq {cfg : Config} {live : ℕ → ℤ} {x : Routing F} (gate : Gate F S)
    (inp : Scores S) (hm : fusedGate gate inp x.m = (x.weights.toRows, x.indices.toRows)) :
    fusedGateLive cfg live gate inp x.m =
      ((List.range x.m).map fun r => x.weights.row (srcOf cfg live r),
        (List.range x.m).map fun r => x.indices.row (srcOf cfg live r)) := by
  obtain ⟨hw, hi⟩ := Prod.mk.inj hm
  unfold View.toRows at hw hi
  rw [x.rows_eq, List.map_map] at hw
  rw [List.map_map] at hi
  have hrow : ∀ r < x.m, srcOf cfg live r ∈ List.range x.m := fun r hr =>
    List.mem_range.mpr ((srcOf_le r).trans_lt hr)
  unfold fusedGateLive
  rw [List.map_map, List.map_map]
  refine Prod.ext (List.map_congr_left fun r hr => ?_) (List.map_congr_left fun r hr => ?_)
  · have hr := List.mem_range.mp hr
    show (gateRow gate inp (srcM cfg.stride live x.m r)).1 = _
    rw [srcM_eq hr]
    exact List.map_inj_left.mp hw _ (hrow r hr)
  · have hr := List.mem_range.mp hr
    show (gateRow gate inp (srcM cfg.stride live x.m r)).2 = _
    rw [srcM_eq hr]
    exact List.map_inj_left.mp hi _ (hrow r hr)

/-- **A dead row reads no expert of its own.** -/
theorem experts_eq {cfg : Config} {live : ℕ → ℤ} {x : Routing F} (hdvd : x.m % cfg.stride = 0)
    (hlive : Anchored cfg live x.m) (e : ℤ) :
    (∃ row ∈ (List.range x.m).map fun r => x.indices.row (srcOf cfg live r), e ∈ row) ↔
      ∃ r < x.m, Live cfg live r ∧ e ∈ x.indices.row r := by
  constructor
  · rintro ⟨row, hrow, he⟩
    obtain ⟨r, hr, rfl⟩ := List.mem_map.mp hrow
    have hr := List.mem_range.mp hr
    exact ⟨_, (srcOf_le r).trans_lt hr, live_srcOf hdvd hlive hr, he⟩
  · rintro ⟨r, hr, hl, he⟩
    refine ⟨_, List.mem_map.mpr ⟨r, List.mem_range.mpr hr, rfl⟩, ?_⟩
    rwa [srcOf_of_live hl]

/-- **The remaps of the dead rows agree.** On a verify batch whose live lengths are at least 1,
the fallback does not depend on the layers before, the kernel ends with the same rows whatever
the order of its accesses – and can always end – and the patched router computes them too. The
live rows keep what the router gave them, and the experts over all rows are those over the live
rows. -/
theorem dead_rows_like_anchor (cfg : Config) (live : ℕ → ℤ) (x : Routing F) (zero : F)
    (inVerify : Bool) (experts : ℕ)
    (hverify : isVerify cfg inVerify x.m experts x.indices.cols = true)
    (hlive : Anchored cfg live x.m) :
    (∀ layers : List (Routing F), (remapSelect cfg live (forwardCache cfg live layers) x).1 =
      (remapSelect cfg live none x).1) ∧
    (∀ triton, inPlace triton x = true → ∀ sched s,
      run (step (remapLaunch cfg live x) zero) (start x) sched = some s →
        (s.finished (remapLaunch cfg live x) →
          s.contents x = (remapSelect cfg live none x).1) ∧
        ∃ more s', run (step (remapLaunch cfg live x) zero) s more = some s' ∧
          s'.finished (remapLaunch cfg live x)) ∧
    (∀ (gate : Gate F S) (inp : Scores S),
      fusedGate gate inp x.m = (x.weights.toRows, x.indices.toRows) →
        fusedGateLive cfg live gate inp x.m = (remapSelect cfg live none x).1) ∧
    (∀ r < x.m, Live cfg live r →
      (remapSelect cfg live none x).1.1[r]? = some (x.weights.row r) ∧
        (remapSelect cfg live none x).1.2[r]? = some (x.indices.row r)) ∧
    ∀ e, (∃ row ∈ (remapSelect cfg live none x).1.2, e ∈ row) ↔
      ∃ r < x.m, Live cfg live r ∧ e ∈ x.indices.row r := by
  unfold isVerify at hverify
  simp only [Bool.and_eq_true_iff, decide_eq_true_iff] at hverify
  obtain ⟨⟨-, hdvd⟩, hbs⟩ := hverify
  refine ⟨fun layers => remapSelect_cached layers x, fun triton hplace sched s hrun => ?_,
    fun gate inp h => ?_, fun r hr hl => ?_, fun e => ?_⟩
  · exact ⟨contents_of_run hdvd hbs hlive hplace hrun, exists_finish _ zero s⟩
  · rw [remapSelect_eq x hdvd hbs, fusedGateLive_eq gate inp h]
  · rw [remapSelect_eq x hdvd hbs]
    simp [hr, srcOf_of_live hl]
  · rw [remapSelect_eq x hdvd hbs]
    exact experts_eq hdvd hlive e

/-- Two requests of two rows, whose ids are the addresses. -/
def smallRouting : Routing ℤ where
  weights := ⟨4, 6, 6, 1, fun a => 100 + a⟩
  indices := ⟨4, 6, 6, 1, fun a => a⟩
  rows_eq := rfl
  cols_eq := rfl

/-- The second row of the first request is dead, and the kernel ends with its anchor's ids. -/
theorem dead_rows_like_anchor_small :
    let cfg : Config := ⟨2, by decide⟩
    let live : ℕ → ℤ := fun q => if q = 0 then 1 else 3
    let L := remapLaunch cfg live smallRouting
    isVerify cfg true 4 384 6 = true ∧ Anchored cfg live 4 ∧
      ∀ sched s, run (step L 0) (start smallRouting) sched = some s → s.finished L →
        (s.contents smallRouting).2 =
          [[0, 1, 2, 3, 4, 5], [0, 1, 2, 3, 4, 5], [12, 13, 14, 15, 16, 17],
            [18, 19, 20, 21, 22, 23]] := by
  intro cfg live L
  have hlive : Anchored cfg live 4 := by
    intro q _
    show (1 : ℤ) ≤ if q = 0 then 1 else 3
    split <;> decide
  refine ⟨by decide, hlive, fun sched s hrun hfin => ?_⟩
  have h := dead_rows_like_anchor (S := ℤ) cfg live smallRouting 0 true 384 (by decide) hlive
  rw [(h.2.1 true (by decide) sched s hrun).1 hfin]
  decide

end VerifyCap
