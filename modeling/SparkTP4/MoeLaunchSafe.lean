import SparkTP4.MoeLaunch

/-!
# Prepared launches do what the stock body does

A plan holds everything that the stock tail computes from the decisions (`stockBody_eq`), and
decisions taken again in the same context, with the kernel still in the cache, give the same
plan (`decidePlan_again`). So a plan is right as long as its context is (`Fresh`), and along a
run it is: the key holds the scalars, the scratch, the device and the overrides, and the
environment cannot change without a count or a new `os.environ` (`launch_eq_stock`).

The last needs every write to be seen. A mapping that replaces `os.environ` does not count, and
what is written to it later is missed (`replaced_environ_is_missed`).
-/

namespace MoeLaunch

/-! ## Pointers -/

/-- Every memoized pointer is the one that would be made. -/
def PtrsRight (ptrs : PtrMemo) : Prop :=
  ∀ e ∈ ptrs, e.2 = ⟨e.1.1, e.1.2.1, e.1.2.2⟩

theorem ptrAt_spec {ptrs : PtrMemo} (h : PtrsRight ptrs) (dtype : DType) (t : Tensor)
    (align : ℕ) : (ptrAt ptrs dtype t align).1 = ⟨t.ptr, dtype, align⟩ ∧
      PtrsRight (ptrAt ptrs dtype t align).2 := by
  unfold ptrAt
  split
  · next p hp => exact ⟨h _ (Memo.mem_of_get hp), h⟩
  · refine ⟨rfl, fun e he => ?_⟩
    rcases Memo.mem_put he with rfl | hin
    · rfl
    · exact h e hin

/-- **Memoized pointers are the same arguments.** -/
theorem values_spec {ptrs : PtrMemo} (h : PtrsRight ptrs) (args : List Arg) :
    (values ptrs args).1 = args.map Arg.value ∧ PtrsRight (values ptrs args).2 := by
  induction args generalizing ptrs with
  | nil => exact ⟨rfl, h⟩
  | cons arg args ih =>
    cases arg with
    | ptr dtype t align =>
      obtain ⟨hptr, hright⟩ := ptrAt_spec h dtype t align
      obtain ⟨hvalues, hrest⟩ := ih hright
      exact ⟨congrArg₂ (fun p l => Value.ptr p :: l) hptr hvalues, hrest⟩
    | tensor t => exact ⟨congrArg (Value.tensor t :: ·) (ih h).1, (ih h).2⟩
    | int v => exact ⟨congrArg (Value.int v :: ·) (ih h).1, (ih h).2⟩
    | stream s => exact ⟨congrArg (Value.stream s :: ·) (ih h).1, (ih h).2⟩

/-- What the launch of a plan does. -/
def Plan.outcome (p : Plan) (c : Call) : Outcome :=
  ⟨(if p.zeroBarrier then
      [Effect.zeroBarrier (c.tensors .barrierCount) (c.tensors .barrierEpoch)] else []) ++
    (if p.externalRoutePlan then
      [.routePlan (routePlanArgs c p.routedRows p.E p.selectedTileM)] else []) ++
    [.compiled p.compiled ((planArgs p c).map Arg.value)], none⟩

theorem launchPlan_spec {ptrs : PtrMemo} (h : PtrsRight ptrs) (p : Plan) (c : Call) :
    (launchPlan p c ptrs).1 = p.outcome c ∧ PtrsRight (launchPlan p c ptrs).2 := by
  obtain ⟨hvalues, hright⟩ := values_spec h (planArgs p c)
  unfold launchPlan Plan.outcome
  dsimp only
  rw [hvalues]
  exact ⟨rfl, hright⟩

/-! ## A plan is what the stock tail computes -/

section Decide

variable {st : Stock} {ctx : Context} {cache cache' : KernelCache} {c : Call} {p : Plan}

theorem ok_of_bind {α β : Type} {x : Except Error α} {f : α → Except Error β} {b : β}
    (h : x >>= f = .ok b) : ∃ a, x = .ok a ∧ f a = .ok b := by
  cases x with
  | error e => cases h
  | ok a => exact ⟨a, rfl, h⟩

theorem ok_bind {α β : Type} (a : α) (f : α → Except Error β) : (.ok a >>= f) = f a := rfl

/-- The decisions have asked the tile planner already. -/
theorem decisions_tile {sc : Scalars} {miBytes bits : ℕ} {hadamard : Bool} {d : Decided}
    (h : decisions st ctx sc miBytes bits hadamard = .ok d) :
    ∃ tile, st.selectTileMn ctx (sc.m * sc.numTopk) (tileShape sc d.quantMode d.n) = .ok tile := by
  obtain ⟨quantMode, -, h⟩ := ok_of_bind h
  obtain ⟨decode, -, h⟩ := ok_of_bind h
  obtain ⟨direct, -, h⟩ := ok_of_bind h
  obtain ⟨mac, -, h⟩ := ok_of_bind h
  obtain ⟨tile, htile, h⟩ := ok_of_bind h
  obtain ⟨enabled, -, h⟩ := ok_of_bind h
  obtain ⟨supported, -, h⟩ := ok_of_bind h
  obtain ⟨-, -, h⟩ := ok_of_bind h
  obtain rfl := Except.ok.inj h
  exact ⟨tile, htile⟩

/-- The decisions fail with the error of the quant mode. -/
theorem decisions_error {sc : Scalars} {miBytes bits : ℕ} {hadamard : Bool} {e : Error}
    (h : st.normalizeQuantMode sc.quantMode = .error e) :
    decisions st ctx sc miBytes bits hadamard = .error e := by
  unfold decisions
  rw [h]
  rfl

theorem eligible_spec (h : eligible c = true) :
    (c.tensors .w13SfbRp).float16 = false ∧ c.planning = false := by
  unfold eligible at h
  simp only [Bool.and_eq_true, Bool.not_eq_true', Bool.or_eq_false_iff] at h
  exact ⟨h.1.1, h.2.1⟩

/-- Eligible launches have no trellis weights: the stock body takes the same decisions. -/
theorem stockDecide_eq (h : eligible c = true) : stockDecide st ctx cache c =
    (decisions st ctx c.scalars (c.tensors .materializedIntermediate).bytes 0 false >>= fun d =>
      getDynamicKernel st ctx c.planning cache d.args >>= fun r => .ok (d, false, r)) := by
  unfold stockDecide
  cases hq : st.normalizeQuantMode c.scalars.quantMode with
  | error e =>
    rw [decisions_error hq]
    dsimp only
    rw [hq]
    rfl
  | ok quantMode =>
    have htrellis : isTrellis st c quantMode = false := by
      unfold isTrellis
      rw [(eligible_spec h).1, Bool.and_false]
    dsimp only
    rw [hq, ok_bind, htrellis]
    rfl

/-- **The plan holds what the stock tail computes.** -/
theorem stockBody_eq (h : eligible c = true) : stockBody st ctx cache c =
    match decidePlan st ctx cache c with
    | (.error e, kernels) => (⟨[], some e⟩, kernels)
    | (.ok p, kernels) => (p.outcome c, kernels) := by
  unfold stockBody decidePlan
  rw [stockDecide_eq h]
  dsimp only
  cases hd : decisions st ctx c.scalars (c.tensors .materializedIntermediate).bytes 0 false with
  | error e => rfl
  | ok d =>
    rw [ok_bind]
    dsimp only
    cases hk : getDynamicKernel st ctx c.planning cache d.args with
    | error e => rfl
    | ok r =>
      rw [ok_bind]
      obtain ⟨tile, htile⟩ := decisions_tile hd
      unfold stockTail
      dsimp only
      rw [htile]
      refine Prod.ext (congrArg₂ Outcome.mk ?_ rfl) rfl
      refine congrArg (_ ++ [Effect.compiled r.1 ·]) ?_
      exact congrArg (List.map Arg.value) (List.append_nil _)

end Decide

/-! ## The kernel cache -/

section Kernels

variable {st : Stock} {ctx : Context} {planning : Bool} {args : KernelArgs}
  {cache cache' : KernelCache} {kernel : Kernel} {mac : ℕ}

/-- Every kernel is under the key that it was compiled for. -/
def Keyed (cache : KernelCache) : Prop := ∀ e ∈ cache, e.2.key = e.1

theorem Keyed.set (h : Keyed cache) (kernel : Kernel) :
    Keyed (Memo.set cache kernel.key kernel) := by
  intro e he
  rcases Memo.mem_set he with rfl | hin
  · rfl
  · exact h e hin

/-- What the kernel lookup does: it returns a cached kernel, or compiles one. -/
theorem getDynamicKernel_cases
    (h : getDynamicKernel st ctx planning cache args = .ok (kernel, mac, cache')) :
    ∃ key, st.kernelKey ctx args = .ok key ∧ mac = args.macOverride ∧
      ((cachedKernel ctx planning cache key = some kernel ∧ cache' = cache) ∨
        (cachedKernel ctx planning cache key = none ∧ kernel.key = key ∧
          st.compile ctx args = .ok kernel.object ∧
          cache' = if reuseCompiled ctx planning then Memo.set cache kernel.key kernel
            else cache)) := by
  obtain ⟨key, hkey, h⟩ := ok_of_bind h
  refine ⟨key, hkey, ?_⟩
  cases hcached : cachedKernel ctx planning cache key with
  | some kernel' =>
    rw [hcached] at h
    obtain ⟨rfl, rfl, rfl⟩ : kernel' = kernel ∧ args.macOverride = mac ∧ cache = cache' := by
      simpa using Except.ok.inj h
    exact ⟨rfl, .inl ⟨rfl, rfl⟩⟩
  | none =>
    rw [hcached] at h
    obtain ⟨object, hobject, h⟩ := ok_of_bind h
    obtain ⟨rfl, rfl, rfl⟩ := Prod.ext_iff.mp (Except.ok.inj h) |>.imp_right Prod.ext_iff.mp
    exact ⟨rfl, .inr ⟨rfl, rfl, hobject, rfl⟩⟩

/-- A cached kernel was compiled for its key. -/
theorem cachedKernel_spec {key : KernelKey} (hkeyed : Keyed cache)
    (h : cachedKernel ctx planning cache key = some kernel) :
    kernel.key = key ∧ Memo.get cache key = some kernel := by
  obtain ⟨-, h⟩ := Option.ite_none_right_eq_some.mp h
  exact ⟨hkeyed _ (Memo.mem_of_get h), h⟩

theorem getDynamicKernel_keyed (hkeyed : Keyed cache)
    (h : getDynamicKernel st ctx planning cache args = .ok (kernel, mac, cache')) :
    Keyed cache' := by
  obtain ⟨key, -, -, ⟨-, rfl⟩ | ⟨-, -, -, rfl⟩⟩ := getDynamicKernel_cases h
  · exact hkeyed
  · split
    · exact hkeyed.set kernel
    · exact hkeyed

/-- **The lookup gives the same kernel again** as long as the cache holds it. -/
theorem getDynamicKernel_again {cache₀ : KernelCache} (hkeyed₀ : Keyed cache₀)
    (h : getDynamicKernel st ctx planning cache₀ args = .ok (kernel, mac, cache'))
    (hget : Memo.get cache kernel.key = some kernel) :
    getDynamicKernel st ctx planning cache args = .ok (kernel, mac, cache) := by
  obtain ⟨key, hkey, rfl, hcase⟩ := getDynamicKernel_cases h
  unfold getDynamicKernel
  rw [hkey, ok_bind]
  rcases hcase with ⟨hcached, -⟩ | ⟨hcached, rfl, hobject, -⟩
  · obtain ⟨hkernel, -⟩ := cachedKernel_spec hkeyed₀ hcached
    obtain ⟨hreuse, -⟩ := Option.ite_none_right_eq_some.mp hcached
    have hnow : cachedKernel ctx planning cache key = some kernel := by
      unfold cachedKernel
      rw [if_pos hreuse, ← hkernel, hget]
    rw [hnow]
    rfl
  · by_cases hreuse : reuseCompiled ctx planning = true
    · have hnow : cachedKernel ctx planning cache kernel.key = some kernel := by
        unfold cachedKernel
        rw [if_pos hreuse, hget]
      rw [hnow]
      rfl
    · -- a kernel that is not reused is compiled again
      have hnow : cachedKernel ctx planning cache kernel.key = none := if_neg hreuse
      rw [hnow]
      dsimp only
      rw [hobject, ok_bind, if_neg hreuse]
      rfl

/-- The key that a plan keeps is the one of its kernel. -/
theorem keyOf_kernel (hkeyed : Keyed cache) {key : KernelKey}
    (h : Memo.keyOf cache kernel = some key) : key = kernel.key :=
  (hkeyed _ (Memo.mem_of_keyOf h)).symm

/-- A kernel that the cache holds is found in it. -/
theorem keyOf_of_get (hkeyed : Keyed cache) (h : Memo.get cache kernel.key = some kernel) :
    Memo.keyOf cache kernel = some kernel.key := by
  obtain ⟨key, hkey⟩ := Memo.keyOf_isSome (Memo.mem_of_get h)
  rw [hkey, keyOf_kernel hkeyed hkey]

end Kernels

/-! ## Plans in the same context -/

section Plans

variable {st : Stock} {ctx : Context} {cache cache' : KernelCache} {c : Call} {p : Plan}

/-- What a plan was made from: decisions that did not fail. -/
theorem decidePlan_ok (h : decidePlan st ctx cache c = (.ok p, cache')) :
    ∃ d, decisions st ctx c.scalars (c.tensors .materializedIntermediate).bytes 0 false = .ok d ∧
      getDynamicKernel st ctx c.planning cache d.args = .ok (p.compiled, p.mac, cache') ∧
      p.kernelKey = Memo.keyOf cache' p.compiled := by
  unfold decidePlan at h
  dsimp only at h
  split at h
  · cases h
  · next d hd =>
    split at h
    · cases h
    · next hk =>
      split at h
      · cases h
      · obtain ⟨hp, rfl⟩ := Prod.ext_iff.mp h
        obtain rfl := Except.ok.inj hp
        exact ⟨d, hd, hk, rfl⟩

theorem decidePlan_keyed (hkeyed : Keyed cache) : Keyed (decidePlan st ctx cache c).2 := by
  unfold decidePlan
  dsimp only
  split
  · exact hkeyed
  · split
    · exact hkeyed
    · next hk =>
      split
      · exact getDynamicKernel_keyed hkeyed hk
      · exact getDynamicKernel_keyed hkeyed hk

/-- The decisions of a plan read a few things of a launch only. -/
theorem decidePlan_congr {c' : Call} (hscalars : c.scalars = c'.scalars)
    (hbytes : (c.tensors .materializedIntermediate).bytes =
      (c'.tensors .materializedIntermediate).bytes) (hplanning : c.planning = c'.planning) :
    decidePlan st ctx cache c = decidePlan st ctx cache c' := by
  unfold decidePlan
  rw [hscalars, hbytes, hplanning]

/-- **Decided again in the same context, the plan is the same**, and leaves the kernel cache
as it is, as long as that holds the plan's kernel. -/
theorem decidePlan_again {cache₀ : KernelCache} {key : KernelKey} (hkeyed₀ : Keyed cache₀)
    (h : decidePlan st ctx cache₀ c = (.ok p, cache')) (hkey : p.kernelKey = some key)
    (hkeyed : Keyed cache) (hget : Memo.get cache key = some p.compiled) :
    decidePlan st ctx cache c = (.ok p, cache) := by
  obtain ⟨d, hd, hk, hkeyOf⟩ := decidePlan_ok h
  have hkernel : key = p.compiled.key :=
    keyOf_kernel (getDynamicKernel_keyed hkeyed₀ hk) (hkeyOf.symm.trans hkey)
  subst hkernel
  have hagain : getDynamicKernel st ctx c.planning cache d.args =
      .ok (p.compiled, p.mac, cache) := getDynamicKernel_again hkeyed₀ hk hget
  obtain ⟨tile, htile⟩ := decisions_tile hd
  unfold decidePlan at h ⊢
  dsimp only at h ⊢
  rw [hd] at h ⊢
  dsimp only at h ⊢
  rw [hk] at h
  rw [hagain]
  dsimp only at h ⊢
  rw [htile] at h ⊢
  dsimp only at h ⊢
  have heq : Memo.keyOf cache p.compiled = Memo.keyOf cache' p.compiled :=
    (keyOf_of_get hkeyed hget).trans (hkey.symm.trans hkeyOf)
  rw [heq]
  exact Prod.ext (Prod.ext_iff.mp h).1 rfl

end Plans

/-! ## Runs -/

section Runs

variable {st : Stock} {s s' : State} {c : Call}

/-- The context that a plan is for: what its key holds, and an environment. -/
def PlanKey.context (key : PlanKey) (env : String → Option String) : Context :=
  ⟨env, key.device, key.prequantized, key.tileMn, key.swapAb⟩

/-- **A plan is fresh** in an environment when deciding there gives it. -/
def Fresh (st : Stock) (env : String → Option String) (e : PlanKey × Plan) : Prop :=
  ∃ cache c, Keyed cache ∧ c.scalars = e.1.scalars ∧
    (c.tensors .materializedIntermediate).bytes = e.1.miBytes ∧ c.planning = false ∧
    (decidePlan st (e.1.context env) cache c).1 = .ok e.2

/-- What a run keeps: kernels under their keys, pointers as they would be made, and fresh
plans while neither the count of the writes nor `os.environ` has changed. -/
structure Inv (st : Stock) (s : State) : Prop where
  kernels : Keyed s.kernels
  ptrs : PtrsRight s.prepared.ptrs
  gen : ∀ g, s.prepared.envGen = some g → g ≤ s.gen
  plans : s.prepared.envGen = some s.gen → ∀ env, s.prepared.envObj = some env →
    ∀ e ∈ s.prepared.plans, Fresh st (s.envs env).b12x e

theorem Inv.refresh (h : Inv st s) : Inv st s.refresh ∧
    s.refresh.prepared.envGen = some s.gen ∧ s.refresh.prepared.envObj = some s.environ := by
  unfold State.refresh
  split
  · exact ⟨⟨h.kernels, h.ptrs, fun g hg => (Option.some.inj hg).ge,
      fun _ _ _ _ he => absurd he List.not_mem_nil⟩,
      rfl, rfl⟩
  · next hsame =>
    push Not at hsame
    exact ⟨h, hsame⟩

theorem refresh_fields (s : State) : s.refresh.context = s.context ∧ s.refresh.gen = s.gen ∧
    s.refresh.environ = s.environ ∧ s.refresh.envs = s.envs ∧ s.refresh.kernels = s.kernels := by
  unfold State.refresh
  split
  · exact ⟨rfl, rfl, rfl, rfl, rfl⟩
  · exact ⟨rfl, rfl, rfl, rfl, rfl⟩

/-- A plan that is used has a kernel key, and the cache holds its kernel there. -/
theorem planOf_spec {key : PlanKey} {p : Plan} (h : s.planOf key = some p) :
    (key, p) ∈ s.prepared.plans ∧
      ∃ k, p.kernelKey = some k ∧ Memo.get s.kernels k = some p.compiled := by
  obtain ⟨hget, hvalid⟩ := Option.filter_eq_some_iff.mp h
  refine ⟨Memo.mem_of_get hget, ?_⟩
  split at hvalid
  · cases hvalid
  · next k hk => exact ⟨k, hk, of_decide_eq_true hvalid⟩

/-- **A plan that is used is what deciding now gives.** -/
theorem Inv.planOf (h : Inv st s) (hgen : s.prepared.envGen = some s.gen)
    (henv : s.prepared.envObj = some s.environ) (hc : eligible c = true) {p : Plan}
    (hp : s.planOf (s.planKey c) = some p) :
    decidePlan st s.context s.kernels c = (.ok p, s.kernels) := by
  obtain ⟨hmem, k, hk, hget⟩ := planOf_spec hp
  obtain ⟨cache, c', hkeyed, hscalars, hbytes, hplanning, hmade⟩ := h.plans hgen _ henv _ hmem
  have hcongr : decidePlan st s.context cache c = decidePlan st s.context cache c' :=
    decidePlan_congr hscalars.symm hbytes.symm ((eligible_spec hc).2.trans hplanning.symm)
  have hthen : decidePlan st s.context cache c = (.ok p, (decidePlan st s.context cache c).2) := by
    rw [hcongr]
    exact Prod.ext hmade rfl
  exact decidePlan_again hkeyed hthen hk h.kernels hget

theorem Inv.setPtrs (h : Inv st s) {ptrs : PtrMemo} (hright : PtrsRight ptrs) :
    Inv st { s with prepared := { s.prepared with ptrs := ptrs } } :=
  ⟨h.kernels, hright, h.gen, h.plans⟩

/-- A launch leaves everything but the kernels and the adapter's own state. -/
theorem launchWith_spec (h : Inv st s) (p : Plan) (c : Call) :
    (s.launchWith p c).1 = p.outcome c ∧ Inv st (s.launchWith p c).2 := by
  obtain ⟨houtcome, hright⟩ := launchPlan_spec h.ptrs p c
  exact ⟨houtcome, h.setPtrs hright⟩

/-- A plan just made is kept among fresh ones. -/
theorem Inv.keep (h : Inv st s) (hgen : s.prepared.envGen = some s.gen)
    (henv : s.prepared.envObj = some s.environ) {key : PlanKey} {p : Plan}
    (hp : Fresh st (s.envs s.environ).b12x (key, p)) : Inv st (s.keep key p) := by
  refine ⟨h.kernels, h.ptrs, h.gen, fun _ env henv' e he => ?_⟩
  obtain rfl : s.environ = env := Option.some.inj (henv.symm.trans henv')
  have hold := h.plans hgen _ henv
  unfold State.keep at he
  dsimp only at he
  split at he
  · exact hold e (Memo.mem_of_mem_drop he)
  · rcases Memo.mem_put he with rfl | hin
    · exact hp
    · exact hold e hin

theorem Inv.setKernels (h : Inv st s) {cache : KernelCache} (hkeyed : Keyed cache) :
    Inv st { s with kernels := cache } :=
  ⟨hkeyed, h.ptrs, h.gen, h.plans⟩

theorem stockBody_keyed {ctx : Context} {cache : KernelCache} (hkeyed : Keyed cache) (c : Call) :
    Keyed (stockBody st ctx cache c).2 := by
  unfold stockBody
  split
  · exact hkeyed
  · next d trellis kernel mac cache' h =>
    obtain ⟨quantMode, -, h⟩ := ok_of_bind h
    obtain ⟨geometry, -, h⟩ := ok_of_bind h
    obtain ⟨d', -, h⟩ := ok_of_bind h
    obtain ⟨r, hr, h⟩ := ok_of_bind h
    obtain ⟨-, h⟩ := Prod.ext_iff.mp (Except.ok.inj h)
    obtain ⟨-, h⟩ := Prod.ext_iff.mp h
    dsimp only at h
    rw [h] at hr
    exact getDynamicKernel_keyed hkeyed hr

/-- **A launch in a state of a run does what the stock body would**, and leaves a state of a
run with the same kernels. -/
theorem Inv.launch (h : Inv st s) (c : Call) : (s.launch st c).1 = (s.stock st c).1 ∧
    (s.launch st c).2.kernels = (s.stock st c).2 ∧ Inv st (s.launch st c).2 := by
  unfold State.launch
  split
  · exact ⟨rfl, rfl, h.setKernels (stockBody_keyed h.kernels c)⟩
  · next hcond =>
    push Not at hcond
    obtain ⟨-, hc⟩ := hcond
    obtain ⟨hinv, hgen, henv⟩ := h.refresh
    obtain ⟨hcontext, hgen', henviron, henvs, hkernels⟩ := refresh_fields s
    have hstock : s.stock st c = s.refresh.stock st c := by
      unfold State.stock
      rw [hcontext, hkernels]
    have hbody : s.refresh.stock st c = _ := stockBody_eq hc
    rw [hstock, hbody]
    rw [← hgen'] at hgen
    rw [← henviron] at henv
    dsimp only
    split
    · next p hp =>
      rw [hinv.planOf hgen henv hc hp]
      obtain ⟨houtcome, hinv'⟩ := launchWith_spec hinv p c
      exact ⟨houtcome, rfl, hinv'⟩
    · have hkeyed : Keyed (decidePlan st s.refresh.context s.refresh.kernels c).2 :=
        decidePlan_keyed hinv.kernels
      cases hd : decidePlan st s.refresh.context s.refresh.kernels c with
      | mk r kernels =>
        rw [hd] at hkeyed
        cases r with
        | error e => exact ⟨rfl, rfl, hinv.setKernels hkeyed⟩
        | ok p =>
          have hfresh : Fresh st (s.refresh.envs s.refresh.environ).b12x
              (s.refresh.planKey c, p) :=
            ⟨s.refresh.kernels, c, hinv.kernels, rfl, rfl, (eligible_spec hc).2,
              congrArg Prod.fst hd⟩
          have hkept := (hinv.setKernels hkeyed).keep hgen henv hfresh
          obtain ⟨houtcome, hinv'⟩ := launchWith_spec hkept p c
          exact ⟨houtcome, rfl, hinv'⟩

/-- A write that is seen leaves fresh plans, or counts. -/
theorem Inv.touch (h : Inv st s) {env : ℕ} {name : String} {value : Option String}
    (hseen : isB12x name = true → (s.envs env).counts = true ∨ s.prepared.envObj ≠ some env) :
    Inv st (s.touch env name value) := by
  have hle : s.gen ≤ (s.touch env name value).gen := by
    unfold State.touch
    dsimp only
    split <;> omega
  refine ⟨h.kernels, h.ptrs, fun g hg => (h.gen g hg).trans hle, fun hgen env' henv' e he => ?_⟩
  have hgen' : (s.touch env name value).gen = s.gen :=
    le_antisymm (h.gen _ hgen) hle
  have hb12x : ((s.touch env name value).envs env').b12x = (s.envs env').b12x := by
    by_cases hne : env' = env
    · subst hne
      have hname : isB12x name = false := by
        by_contra hname
        rw [Bool.not_eq_false] at hname
        rcases hseen hname with hcounts | hobj
        · unfold State.touch at hgen'
          dsimp only at hgen'
          rw [hcounts, hname] at hgen'
          simp at hgen'
        · exact hobj henv'
      funext other
      unfold Mapping.b12x State.touch
      dsimp only
      rw [Function.update_self]
      split
      · next hother =>
        refine Function.update_of_ne (fun heq => ?_) _ _
        rw [heq, hname] at hother
        cases hother
      · rfl
    · unfold State.touch
      dsimp only
      rw [Function.update_of_ne hne]
  rw [hb12x]
  exact h.plans (hgen'.symm ▸ hgen) env' henv' e he

/-- **Every step that is seen keeps the invariant.** -/
theorem Inv.step (h : Inv st s) {a : Action} (hseen : Seen s a) (hs : step st s a = some s') :
    Inv st s' := by
  cases a with
  | write env name value =>
    obtain rfl := Option.some.inj hs
    exact h.touch hseen
  | delete env name =>
    obtain ⟨-, hs⟩ := Option.ite_none_right_eq_some.mp hs
    obtain rfl := Option.some.inj hs
    exact h.touch hseen
  | evict keeps =>
    obtain rfl := Option.some.inj hs
    exact h.setKernels fun e he => h.kernels e (List.mem_filter.mp he).1
  | recompiled kernel =>
    obtain rfl := Option.some.inj hs
    exact h.setKernels (h.kernels.set kernel)
  | launch c =>
    obtain rfl := Option.some.inj hs
    exact (h.launch c).2.2
  | replace _ | tileOverride _ | swapOverride _ | device _ | prequantized _ | mode _ =>
    obtain rfl := Option.some.inj hs
    exact ⟨h.kernels, h.ptrs, h.gen, h.plans⟩

theorem inv_installed (st : Stock) (envs : ℕ → Mapping) (mode : Mode) :
    Inv st (installed envs mode) :=
  ⟨nofun, nofun, nofun, nofun⟩

/-- **In every run whose changes of the environment are seen, a prepared launch does what the
stock body would do at that moment**: the same side effects in the same order, with the same
kernel and arguments, or the same error; and it leaves the same kernels in the cache. -/
theorem launch_eq_stock (st : Stock) (envs : ℕ → Mapping) (mode : Mode) (s : State)
    (h : Transition.Reachable (step st) Seen (installed envs mode) s) (c : Call) :
    (s.launch st c).1 = (s.stock st c).1 ∧ (s.launch st c).2.kernels = (s.stock st c).2 := by
  have hinv := h.invariant (Inv st) (inv_installed st envs mode)
    fun _ _ _ hinv hseen hs => hinv.step hseen hs
  exact ⟨(hinv.launch c).1, (hinv.launch c).2.1⟩

end Runs

/-! ## A mapping that does not count -/

/-- The tile of plain nvfp4 launches: the variable's, the override's or the planned one. -/
def plainTile (ctx : Context) (shape : Shape) : ℕ × ℕ :=
  if ctx.env "B12X_NEXT_DYNAMIC_TILE_MN" = some "64x128" then (64, 128)
  else ctx.tileMn.getD (shape.plannedTileM, 128)

/-- The other helpers on such launches. -/
def plainStock : Stock where
  normalizeQuantMode := .ok
  isW4a8QuantMode mode := mode == "w4a8_mx"
  isW6a8QuantMode mode := mode == "w6a8_mx"
  intermediateSize n _ := n
  decodeCandidate _ _ := .ok false
  directRoutingSelected _ direct _ := .ok direct
  implMac _ _ _ := .ok 48
  multictaEnabled _ := true
  selectTileMn ctx _ shape := .ok (plainTile ctx shape)
  materializedEnabled _ _ _ _ _ _ := .ok false
  externalRoutePlanSupported _ _ _ _ := .ok false
  materializedBytes _ _ _ := 0
  numSm _ := 48
  computeCapability _ := (12, 1)
  kernelKey ctx args :=
    .ok [if (plainTile ctx ⟨args.quantMode, args.activation, 0, args.E, args.n, false,
      args.plannedTileM⟩).1 = 64 then "64" else "128"]
  compile _ _ := .ok 0
  executionLut := ⟨0, 0, 0, false⟩
  trellisGeometry _ _ _ _ _ := .ok (0, false)

/-- A prefill launch with the largest tile. -/
def plainCall : Call where
  scalars := ⟨384, 34, 5120, 576, 6, 204, 204, 8, 8, true, true, "silu", "nvfp4", false, false,
    false, false, true, none, 1, 0, false, -1, true, 128, false, 34⟩
  tensors _ := ⟨4096, 16, 4, false⟩
  stream := 0
  capturing := false
  planning := false
  observed := false

/-- Empty mappings; only the one of the installation counts. -/
def emptyEnvs : ℕ → Mapping := fun _ => ⟨fun _ => none, false⟩

/-- The environment is replaced, a plan is made, and the new mapping is written. -/
def replacedRun : List Action :=
  [.replace 1, .launch plainCall, .write 1 "B12X_NEXT_DYNAMIC_TILE_MN" "64x128"]

/-- **What is written to a mapping that has replaced `os.environ` is missed**: the plan of the
old tile is launched, where the stock body would run the kernel of the new one. -/
theorem replaced_environ_is_missed : ¬ ∀ (st : Stock) (envs : ℕ → Mapping) (mode : Mode)
    (s : State), Transition.Reachable (step st) (fun _ _ => True) (installed envs mode) s →
    ∀ c : Call, (s.launch st c).1 = (s.stock st c).1 := by
  intro h
  have hrun : ∀ s, Transition.run (step plainStock) (installed emptyEnvs .plan) replacedRun =
      some s → (s.launch plainStock plainCall).1 = (s.stock plainStock plainCall).1 :=
    fun s hs => h plainStock emptyEnvs .plan s
      (.of_run hs (Transition.allowedRun_of_forall (fun _ _ => trivial) _ _)) plainCall
  have hdiffers : (Transition.run (step plainStock) (installed emptyEnvs .plan) replacedRun).any
      (fun s => decide ((s.launch plainStock plainCall).1 ≠ (s.stock plainStock plainCall).1))
      = true := by
    decide +kernel
  obtain ⟨s, hs, hne⟩ := (Option.any_eq_true _ _).mp hdiffers
  exact of_decide_eq_true hne (hrun s hs)

/-- The same change, written to the mapping of the installation. -/
def countedRun : List Action :=
  [.launch plainCall, .write 0 "B12X_NEXT_DYNAMIC_TILE_MN" "64x128"]

theorem countedRun_seen : Transition.AllowedRun (step plainStock) Seen
    (installed emptyEnvs .plan) countedRun := by
  refine ⟨trivial, fun s hs => ⟨fun _ => .inl ?_, fun _ _ => trivial⟩⟩
  obtain rfl := Option.some.inj hs
  decide +kernel

/-- The plan of the old tile is not used. -/
theorem launch_eq_stock_counted :
    ∃ s, Transition.run (step plainStock) (installed emptyEnvs .plan) countedRun = some s ∧
      (s.launch plainStock plainCall).1 = (s.stock plainStock plainCall).1 := by
  obtain ⟨s, hs⟩ : ∃ s, Transition.run (step plainStock) (installed emptyEnvs .plan) countedRun =
      some s := ⟨_, rfl⟩
  exact ⟨s, hs, (launch_eq_stock plainStock emptyEnvs .plan s (.of_run hs countedRun_seen)
    plainCall).1⟩

end MoeLaunch
