import SparkTP4.RowMatrix
import SparkTP4.SwaConePlan

/-!
# A planned request is covered or reverted

`planRequest` moves a match as a whole or not at all (`planRequest_cases`), so the plan on a
request always holds the match that it had (`Planned`). Whatever the selection of the engine
returns, a request that leaves `guardedSelect` with an admission either still has its plan,
and the admission is a chunked pass that covers it, or has its stock match (`Selects`). A
batch of such requests covers every plan, which is what `buildConeBatch` raises about.
-/

namespace SwaCone

variable {Node Token : Type}

/-! ## The plan -/

/-- The slots of whole pages, in order. -/
def pageSlots (page : ℕ) (pages : List ℤ) : List ℤ :=
  pages.flatMap fun q => (List.range page).map fun (t : ℕ) => q * page + (t : ℤ)

/-- A whole page is its page id. -/
theorem row_eq_of_wholePage {page : ℕ} {row : List ℤ} (h : wholePage page row = true) :
    row = (List.range page).map fun (t : ℕ) => Int.fdiv (row.headD 0) page * page + (t : ℤ) := by
  obtain ⟨hslots, hbase⟩ := Bool.and_eq_true_iff.mp h
  have hslots := of_decide_eq_true hslots
  have hbase := of_decide_eq_true hbase
  rw [Int.fdiv_mul_cancel_of_fmod_eq_zero hbase]
  have hrow := congrArg (List.map fun x => row.headD 0 + x) hslots
  rw [List.map_map, List.map_map] at hrow
  refine Eq.trans ?_ hrow
  refine (List.map_id row).symm.trans (List.map_congr_left fun x _ => ?_)
  show x = row.headD 0 + (x - row.headD 0)
  omega

/-- **Whole pages are recorded in order.** -/
theorem seg_eq_pageSlots {page : ℕ} {seg : List ℤ} (hdvd : page ∣ seg.length)
    (h : (pageRows seg page).all (wholePage page) = true) :
    seg = pageSlots page ((pageRows seg page).map fun row => Int.fdiv (row.headD 0) page) := by
  have hmono : Monotone fun j => j * page := fun _ _ hle => Nat.mul_le_mul_right page hle
  have hcuts := RowMatrix.flatMap_cuts seg hmono (Nat.zero_mul page) (seg.length / page)
  rw [Nat.div_mul_cancel hdvd, List.take_length] at hcuts
  unfold pageSlots
  rw [List.flatMap_map]
  refine Eq.trans ?_ (List.flatMap_congr fun row hrow =>
    row_eq_of_wholePage (List.all_eq_true.mp h row hrow))
  unfold pageRows
  rw [List.flatMap_map]
  refine hcuts.symm.trans (List.flatMap_congr fun j _ => ?_)
  rw [Nat.succ_mul, Nat.add_sub_cancel_left]

/-- What `plan_window` guarantees. -/
theorem planWindow_spec {m tokens minSave page s F : ℤ}
    (h : planWindow m (some F) tokens minSave page = some s) :
    s = F - tokens ∧ m < s ∧ minSave ≤ s - m ∧ 0 < tokens ∧ 0 < page ∧ Int.fmod F page = 0 ∧
      Int.fmod tokens page = 0 := by
  simp only [planWindow] at h
  split_ifs at h with hpos hmod hsave
  obtain rfl := Option.some.inj h
  rw [not_or, not_le, not_le] at hpos
  rw [not_or, not_not, not_not] at hmod
  rw [not_or, not_le, not_lt] at hsave
  exact ⟨rfl, hsave.1, hsave.2, hpos.1, hpos.2, hmod.1, hmod.2⟩

/-- **A request that was switched to the cone match**: `req` is the request as the stock match
left it. -/
structure Planned (st : State) (cache : Cache Node Token) (req req' : Req Node Token)
    (plan : Plan Node) : Prop where
  plan_eq : req'.plan = some plan
  info_eq : req'.info = req.info
  stock_eq : plan.stock = req.found
  full : req.found.swaBranchingSeqlen = some plan.fullHit
  start : plan.s = plan.fullHit - st.tokens
  past : (req.found.prefixIndices.length : ℤ) < plan.s
  saves : st.minSave ≤ plan.s - req.found.prefixIndices.length
  tokens_pos : 0 < st.tokens
  page_pos : 0 < cache.pageSize
  full_aligned : cache.pageSize ∣ plan.fullHit
  start_aligned : cache.pageSize ∣ plan.s
  /-- the match in the tree, and its whole pages from `s` to `F` -/
  resident : ∃ node idx, cache.collectFullDeviceIndices node = some idx ∧
    plan.fullHit ≤ idx.length ∧ req'.found = coneMatch req.found node idx plan.s ∧
    (idx.take plan.fullHit.toNat).drop plan.s.toNat =
      pageSlots cache.pageSize.toNat plan.srcPages

/-- The match of a planned request ends at `s`. -/
theorem Planned.length_found {st : State} {cache : Cache Node Token} {req req' : Req Node Token}
    {plan : Plan Node} (h : Planned st cache req req' plan) :
    (req'.found.prefixIndices.length : ℤ) = plan.s := by
  obtain ⟨node, idx, -, hlen, hfound, -⟩ := h.resident
  have hpast := h.past
  have htokens := h.tokens_pos
  have hstart := h.start
  rw [hfound]
  show ((idx.take plan.s.toNat).length : ℤ) = plan.s
  rw [List.length_take_of_le (by omega)]
  omega

/-- How `plan_request` ends: the match is untouched and there is no plan, or the request was
switched to the cone match. -/
inductive PlanCases (st : State) (cache : Cache Node Token) (req : Req Node Token) :
    PlanOutcome Node × Req Node Token → Prop
  | raised : PlanCases st cache req (.raised, { req with plan := none })
  | kept : PlanCases st cache req (.kept, { req with plan := none })
  | planned {req' : Req Node Token} {plan : Plan Node} (h : Planned st cache req req' plan) :
    PlanCases st cache req (.planned plan, req')

theorem planFrom_cases {st : State} {cache : Cache Node Token} {req : Req Node Token} {F s : ℤ}
    (hfull : req.found.swaBranchingSeqlen = some F)
    (hs : planWindow req.found.prefixIndices.length (some F) st.tokens st.minSave cache.pageSize =
      some s) : PlanCases st cache req (planFrom cache { req with plan := none } F s) := by
  obtain ⟨hstart, hpast, hsave, htokens, hpage, hF, hN⟩ := planWindow_spec hs
  unfold planFrom
  dsimp only
  split
  · exact .raised
  · rename_i matched node pinned hmatch
    split_ifs with hfar
    · exact .kept
    · split
      · exact .raised
      · rename_i idx hidx
        split_ifs with hshort hrows
        · exact .kept
        · have hpageNat : (cache.pageSize.toNat : ℤ) = cache.pageSize := Int.toNat_of_nonneg hpage.le
          have hFdvd : cache.pageSize ∣ F := Int.dvd_of_fmod_eq_zero hF
          have hNdvd : cache.pageSize ∣ st.tokens := Int.dvd_of_fmod_eq_zero hN
          have hsdvd : cache.pageSize ∣ s := hstart ▸ Int.dvd_sub hFdvd hNdvd
          have hlen : (((idx.take F.toNat).drop s.toNat).length : ℤ) = st.tokens := by
            rw [List.length_drop, List.length_take_of_le (by omega)]
            omega
          have hdvd : cache.pageSize.toNat ∣ ((idx.take F.toNat).drop s.toNat).length := by
            rwa [← Int.natCast_dvd_natCast, hpageNat, hlen]
          have hseg := seg_eq_pageSlots hdvd hrows
          rw [hpageNat] at hseg
          exact .planned {
            plan_eq := rfl
            info_eq := rfl
            stock_eq := rfl
            full := hfull
            start := hstart
            past := hpast
            saves := hsave
            tokens_pos := htokens
            page_pos := hpage
            full_aligned := hFdvd
            start_aligned := hsdvd
            resident := ⟨node, idx, hidx, Int.not_lt.mp hshort, rfl, hseg⟩ }
        · exact .kept

/-- **`plan_request` leaves the match untouched or moves it as a whole.** -/
theorem planRequest_cases (st : State) (cache : Cache Node Token) (req : Req Node Token) :
    PlanCases st cache req (planRequest st cache req) := by
  unfold planRequest
  dsimp only
  split
  · exact .kept
  · split_ifs
    · exact .kept
    · exact .kept
    · exact .kept
    · split
      · exact .kept
      · rename_i F hfull
        split
        · exact .kept
        · rename_i s hs
          exact planFrom_cases hfull hs

/-! ## The admission -/

section admission

variable {Refusal Other Adder : Type} {st : State} {cache : Cache Node Token}
  {orig : Adder → Req Node Token → SelectArgs Other → Selected Refusal × Adder}

/-- A request before its admission: without a plan, or switched to the cone match. -/
def Ready (st : State) (cache : Cache Node Token) (req req' : Req Node Token) : Prop :=
  req' = { req with plan := none } ∨ ∃ plan, Planned st cache req req' plan

/-- **The hook leaves a request ready.** -/
theorem ready_initNextRoundInput (st : State) (cache : Cache Node Token) (req : Req Node Token) :
    Ready st cache req (initNextRoundInput st cache req).2 := by
  have hcases := planRequest_cases st cache req
  unfold initNextRoundInput
  split_ifs
  · cases hout : planRequest st cache req with
    | mk outcome req' =>
      rw [hout] at hcases
      cases hcases with
      | raised => exact Or.inl rfl
      | kept => exact Or.inl rfl
      | planned h => exact Or.inr ⟨_, h⟩
  · exact Or.inl rfl

theorem Planned.revert_eq {req req' : Req Node Token} {plan : Plan Node}
    (h : Planned st cache req req' plan) : revert req' = { req with plan := none } := by
  unfold revert
  rw [h.plan_eq]
  show ({ req' with found := plan.stock, plan := none } : Req Node Token) = _
  rw [h.stock_eq, ← h.info_eq]

/-- **How `guarded_select` ends**, for a request that was `req` after its stock match. -/
inductive Selects (orig : Adder → Req Node Token → SelectArgs Other → Selected Refusal × Adder)
    (st : State) (cache : Cache Node Token) (req req' : Req Node Token) (adder : Adder)
    (args : SelectArgs Other) : Selected Refusal × Adder × Req Node Token → Prop
  /-- there is no plan: the selection of the stock match -/
  | stock (hreq : req' = { req with plan := none }) :
    Selects orig st cache req req' adder args
      ((orig adder req' args).1, (orig adder req' args).2, req')
  /-- the request is refused -/
  | refused {reason : Refusal} {adder' : Adder} :
    Selects orig st cache req req' adder args (.refusal reason, adder', req')
  /-- a chunked first pass from `s` on covers the replay, and the plan is kept -/
  | covered {plan : Plan Node} {extendLen : ℤ} {adder' : Adder}
      (hplan : Planned st cache req req' plan) (hn : plan.n ≤ extendLen)
      (hstart : (req'.found.prefixIndices.length : ℤ) = plan.s) :
    Selects orig st cache req req' adder args (.admission extendLen true, adder', req')
  /-- the stock match is restored, and the request is selected again -/
  | reverted {plan : Plan Node} {adder' : Adder} (hplan : Planned st cache req req' plan) :
    Selects orig st cache req req' adder args
      (let again := orig adder' { req with plan := none } { args with
        totalTokens := args.totalTokens.map (· + (plan.s - req.found.prefixIndices.length)) }
      (again.1, again.2, { req with plan := none }))

/-- **The cases of `guarded_select`**, whatever the selections return. -/
theorem guardedSelect_cases {req req' : Req Node Token} (hready : Ready st cache req req')
    (adder : Adder) (args : SelectArgs Other) :
    Selects orig st cache req req' adder args (guardedSelect orig adder req' args) := by
  rcases hready with hnone | ⟨plan, hplan⟩
  · have hplan : req'.plan = none := by rw [hnone]
    unfold guardedSelect
    rw [hplan]
    exact .stock hnone
  · unfold guardedSelect
    rw [hplan.plan_eq]
    generalize orig adder req' args = first
    obtain ⟨selected, adder'⟩ := first
    cases selected with
    | refusal reason => exact .refused
    | admission extendLen isChunked =>
      dsimp only
      split_ifs with hcovers
      · rw [hcovers.2]
        exact .covered hplan hcovers.1 hplan.length_found
      · rw [hplan.revert_eq, hplan.stock_eq]
        exact .reverted hplan

end admission

/-! ## The batch -/

section batch

/-- The pass of a request covers its plan. -/
def Extend.Covers (x : Extend Node Token) : Prop :=
  ∀ plan, x.req.plan = some plan → x.pre = plan.s ∧ plan.n ≤ x.ext

/-- The rows of the extend before request `i`. -/
def rowsBefore (batch : List (Extend Node Token)) (i : ℕ) : ℤ := ((batch.take i).map Extend.ext).sum

/-- What the batch notes of a request that replays, with its rows from `start` on. -/
def Extend.entry (x : Extend Node Token) (start : ℤ) : Option ConeEntry :=
  x.req.plan.map fun plan =>
    { start := start, n := plan.n, ext := x.ext, s := plan.s, srcPages := plan.srcPages }

/-- The entries of the requests from row `start` on. -/
def entriesFrom (start : ℤ) (batch : List (Extend Node Token)) : List ConeEntry :=
  (List.range batch.length).filterMap fun i =>
    batch[i]?.bind fun x => x.entry (start + rowsBefore batch i)

/-- The requests without their plans. -/
def consumed (batch : List (Extend Node Token)) : List (Req Node Token) :=
  batch.map fun x => { x.req with plan := none }

theorem entriesFrom_cons (start : ℤ) (x : Extend Node Token) (batch : List (Extend Node Token)) :
    entriesFrom start (x :: batch) = (x.entry start).toList ++ entriesFrom (start + x.ext) batch := by
  unfold entriesFrom
  rw [List.length_cons, List.range_succ_eq_map, List.filterMap_cons, List.filterMap_map]
  have hhead : (x :: batch)[0]?.bind (fun y => y.entry (start + rowsBefore (x :: batch) 0)) =
      x.entry start := by
    show x.entry (start + 0) = _
    rw [Int.add_zero]
  have htail : ((List.range batch.length).filterMap ((fun i => (x :: batch)[i]?.bind fun y =>
      y.entry (start + rowsBefore (x :: batch) i)) ∘ Nat.succ)) =
      (List.range batch.length).filterMap fun i =>
        batch[i]?.bind fun y => y.entry (start + x.ext + rowsBefore batch i) := by
    refine List.filterMap_congr fun i _ => ?_
    show (x :: batch)[i + 1]?.bind (fun y => y.entry (start + rowsBefore (x :: batch) (i + 1))) = _
    rw [List.getElem?_cons_succ]
    refine congrArg (Option.bind batch[i]?) (funext fun y => congrArg y.entry ?_)
    show start + ((x :: batch.take i).map Extend.ext).sum = _
    rw [List.map_cons, List.sum_cons, ← add_assoc]
    rfl
  rw [hhead, htail]
  cases x.entry start <;> rfl

/-- **A batch that covers its plans does not raise**, and it consumes them. -/
theorem coneEntries_eq {batch : List (Extend Node Token)} (h : ∀ x ∈ batch, x.Covers) (start : ℤ) :
    coneEntries start batch = some (entriesFrom start batch, consumed batch) := by
  induction batch generalizing start with
  | nil => rfl
  | cons x batch ih =>
    have htail := ih (fun y hy => h y (List.mem_cons_of_mem x hy)) (start + x.ext)
    have hcovers := h x List.mem_cons_self
    rw [entriesFrom_cons]
    unfold coneEntries Extend.entry consumed
    cases hplan : x.req.plan with
    | none =>
      have hself : ({ x.req with plan := none } : Req Node Token) = x.req := by rw [← hplan]
      dsimp only
      rw [htail, List.map_cons, hself]
      rfl
    | some plan =>
      obtain ⟨hpre, hext⟩ := hcovers plan hplan
      dsimp only
      rw [if_neg (by omega), htail]
      rfl

/-- The batch object, where there is an entry. -/
def coneBatch (entries : List ConeEntry) (page : ℤ) : Option ConeBatch :=
  if entries.isEmpty then none else some { entries := entries, page := page }

theorem buildConeBatch_eq {batch : List (Extend Node Token)} (h : ∀ x ∈ batch, x.Covers)
    (page : ℤ) :
    buildConeBatch batch page = some (coneBatch (entriesFrom 0 batch) page, consumed batch) := by
  unfold buildConeBatch
  rw [coneEntries_eq h]
  rfl

/-- Requests without plans leave no entry. -/
theorem entriesFrom_of_plan_none {batch : List (Extend Node Token)}
    (h : ∀ x ∈ batch, x.req.plan = none) (start : ℤ) : entriesFrom start batch = [] := by
  induction batch generalizing start with
  | nil => rfl
  | cons x batch ih =>
    have hx : x.entry start = none := by
      unfold Extend.entry
      rw [h x List.mem_cons_self]
      rfl
    rw [entriesFrom_cons, hx, ih fun y hy => h y (List.mem_cons_of_mem x hy)]
    rfl

/-- **A plan is consumed once**: a later batch of the same requests, with any lengths, replays
nothing. -/
theorem buildConeBatch_consumed {batch again : List (Extend Node Token)}
    (hagain : again.map Extend.req = consumed batch) (page : ℤ) :
    buildConeBatch again page = some (none, consumed batch) := by
  have hnone : ∀ x ∈ again, x.req.plan = none := by
    intro x hx
    have hmem : x.req ∈ consumed batch := hagain ▸ List.mem_map_of_mem hx
    obtain ⟨y, -, hy⟩ := List.mem_map.mp hmem
    rw [← hy]
  have hself : consumed again = again.map Extend.req :=
    List.map_congr_left fun x hx => by rw [← hnone x hx]
  rw [buildConeBatch_eq (fun x hx plan hplan => by simp [hnone x hx] at hplan),
    entriesFrom_of_plan_none hnone, hself, hagain]
  rfl

variable {Refusal Other Adder : Type} {cache : Cache Node Token}
  {orig : Adder → Req Node Token → SelectArgs Other → Selected Refusal × Adder}

/-- **A member of an admitted batch**: a request in its first pass, whose match the hook has
just left and which the guarded selection has admitted, or one that goes on after its first
pass, without a plan. -/
inductive Admitted (orig : Adder → Req Node Token → SelectArgs Other → Selected Refusal × Adder)
    (cache : Cache Node Token) : Extend Node Token → Prop
  | first (st : State) (req : Req Node Token) (adder : Adder) (args : SelectArgs Other)
      {extendLen : ℤ} {isChunked : Bool} {adder' : Adder} {req' : Req Node Token}
      (h : guardedSelect orig adder (initNextRoundInput st cache req).2 args =
        (.admission extendLen isChunked, adder', req')) :
    Admitted orig cache { req := req', pre := req'.found.prefixIndices.length, ext := extendLen }
  | resumed {x : Extend Node Token} (h : x.req.plan = none) : Admitted orig cache x

/-- An admission covers the plan that it keeps. -/
theorem Selects.covers {st : State} {req req' req'' : Req Node Token} {adder adder' : Adder}
    {args : SelectArgs Other} {extendLen : ℤ} {isChunked : Bool}
    {out : Selected Refusal × Adder × Req Node Token}
    (h : Selects orig st cache req req' adder args out)
    (hout : out = (.admission extendLen isChunked, adder', req'')) :
    Extend.Covers { req := req'', pre := req''.found.prefixIndices.length, ext := extendLen } := by
  intro plan hplan
  dsimp only at hplan ⊢
  cases h with
  | stock hreq =>
    obtain rfl : req' = req'' := congrArg (fun out => out.2.2) hout
    rw [hreq] at hplan
    cases hplan
  | refused => cases congrArg Prod.fst hout
  | covered hkept hn hstart =>
    obtain rfl : req' = req'' := congrArg (fun out => out.2.2) hout
    obtain rfl := Option.some.inj (hkept.plan_eq.symm.trans hplan)
    have hext := congrArg Prod.fst hout
    cases hext
    exact ⟨hstart, hn⟩
  | reverted hreverted =>
    have hreq : ({ req with plan := none } : Req Node Token) = req'' :=
      congrArg (fun out => out.2.2) hout
    rw [← hreq] at hplan
    cases hplan

theorem Admitted.covers {x : Extend Node Token} (h : Admitted orig cache x) : x.Covers := by
  cases h with
  | first st req adder args h =>
    exact (guardedSelect_cases (ready_initNextRoundInput st cache req) adder args).covers h
  | resumed h =>
    intro plan hplan
    rw [h] at hplan
    cases hplan

end batch

/-! ## Plan, admission and batch -/

section

variable {Refusal Other Adder : Type}

/-- **A planned request is covered or reverted.** `plan_request` leaves the match untouched or
moves it as a whole to the cone match; whatever the two selections return, `guarded_select`
returns a refusal, a chunked pass from `s` on that covers the plan, or a selection that was
made with the stock match and the longer extend; and the plans of an admitted batch are
consumed without an error, once, each with the rows of its request. -/
theorem planned_covered_or_reverted (cache : Cache Node Token)
    (orig : Adder → Req Node Token → SelectArgs Other → Selected Refusal × Adder) :
    (∀ (st : State) (req : Req Node Token), PlanCases st cache req (planRequest st cache req)) ∧
    (∀ (st : State) (req : Req Node Token) (adder : Adder) (args : SelectArgs Other),
      Selects orig st cache req (initNextRoundInput st cache req).2 adder args
        (guardedSelect orig adder (initNextRoundInput st cache req).2 args)) ∧
    ∀ batch : List (Extend Node Token), (∀ x ∈ batch, Admitted orig cache x) → ∀ page : ℤ,
      buildConeBatch batch page = some (coneBatch (entriesFrom 0 batch) page, consumed batch) ∧
      ∀ again : List (Extend Node Token), again.map Extend.req = consumed batch →
        buildConeBatch again page = some (none, consumed batch) := by
  refine ⟨fun st req => planRequest_cases st cache req, ?_, ?_⟩
  · intro st req adder args
    exact guardedSelect_cases (ready_initNextRoundInput st cache req) adder args
  · intro batch hbatch page
    exact ⟨buildConeBatch_eq (fun x hx => (hbatch x hx).covers) page,
      fun again hagain => buildConeBatch_consumed hagain page⟩

end

/-- A cache with pages of one slot that holds a prefix of four tokens. -/
def smallCache : Cache Unit ℕ where
  treeCore := true
  disable := false
  enableHicache := false
  enableSessionRadixCache := false
  isMambaEnabled := false
  decoderSwaBoundedReplay := true
  linker := false
  freeOutOfWindowSlots := true
  swaComponent := some 2
  pageSize := 1
  slidingWindowSize := 2
  matchFullDevicePrefix := fun _ => some (4, (), 4)
  collectFullDeviceIndices := fun _ => some [5, 6, 7, 8]

/-- A replay of three tokens. -/
def smallState : State where
  active := true
  earlyLayers := some 1
  tokens := 3
  minSave := 1
  test := false
  treePinsOk := true

/-- A request whose stock match is empty, while four of its tokens are resident. -/
def smallReq : Req Unit ℕ where
  info := {
    session := false
    multimodalInputs := false
    inputEmbeds := false
    positionalEmbedOverrides := false
    returnLogprob := false
    logprobStartLen := -1
    originInputLen := 9
    isDllm := false
    refRid := false
    fullUntruncatedFillIds := [1, 2, 3, 4, 5, 6, 7, 8, 9]
    extraKey := none
    cacheSalt := none }
  found := {
    prefixIndices := []
    lastNode := ()
    lastHostNode := ()
    bestMatchNode := ()
    hostHitLength := 0
    swaHostHitLength := 0
    swaBranchingSeqlen := some 4
    cacheProtectedLen := 0 }
  plan := none

/-- The selection that admits a chunk of three rows. -/
def chunkSelect : Unit → Req Unit ℕ → SelectArgs Unit → Selected Unit × Unit :=
  fun _ _ _ => (.admission 3 true, ())

/-- The replay of a request behind one that goes on with two rows. -/
theorem planned_covered_or_reverted_small :
    buildConeBatch [{ req := smallReq, pre := 6, ext := 2 },
      { req := (initNextRoundInput smallState smallCache smallReq).2, pre := 1, ext := 3 }] 1 =
    some (some ⟨[⟨2, 3, 3, 1, [6, 7, 8]⟩], 1⟩,
      [smallReq, { (initNextRoundInput smallState smallCache smallReq).2 with plan := none }]) := by
  refine ((planned_covered_or_reverted smallCache chunkSelect).2.2 _ ?_ 1).1.trans rfl
  intro x hx
  rcases List.mem_pair.mp hx with rfl | rfl
  · exact .resumed rfl
  · exact .first smallState smallReq () { totalTokens := some 9, other := () } rfl

end SwaCone
