import Mathlib.Algebra.BigOperators.Intervals
import Mathlib.Algebra.Order.BigOperators.Group.Finset
import Mathlib.Data.Nat.Find
import Mathlib.Tactic.Common
import Mathlib.Data.Int.ConditionallyCompleteOrder

/-!
# The decode yield

After a chunk that is not the last of its prompt, `decode_yield.py` defers the next prefill
until the running streams have had their share of decode time. The time is a budget in
modelled microseconds, fixed when the chunk is scheduled (`Scheduler.armAfter`), and each
deferred round is charged at the batch size it has (`Scheduler.deferStep`). The rule of the
engine, whose interval counter the same chunk arms, decides when no yield does.

The bounds of the budget, at least the configured interval and at most `maxSteps`
rounds, are taken at the batch size of the arming. The number of rounds keeps them exactly
when the sizes of the rounds do not drift too far from it (`yield_bounds_iff`).
-/

namespace DecodeYield

/-- `MAX_STEPS` -/
def maxSteps : ℤ := 128

/-- `chunk_us` -/
def chunkUs (tokens start : ℤ) : ℤ := tokens * (1354500 + start * 487 / 1000) / 8192

/-- `step_us` -/
def stepUs (bs : ℤ) : ℤ := 26300 + 15200 * bs

/-- `yield_budget_us` -/
def yieldBudgetUs (pct tokens start bs interval : ℤ) : ℤ :=
  let c := chunkUs tokens start
  let s := stepUs bs
  let want := -(-pct * c / (100 - pct))
  let lo := max interval 0 * s
  let hi := maxSteps * s
  min (max want lo) hi

/-- What the deferral reads of `running_batch`. -/
structure RunningBatch where
  size : ℕ
  isPrefillOnly : Bool

/-- `_decode_rows` -/
def decodeRows : Option RunningBatch → Bool
  | none => false
  | some batch => batch.size ≠ 0 && !batch.isPrefillOnly

/-- What `arm_after` reads of the batch that the engine has scheduled. -/
structure Batch where
  chunkedReq : Option ℕ
  /-- `batch is plan.running_batch` -/
  isRunning : Bool
  /-- the forward mode is `EXTEND` -/
  extend : Bool
  extendNumTokens : ℕ
  /-- the prefix of the chunk: the start of its extend range -/
  start : ℕ

structure Plan where
  batchToRun : Option Batch
  runningBatch : Option RunningBatch

/-- The settings of the engine that the deferral reads. -/
structure Config where
  /-- `prefill_decode_interval` -/
  interval : ℕ
  /-- `prefill_decode_interval_min_bs` -/
  minBs : ℕ
  /-- `require_mlp_sync` -/
  mlpSync : Bool
  dllm : Bool

/-- The fields of the scheduler that the deferral reads and writes, with the counts of `_Stats`. -/
structure Scheduler where
  chunkedReq : Option ℕ
  /-- `_dsv41_yield_left_us` -/
  yieldLeftUs : ℤ
  /-- `_prefill_decode_interval_remaining` -/
  intervalRemaining : ℕ
  yields : ℕ
  steps : ℕ
  cancels : ℕ

/-- `arm_after`; `share` is the share that `share_for` finds for a request. -/
def Scheduler.armAfter (cfg : Config) (share : ℕ → ℤ) (S : Scheduler) (plan : Plan) : Scheduler :=
  match plan.batchToRun with
  | none => S
  | some batch =>
    if cfg.mlpSync ∨ cfg.dllm then S
    else
      match batch.chunkedReq with
      | none => S
      | some long =>
        if S.chunkedReq ≠ some long ∨ batch.isRunning ∨ ¬batch.extend then S
        else
          match plan.runningBatch with
          | none => S
          | some running =>
            if ¬decodeRows (some running) ∨ share long ≤ 0 ∨ batch.extendNumTokens ≤ 0 then S
            else
              { S with
                yieldLeftUs := yieldBudgetUs (share long) batch.extendNumTokens batch.start running.size
                  cfg.interval
                yields := S.yields + 1 }

/-- `defer_step`; `none` is to fall through to the rule of the engine. -/
def Scheduler.deferStep (S : Scheduler) (running : Option RunningBatch) : Option Bool × Scheduler :=
  if S.yieldLeftUs ≤ 0 then (none, S)
  else if ¬decodeRows running ∨ S.chunkedReq = none then
    (some false, { S with yieldLeftUs := 0, intervalRemaining := 0, cancels := S.cancels + 1 })
  else
    (some true, { S with
      yieldLeftUs := S.yieldLeftUs - stepUs (running.elim (0 : ℕ) (·.size) : ℕ)
      intervalRemaining := 0
      steps := S.steps + 1 })

/-- The engine's `_should_defer_prefill`. -/
def Scheduler.originalDefer (cfg : Config) (S : Scheduler) (running : Option RunningBatch) :
    Bool × Scheduler :=
  if S.intervalRemaining = 0 then (false, S)
  else if running.elim 0 (·.size) < cfg.minBs then (false, { S with intervalRemaining := 0 })
  else (true, { S with intervalRemaining := S.intervalRemaining - 1 })

/-- `_should_defer_prefill` -/
def Scheduler.shouldDeferPrefill (cfg : Config) (S : Scheduler) (running : Option RunningBatch) :
    Bool × Scheduler :=
  match S.deferStep running with
  | (none, T) => T.originalDefer cfg running
  | (some decided, T) => (decided, T)

/-- What a round of the scheduler finds: the running batch and the chunked request. -/
structure Round where
  running : Option RunningBatch
  chunkedReq : Option ℕ

/-- The batch size of a round. -/
def Round.size (x : Round) : ℕ := x.running.elim 0 (·.size)

/-- Whether the prefill of a round is deferred. -/
def Scheduler.round (cfg : Config) (S : Scheduler) (x : Round) : Bool × Scheduler :=
  Scheduler.shouldDeferPrefill cfg { S with chunkedReq := x.chunkedReq } x.running

/-- The scheduler after the first rounds that follow a chunk. -/
def Scheduler.after (cfg : Config) (S : Scheduler) (rounds : ℕ → Round) : ℕ → Scheduler
  | 0 => S
  | k + 1 => ((S.after cfg rounds k).round cfg (rounds k)).2

def Scheduler.defers (cfg : Config) (S : Scheduler) (rounds : ℕ → Round) (k : ℕ) : Bool :=
  ((S.after cfg rounds k).round cfg (rounds k)).1

/-- The modelled time of the first rounds. -/
def spentUs (rounds : ℕ → Round) (n : ℕ) : ℤ := ∑ k ∈ Finset.range n, stepUs (rounds k).size

section Yield

variable {cfg : Config} {share : ℕ → ℤ} {S T : Scheduler} {rounds : ℕ → Round} {budget : ℤ} {n : ℕ}

/-! ## The modelled time -/

theorem stepUs_pos (bs : ℕ) : 0 < stepUs bs := by
  unfold stepUs
  omega

theorem spentUs_succ (rounds : ℕ → Round) (n : ℕ) :
    spentUs rounds (n + 1) = spentUs rounds n + stepUs (rounds n).size :=
  Finset.sum_range_succ _ n

theorem spentUs_strictMono (rounds : ℕ → Round) : StrictMono (spentUs rounds) := by
  refine strictMono_nat_of_lt_succ fun n => ?_
  rw [spentUs_succ]
  exact Int.lt_add_of_pos_right _ (stepUs_pos _)

/-- Every budget is spent after some rounds. -/
theorem exists_le_spentUs (rounds : ℕ → Round) (budget : ℤ) : ∃ n, budget ≤ spentUs rounds n := by
  have hle (n : ℕ) : (n : ℤ) ≤ spentUs rounds n := by
    induction n with
    | zero => exact le_refl _
    | succ n ih =>
      rw [spentUs_succ]
      have hpos := stepUs_pos (rounds n).size
      omega
  exact ⟨budget.toNat, le_trans (Int.self_le_toNat budget) (hle _)⟩

/-- How many rounds a budget lasts. -/
theorem interval_le_iff (hlast : ∀ k < n, spentUs rounds k < budget) (hn : budget ≤ spentUs rounds n)
    (hpos : 0 < budget) (interval : ℕ) : interval ≤ n ↔ spentUs rounds (interval - 1) < budget := by
  constructor
  · intro hle
    cases interval with
    | zero => exact hpos
    | succ m => exact hlast m hle
  · intro hlt
    have hltn := (spentUs_strictMono rounds).lt_iff_lt.mp (lt_of_lt_of_le hlt hn)
    omega

theorem le_steps_iff (hlast : ∀ k < n, spentUs rounds k < budget) (hn : budget ≤ spentUs rounds n)
    (steps : ℕ) : n ≤ steps ↔ budget ≤ spentUs rounds steps := by
  constructor
  · intro hle
    exact le_trans hn ((spentUs_strictMono rounds).monotone hle)
  · intro hle
    exact not_lt.mp fun hlt => absurd hle (not_le.mpr (hlast steps hlt))

/-! ## The budget -/

/-- The decode time owed for the chunk at its share. -/
def wantUs (pct tokens start : ℤ) : ℤ := -(-pct * chunkUs tokens start / (100 - pct))

theorem chunkUs_pos {tokens : ℕ} (htokens : 0 < tokens) (start : ℕ) : 0 < chunkUs tokens start := by
  unfold chunkUs
  have hle : (8192 : ℤ) ≤ tokens * (1354500 + start * 487 / 1000) := by
    calc (8192 : ℤ) ≤ 1 * (1354500 + start * 487 / 1000) := by omega
      _ ≤ tokens * (1354500 + start * 487 / 1000) := by
        refine Int.mul_le_mul_of_nonneg_right ?_ ?_ <;> omega
  omega

theorem wantUs_pos {pct : ℤ} (hpct : 0 < pct) (hle : pct ≤ 90) {tokens : ℕ} (htokens : 0 < tokens)
    (start : ℕ) : 0 < wantUs pct tokens start := by
  unfold wantUs
  have hneg : -pct * chunkUs tokens start < 0 := by
    rw [Int.neg_mul]
    exact Int.neg_neg_of_pos (Int.mul_pos hpct (chunkUs_pos htokens start))
  have hdiv := Int.ediv_neg_of_neg_of_pos hneg (by omega : 0 < 100 - pct)
  omega

theorem yieldBudgetUs_pos {pct : ℤ} (hpct : 0 < pct) (hle : pct ≤ 90) {tokens : ℕ}
    (htokens : 0 < tokens) (start bs interval : ℕ) :
    0 < yieldBudgetUs pct tokens start bs interval :=
  lt_min (lt_max_of_lt_left (wantUs_pos hpct hle htokens start))
    (Int.mul_pos (by decide) (stepUs_pos bs))

/-- **An armed yield** has the budget of its chunk. -/
theorem Scheduler.armAfter_armed {batch : Batch} {running : RunningBatch} {long : ℕ}
    (hlong : batch.chunkedReq = some long)
    (harmed : (S.armAfter cfg share ⟨some batch, some running⟩).yields = S.yields + 1) :
    0 < share long ∧ 0 < batch.extendNumTokens ∧
      S.armAfter cfg share ⟨some batch, some running⟩ = { S with
        yieldLeftUs := yieldBudgetUs (share long) batch.extendNumTokens batch.start running.size
          cfg.interval
        yields := S.yields + 1 } := by
  have hne : ¬S.yields = S.yields + 1 := by omega
  unfold Scheduler.armAfter at harmed ⊢
  dsimp only at harmed ⊢
  rw [hlong] at harmed ⊢
  dsimp only at harmed ⊢
  split_ifs at harmed ⊢ with h₁ h₂ h₃
  · exact absurd harmed hne
  · exact absurd harmed hne
  · exact absurd harmed hne
  · refine ⟨?_, ?_, rfl⟩
    · exact not_le.mp fun hle => h₃ (.inr (.inl hle))
    · exact not_le.mp fun hle => h₃ (.inr (.inr hle))

/-! ## The rounds of a yield -/

/-- A decode row is running and a chunked prompt is in flight. -/
def Round.live (x : Round) : Bool := decodeRows x.running && x.chunkedReq.isSome

theorem Round.live_iff (x : Round) :
    x.live = true ↔ ¬(¬decodeRows x.running = true ∨ x.chunkedReq = none) := by
  unfold Round.live
  rw [Bool.and_eq_true, not_or, not_not, Option.isSome_iff_ne_none]

/-- **A deferred round** of a yield. -/
theorem Scheduler.round_live (hleft : 0 < S.yieldLeftUs) {x : Round} (hx : x.live = true) :
    S.round cfg x = (true, { S with
      chunkedReq := x.chunkedReq
      yieldLeftUs := S.yieldLeftUs - stepUs x.size
      intervalRemaining := 0
      steps := S.steps + 1 }) := by
  unfold Scheduler.round Scheduler.shouldDeferPrefill Scheduler.deferStep
  rw [if_neg (not_le.mpr hleft), if_neg (x.live_iff.mp hx)]
  rfl

/-- **A cancelled yield** defers no round. -/
theorem Scheduler.round_cancelled (hleft : 0 < S.yieldLeftUs) {x : Round} (hx : x.live = false) :
    (S.round cfg x).1 = false ∧ (S.round cfg x).2.cancels = S.cancels + 1 := by
  have hdead := not_not.mp (mt x.live_iff.mpr (Bool.eq_false_iff.mp hx))
  unfold Scheduler.round Scheduler.shouldDeferPrefill Scheduler.deferStep
  rw [if_neg (not_le.mpr hleft), if_pos hdead]
  exact ⟨rfl, rfl⟩

/-- **A yield that is over** leaves nothing to the rule of the engine. -/
theorem Scheduler.round_over (hleft : S.yieldLeftUs ≤ 0) (hinterval : S.intervalRemaining = 0)
    (x : Round) : (S.round cfg x).1 = false ∧ (S.round cfg x).2.cancels = S.cancels := by
  unfold Scheduler.round Scheduler.shouldDeferPrefill Scheduler.deferStep
  rw [if_pos hleft]
  unfold Scheduler.originalDefer
  dsimp only
  rw [if_pos hinterval]
  exact ⟨rfl, rfl⟩

/-- What the first rounds of a yield have changed. -/
structure Yielding (budget : ℤ) (T : Scheduler) (rounds : ℕ → Round) (k : ℕ) (S : Scheduler) : Prop where
  left : S.yieldLeftUs = budget - spentUs rounds k
  steps : S.steps = T.steps + k
  cancels : S.cancels = T.cancels
  interval : k ≠ 0 → S.intervalRemaining = 0

/-- **The rounds before the budget is spent or the yield cancelled.** -/
theorem Scheduler.after_yielding (hbudget : T.yieldLeftUs = budget)
    (h : ∀ k < n, spentUs rounds k < budget ∧ (rounds k).live = true) :
    ∀ k ≤ n, Yielding budget T rounds k (T.after cfg rounds k) := by
  intro k hk
  induction k with
  | zero =>
    refine ⟨?_, rfl, rfl, fun hne => absurd rfl hne⟩
    exact hbudget.trans (Int.sub_zero budget).symm
  | succ k ih =>
    have hyielding := ih (Nat.le_of_succ_le hk)
    obtain ⟨hspent, hlive⟩ := h k hk
    have hleft : 0 < (T.after cfg rounds k).yieldLeftUs := by
      rw [hyielding.left]
      exact Int.sub_pos_of_lt hspent
    have hround := @Scheduler.round_live cfg _ hleft _ hlive
    unfold Scheduler.after
    rw [hround]
    refine ⟨?_, ?_, hyielding.cancels, fun _ => rfl⟩
    · show (T.after cfg rounds k).yieldLeftUs - stepUs (rounds k).size = _
      rw [hyielding.left, spentUs_succ, Int.sub_sub]
    · show (T.after cfg rounds k).steps + 1 = _
      rw [hyielding.steps]
      rfl

/-- **Where a yield ends**: at the round at which its budget is spent, or which finds no
decode row or no chunked prompt. -/
theorem exists_end (rounds : ℕ → Round) (budget : ℤ) : ∃ n,
    (∀ k < n, spentUs rounds k < budget ∧ (rounds k).live = true) ∧
      (budget ≤ spentUs rounds n ∨ (rounds n).live = false) := by
  have hex : ∃ n, budget ≤ spentUs rounds n ∨ (rounds n).live = false :=
    (exists_le_spentUs rounds budget).imp fun _ => Or.inl
  refine ⟨Nat.find hex, fun k hk => ?_, Nat.find_spec hex⟩
  have hbefore := Nat.find_min hex hk
  exact ⟨not_le.mp fun hle => hbefore (.inl hle), Bool.not_eq_false _ ▸ fun hlive => hbefore (.inr hlive)⟩

/-! ## The bounds -/

/-- **The rounds do not drift from the batch size `bs` of the arming**: those before the last one
of the interval take less time than the interval, or the share, does at `bs`, and than
`maxSteps` rounds; and `maxSteps` rounds take as much time at their sizes as at `bs`, or
as the interval and the share. -/
structure Steady (interval : ℕ) (pct tokens start bs : ℤ) (rounds : ℕ → Round) : Prop where
  long : spentUs rounds (interval - 1) < wantUs pct tokens start ∨
    spentUs rounds (interval - 1) < interval * stepUs bs
  capped : spentUs rounds (interval - 1) < maxSteps * stepUs bs
  short : wantUs pct tokens start ≤ spentUs rounds 128 ∧ interval * stepUs bs ≤ spentUs rounds 128 ∨
    maxSteps * stepUs bs ≤ spentUs rounds 128

theorem steady_iff (interval : ℕ) (pct tokens start bs : ℤ) (rounds : ℕ → Round) :
    Steady interval pct tokens start bs rounds ↔
      spentUs rounds (interval - 1) < yieldBudgetUs pct tokens start bs interval ∧
        yieldBudgetUs pct tokens start bs interval ≤ spentUs rounds 128 := by
  have hbudget : yieldBudgetUs pct tokens start bs interval =
      min (max (wantUs pct tokens start) (interval * stepUs bs)) (maxSteps * stepUs bs) := by
    unfold yieldBudgetUs
    rw [max_eq_left (Int.natCast_nonneg interval)]
    rfl
  rw [hbudget, lt_min_iff, lt_max_iff, min_le_iff, max_le_iff]
  exact ⟨fun h => ⟨⟨h.long, h.capped⟩, h.short⟩, fun h => ⟨h.1.1, h.1.2, h.2⟩⟩

/-- **How long a yield defers**: it ends, every round that is deferred before is its own and
the interval counter of the engine defers no other; and unless it is cancelled, the
number of its rounds keeps the bounds exactly when they are steady. -/
theorem yield_bounds_iff {batch : Batch} {running : RunningBatch} {long : ℕ}
    (hlong : batch.chunkedReq = some long) (hshare : share long ≤ 90)
    (harmed : (S.armAfter cfg share ⟨some batch, some running⟩).yields = S.yields + 1)
    (hT : T = S.armAfter cfg share ⟨some batch, some running⟩) (rounds : ℕ → Round) : ∃ n,
      (∀ k < n, T.defers cfg rounds k = true) ∧ T.defers cfg rounds n = false ∧
      (T.after cfg rounds n).steps = T.steps + n ∧
      ((T.after cfg rounds (n + 1)).cancels = T.cancels →
        (cfg.interval ≤ n ∧ n ≤ 128 ↔ Steady cfg.interval (share long) batch.extendNumTokens
          batch.start running.size rounds)) := by
  obtain ⟨hpct, htokens, heq⟩ := Scheduler.armAfter_armed hlong harmed
  have hpos := yieldBudgetUs_pos hpct hshare htokens batch.start running.size cfg.interval
  have hleft : T.yieldLeftUs = yieldBudgetUs (share long) batch.extendNumTokens batch.start
      running.size cfg.interval := by rw [hT, heq]
  obtain ⟨n, hbefore, hend⟩ := exists_end rounds T.yieldLeftUs
  have hyielding := @Scheduler.after_yielding cfg _ _ _ _ rfl hbefore
  have hleftAt (k : ℕ) (hk : k ≤ n) (hspent : spentUs rounds k < T.yieldLeftUs) :
      0 < (T.after cfg rounds k).yieldLeftUs := by
    rw [(hyielding k hk).left]
    exact Int.sub_pos_of_lt hspent
  refine ⟨n, fun k hk => ?_, ?_, (hyielding n le_rfl).steps, fun hcancels => ?_⟩
  · exact congrArg Prod.fst
      (Scheduler.round_live (hleftAt k hk.le (hbefore k hk).1) (hbefore k hk).2)
  · by_cases hspent : T.yieldLeftUs ≤ spentUs rounds n
    · have hn : n ≠ 0 := by
        rintro rfl
        exact absurd hspent (not_le.mpr (hleft ▸ hpos))
      refine (Scheduler.round_over ?_ ((hyielding n le_rfl).interval hn) (rounds n)).1
      rw [(hyielding n le_rfl).left]
      exact Int.sub_nonpos_of_le hspent
    · exact (Scheduler.round_cancelled (hleftAt n le_rfl (not_le.mp hspent))
        (hend.resolve_left hspent)).1
  · have hspent : T.yieldLeftUs ≤ spentUs rounds n := by
      refine not_lt.mp fun hlt => ?_
      have hmore := (@Scheduler.round_cancelled cfg _ (hleftAt n le_rfl hlt) _
        (hend.resolve_left (not_le.mpr hlt))).2
      have hcancels : ((T.after cfg rounds n).round cfg (rounds n)).2.cancels = T.cancels := hcancels
      rw [hmore, (hyielding n le_rfl).cancels] at hcancels
      exact Nat.succ_ne_self _ hcancels
    have hlast : ∀ k < n, spentUs rounds k < T.yieldLeftUs := fun k hk => (hbefore k hk).1
    rw [steady_iff, ← hleft, interval_le_iff hlast hspent (hleft ▸ hpos), le_steps_iff hlast hspent]

end Yield

/-! ## Drift -/

/-- An 8192-token chunk at the start of its prompt. -/
def firstChunk : Batch := ⟨some 0, false, true, 8192, 0⟩

/-- The scheduler after the engine has armed its own counter for that chunk. -/
def chunkScheduled (interval : ℕ) : Scheduler := ⟨some 0, 0, interval, 0, 0, 0⟩

/-- The scheduler after `arm_after`, beside `bs` decode rows. -/
def armed (cfg : Config) (pct : ℤ) (bs : ℕ) : Scheduler :=
  (chunkScheduled cfg.interval).armAfter cfg (fun _ => pct) ⟨some firstChunk, some ⟨bs, false⟩⟩

/-- Rounds with the same decode rows while the chunk is in flight. -/
def rowsEach (bs : ℕ) : ℕ → Round := fun _ => ⟨some ⟨bs, false⟩, some 0⟩

/-- The rounds of two streams at the share of the production profile. -/
theorem yield_bounds_iff_production :
    ∃ n, (∀ k < n, (armed ⟨2, 0, false, false⟩ 33 2).defers ⟨2, 0, false, false⟩ (rowsEach 2) k = true) ∧
      (armed ⟨2, 0, false, false⟩ 33 2).defers ⟨2, 0, false, false⟩ (rowsEach 2) n = false ∧
      2 ≤ n ∧ n ≤ 128 := by
  have h := @yield_bounds_iff ⟨2, 0, false, false⟩ (fun _ => 33) (chunkScheduled 2)
    (armed ⟨2, 0, false, false⟩ 33 2) firstChunk ⟨2, false⟩ 0 rfl (by decide) rfl rfl (rowsEach 2)
  obtain ⟨n, hdefers, hends, -, hbounds⟩ := h
  have htwelve : (∀ k < 12, (armed ⟨2, 0, false, false⟩ 33 2).defers ⟨2, 0, false, false⟩ (rowsEach 2) k =
      true) ∧ (armed ⟨2, 0, false, false⟩ 33 2).defers ⟨2, 0, false, false⟩ (rowsEach 2) 12 = false := by
    decide +kernel
  have hn : n = 12 := by
    refine le_antisymm (not_lt.mp fun hlt => ?_) (not_lt.mp fun hlt => ?_)
    · rw [hdefers 12 hlt] at htwelve
      cases htwelve.2
    · rw [htwelve.1 n hlt] at hends
      cases hends
  refine ⟨n, hdefers, hends, (hbounds ?_).mpr ⟨?_, ?_, ?_⟩⟩
  · rw [hn]
    decide +kernel
  · decide +kernel
  · decide +kernel
  · exact .inl (by decide +kernel)

/-- **The bounds drift with the batch.** An interval of four rounds ends after three when one
request joins the stream that ran beside the chunk; and of eight streams that ran beside it
the one that is left decodes for more than 128 rounds. -/
theorem yield_bounds_drift :
    ((armed ⟨4, 0, false, false⟩ 10 1).yields = 1 ∧ (∀ k, (rowsEach 2 k).live = true) ∧
      (∀ k < 3, (armed ⟨4, 0, false, false⟩ 10 1).defers ⟨4, 0, false, false⟩ (rowsEach 2) k = true) ∧
      (armed ⟨4, 0, false, false⟩ 10 1).defers ⟨4, 0, false, false⟩ (rowsEach 2) 3 = false) ∧
    (armed ⟨2, 0, false, false⟩ 90 8).yields = 1 ∧ (∀ k, (rowsEach 1 k).live = true) ∧
      ∀ k ≤ 128, (armed ⟨2, 0, false, false⟩ 90 8).defers ⟨2, 0, false, false⟩ (rowsEach 1) k = true := by
  refine ⟨⟨rfl, fun _ => rfl, ?_, ?_⟩, rfl, fun _ => rfl, ?_⟩
  · decide +kernel
  · decide +kernel
  · decide +kernel

end DecodeYield
