import SparkTP4.PoisonGuardSafe
import SparkTP4.RoceLayout

/-!
# The arrival counters

Where the counters are (`_counter_addresses` and the two-shot kernel's own) and
what the arrivals at them publish: at each counter of a launch the block that
arrives last, and no other, finds itself the last (`last_arrival`), and goes on to
the doorbell, a ready word or the epoch. That is a counter in one of three phases
(`Phase`), which every step keeps while nothing has failed.
-/

namespace PoisonGuard

/-! ## The words of the counters -/

/-- `_counter_addresses`: the stage and the tail counter of a grid, with at most
`blocks` blocks. -/
def counterAddresses (epochAddress blocks gridBlocks : ℕ) : ℕ × ℕ :=
  let counterClasses := Nat.size blocks
  let counterClass := Nat.size gridBlocks - 1
  (epochAddress + 4 * (1 + counterClass), epochAddress + 4 * (1 + counterClasses + counterClass))

/-- `_poison_address` -/
def poisonAddress (epochAddress blocks : ℕ) : ℕ := epochAddress + 4 * (1 + 2 * Nat.size blocks)

/-- `_pipe_counter_address` -/
def pipeCounterAddress (epochAddress blocks : ℕ) : ℕ := poisonAddress epochAddress blocks + 4

/-- The words of `_counters`. -/
def countersLength (blocks maxChunks : ℕ) : ℕ := 2 + 2 * Nat.size blocks + 2 * maxChunks + 1

namespace Setting

/-- `_blocks` -/
def blocks (cfg : Setting) : ℕ := 2 ^ cfg.blocksLog

/-- Where the kernels find a counter. -/
def address (cfg : Setting) (epochAddress : ℕ) : Counter → ℕ
  | .stage k => (counterAddresses epochAddress cfg.blocks (2 ^ k)).1
  | .tail k => (counterAddresses epochAddress cfg.blocks (2 ^ k)).2
  | .pipeStage c => pipeCounterAddress epochAddress cfg.blocks + 4 * c
  | .pipeReduce c => pipeCounterAddress epochAddress cfg.blocks + 4 * cfg.maxChunks + 4 * c
  | .pipeTail => pipeCounterAddress epochAddress cfg.blocks + 8 * cfg.maxChunks

end Setting

/-- The counters that the runtime has. -/
def Counter.Allocated (cfg : Setting) : Counter → Prop
  | stage k | tail k => k ≤ cfg.blocksLog
  | pipeStage c | pipeReduce c => c < cfg.maxChunks
  | pipeTail => True

section Words

variable {cfg : Setting} {epochAddress : ℕ}

/-- The index of a counter in `_counters`. -/
def Setting.index (cfg : Setting) : Counter → ℕ
  | .stage k => 1 + k
  | .tail k => 2 + cfg.blocksLog + k
  | .pipeStage c => 4 + 2 * cfg.blocksLog + c
  | .pipeReduce c => 4 + 2 * cfg.blocksLog + cfg.maxChunks + c
  | .pipeTail => 4 + 2 * cfg.blocksLog + 2 * cfg.maxChunks

theorem address_eq (ctr : Counter) :
    cfg.address epochAddress ctr = epochAddress + 4 * cfg.index ctr := by
  have hsize : Nat.size cfg.blocks = cfg.blocksLog + 1 := Nat.size_pow
  cases ctr <;>
    simp only [Setting.address, Setting.index, counterAddresses, pipeCounterAddress, poisonAddress,
      Nat.size_pow, hsize] <;> omega

/-- **No two counters share a word.** -/
theorem address_inj {ctr ctr' : Counter} (h : ctr.Allocated cfg) (h' : ctr'.Allocated cfg)
    (heq : cfg.address epochAddress ctr = cfg.address epochAddress ctr') : ctr = ctr' := by
  rw [address_eq, address_eq] at heq
  have hindex : cfg.index ctr = cfg.index ctr' := by omega
  cases ctr <;> cases ctr' <;> simp only [Setting.index, Counter.Allocated] at * <;>
    first | rfl | (congr 1; omega)

/-- A counter is a word of `_counters`, and neither the epoch nor the poison word. -/
theorem address_bounds {ctr : Counter} (h : ctr.Allocated cfg) :
    epochAddress < cfg.address epochAddress ctr ∧
      cfg.address epochAddress ctr ≠ poisonAddress epochAddress cfg.blocks ∧
        cfg.address epochAddress ctr < epochAddress + 4 * countersLength cfg.blocks cfg.maxChunks := by
  have hsize : Nat.size cfg.blocks = cfg.blocksLog + 1 := Nat.size_pow
  rw [address_eq]
  unfold poisonAddress countersLength
  rw [hsize]
  cases ctr <;> simp only [Setting.index, Counter.Allocated] at * <;> omega

/-- **The grid of `_grid_blocks`** is a power of two that has counters. -/
theorem gridBlocks_eq (cfg : Setting) (sizePacks threads : ℕ) :
    ∃ k ≤ cfg.blocksLog, RoceLayout.gridBlocks sizePacks threads cfg.blocks = 2 ^ k := by
  refine ⟨min (Nat.size (max 1 ((sizePacks + 2 * threads - 1) / (2 * threads)) - 1)) cfg.blocksLog,
    Nat.min_le_right _ _, ?_⟩
  unfold RoceLayout.gridBlocks Setting.blocks
  dsimp only
  rcases Nat.le_total (Nat.size (max 1 ((sizePacks + 2 * threads - 1) / (2 * threads)) - 1))
    cfg.blocksLog with hle | hle
  · rw [Nat.min_eq_left hle, Nat.min_eq_left (Nat.pow_le_pow_right (by decide) hle)]
  · rw [Nat.min_eq_right hle, Nat.min_eq_right (Nat.pow_le_pow_right (by decide) hle)]

/-- The counters of a launch are allocated. -/
theorem allocated_of_arrive {L : Launch} (hL : L.Valid cfg) {ctr : Counter} {k : ℕ}
    (hk : L.program[k]? = some (.arrive ctr)) : ctr.Allocated cfg := by
  cases Launch.at_of_program hk with
  | arrive =>
    cases L with
    | oneshot k | allGather k | allGatherColumns k => exact hL
    | twoshot chunks => trivial
  | body hj =>
    have hmem := List.mem_of_getElem? hj
    cases L with
    | oneshot k | allGather k | allGatherColumns k =>
      simp only [Launch.body, slotBody, List.mem_cons, List.not_mem_nil, or_false, reduceCtorEq,
        false_or, Instr.arrive.injEq] at hmem
      subst hmem
      exact hL
    | twoshot chunks =>
      have hlt : ∀ {c}, c < chunks → c < cfg.maxChunks := fun hc => Nat.lt_of_lt_of_le hc hL
      simp only [Launch.body, twoshotBody, stageChunk, reduceChunk, gatherChunk, List.mem_cons,
        List.mem_append, List.mem_flatMap, List.mem_range, List.not_mem_nil, or_false,
        reduceCtorEq, false_or, and_false, exists_false, Instr.arrive.injEq] at hmem
      obtain ⟨c, hc, rfl⟩ | ⟨c, hc, rfl⟩ := hmem
      · exact hlt hc
      · exact hlt hc

end Words

/-! ## What the last block publishes -/

/-- What the last block to arrive at a counter stores in the end. -/
def Counter.publishes : Counter → Instr
  | .stage _ => .ring
  | .pipeStage c => .publish (.rs c)
  | .pipeReduce c => .publish (.ag c)
  | .tail _ | .pipeTail => .setEpoch

/-- How often `i` has been executed in launch `n`. -/
def executed (n : ℕ) (i : Instr) (trace : List Entry) : ℕ :=
  trace.countP fun e => e.launch = n ∧ e.op = i

/-- The thread has arrived at the counter at `k` as the last, and is not done. -/
def State.Pending (S : State) (k b t : ℕ) : Prop :=
  (S.thread b t).pc = k ∧ (S.thread b t).todo.isSome

/-- How far the arrivals at the counter `ctr`, which stands at `k` in the program,
have come. -/
inductive Phase (cfg : Setting) (S : State) (L : Launch) (ctr : Counter) (k : ℕ) : Prop
  | before (hlength : (arrivals S.begun ctr S.trace).length < L.grid cfg)
      (hcount : executed S.begun ctr.publishes S.trace = 0)
      (hnone : ∀ b < L.grid cfg, ∀ t < cfg.threads, ¬S.Pending k b t)
  | last (hlength : (arrivals S.begun ctr S.trace).length = L.grid cfg)
      (hcount : executed S.begun ctr.publishes S.trace = 0)
      (b t : ℕ) (hb : b < L.grid cfg) (ht : t < cfg.threads) (hin : S.Pending k b t)
      (hone : ∀ b' < L.grid cfg, ∀ t' < cfg.threads, S.Pending k b' t' → b' = b ∧ t' = t)
  | after (hlength : (arrivals S.begun ctr S.trace).length = L.grid cfg)
      (hcount : executed S.begun ctr.publishes S.trace = 1)
      (hnone : ∀ b < L.grid cfg, ∀ t < cfg.threads, ¬S.Pending k b t)

section Step

variable {cfg : Setting} {S : State} {L : Launch} {b t b' t' k : ℕ} {ok : Bool} {i : Instr}
  {ctr : Counter}

theorem exec_executed_ne (S : State) {j : Instr} (h : i ≠ j) :
    executed S.begun j (S.exec cfg L b t ok i).trace = executed S.begun j S.trace := by
  refine List.countP_cons_of_neg fun h' => h ?_
  exact (of_decide_eq_true h').2

theorem exec_executed_self (S : State) :
    executed S.begun i (S.exec cfg L b t ok i).trace = executed S.begun i S.trace + 1 :=
  List.countP_cons_of_pos (decide_eq_true ⟨rfl, rfl⟩)

theorem exec_pending_ne (h : ¬(b' = b ∧ t' = t)) :
    (S.exec cfg L b t ok i).Pending k b' t' ↔ S.Pending k b' t' := by
  unfold State.Pending
  rw [exec_thread_ne S h]

/-- Only the two-shot kernels write a record, and they have no stage counter. -/
theorem not_record_of_stage {g m : ℕ} (hk : L.program[k]? = some (.arrive (.stage g)))
    (hm : L.program[m]? = some .record) : False := by
  have hrecord : Instr.record ∈ L.body := by
    cases Launch.at_of_program hm with
    | body hj => exact List.mem_of_getElem? hj
  have hstage : Instr.arrive (.stage g) ∈ L.body := by
    generalize hi : Instr.arrive (.stage g) = i at hk
    cases Launch.at_of_program hk with
    | body hj => exact List.mem_of_getElem? hj
    | arrive => cases L <;> cases hi
    | loadEpoch | wrapGuard | wrapSync | branch | sync => cases hi
  cases L with
  | oneshot g' | allGather g' | allGatherColumns g' => simp [Launch.body, slotBody] at hrecord
  | twoshot chunks =>
    simp [Launch.body, twoshotBody, stageChunk, reduceChunk, gatherChunk] at hstage

/-- What the last block stores belongs to no other instruction of the program. -/
theorem position_of_continues (cfg : Setting) {h : Instr} {m : ℕ}
    (hk : L.program[k]? = some (.arrive ctr)) (hm : L.program[m]? = some h)
    (hc : Continues h ctr.publishes) : m = k := by
  have htail : ∀ {ctr' : Counter}, L.program[m]? = some (.arrive ctr') → ctr.IsTail →
      ctr'.IsTail → m = k := by
    intro ctr' hm' hctr hctr'
    cases Launch.at_of_program hk with
    | arrive =>
      cases Launch.at_of_program hm' with
      | arrive => rfl
      | body hj =>
        cases Launch.inBody (List.mem_of_getElem? hj) with
        | arrive hbody => exact absurd hctr' hbody
    | body hj =>
      cases Launch.inBody (List.mem_of_getElem? hj) with
      | arrive hbody => exact absurd hctr hbody
  cases ctr with
  | stage g =>
    cases hc with
    | ring g' =>
      have hm' : (Counter.stage g').gridLog cfg = L.gridLog cfg := Launch.gridLog_of_arrive hm
      have hk' : (Counter.stage g).gridLog cfg = L.gridLog cfg := Launch.gridLog_of_arrive hk
      have hgrid : g' = g := hm'.trans hk'.symm
      exact Launch.arrive_unique (hgrid ▸ hm) hk
    | record => exact (not_record_of_stage hk hm).elim
  | tail g =>
    cases hc with
    | setEpoch => exact htail hm trivial trivial
    | release => exact htail hm trivial trivial
  | pipeTail =>
    cases hc with
    | setEpoch => exact htail hm trivial trivial
    | release => exact htail hm trivial trivial
  | pipeStage c =>
    cases hc
    exact Launch.arrive_unique hm hk
  | pipeReduce c =>
    cases hc
    exact Launch.arrive_unique hm hk

/-- What the last block does at a counter, while nothing fails, ends with what it
publishes. -/
theorem follow_of_continues (hc : Continues (.arrive ctr) i) {M : Memory} {seq : UInt32}
    (herror : M.error = 0) (hok : i = .awaitRelease → ok = true)
    (hstores : ∀ ws, i ≠ .stores ws) :
    (i = ctr.publishes ∧ i.follow cfg L M b t seq ok = none) ∨
      (i ≠ ctr.publishes ∧ ∃ j, i.follow cfg L M b t seq ok = some j) := by
  cases hc with
  | ring | setEpoch | release | publishRs | publishAg => exact .inl ⟨rfl, rfl⟩
  | checkRs | checkAg | checkEpoch | checkRelease =>
    exact .inr ⟨Instr.noConfusion, _, if_pos herror⟩
  | awaitRelease => exact .inr ⟨Instr.noConfusion, _, if_pos (hok rfl)⟩
  | stores ws => exact absurd rfl (hstores ws)

namespace Phase

/-- A step that is no part of the counter. -/
theorem frame (hphase : Phase cfg S L ctr k) (harrive : ¬(t = 0 ∧ i = .arrive ctr))
    (hpublish : i ≠ ctr.publishes)
    (hin : (S.exec cfg L b t ok i).Pending k b t ↔ S.Pending k b t) :
    Phase cfg (S.exec cfg L b t ok i) L ctr k := by
  have hall : ∀ b' t', (S.exec cfg L b t ok i).Pending k b' t' ↔ S.Pending k b' t' := by
    intro b' t'
    by_cases h : b' = b ∧ t' = t
    · obtain ⟨rfl, rfl⟩ := h
      exact hin
    · exact exec_pending_ne h
  have harrivals : arrivals S.begun ctr (S.exec cfg L b t ok i).trace =
      arrivals S.begun ctr S.trace := exec_arrivals_ne S harrive
  have hcounts : executed S.begun ctr.publishes (S.exec cfg L b t ok i).trace =
      executed S.begun ctr.publishes S.trace := exec_executed_ne S hpublish
  cases hphase with
  | before hlength hcount hnone =>
    exact .before (harrivals.symm ▸ hlength) (hcounts.trans hcount)
      fun b' hb' t' ht' h => hnone b' hb' t' ht' ((hall b' t').mp h)
  | last hlength hcount b' t' hb' ht' hin hone =>
    exact .last (harrivals.symm ▸ hlength) (hcounts.trans hcount) b' t' hb' ht'
      ((hall b' t').mpr hin) fun b'' hb'' t'' ht'' h => hone b'' hb'' t'' ht'' ((hall b'' t'').mp h)
  | after hlength hcount hnone =>
    exact .after (harrivals.symm ▸ hlength) (hcounts.trans hcount)
      fun b' hb' t' ht' h => hnone b' hb' t' ht' ((hall b' t').mp h)

/-- A block arrives. -/
theorem arrive (hinv : LaunchInv cfg S L) (hcounts : S.Counts cfg)
    (hphase : Phase cfg S L ctr k) (hb : b < L.grid cfg) (htodo : (S.thread b 0).todo = none)
    (hpc : (S.thread b 0).pc = k) (hk : L.program[k]? = some (.arrive ctr)) :
    Phase cfg (S.exec cfg L b 0 ok (.arrive ctr)) L ctr k := by
  have h0 := cfg.threads_pos
  subst hpc
  have hlast := last_arrival hinv hcounts hb htodo hk
  have hfresh : b ∉ arrivals S.begun ctr S.trace := hinv.not_arrived hb h0 htodo hk
  have hlt : (arrivals S.begun ctr S.trace).length < L.grid cfg := by
    refine Nat.lt_of_le_of_ne (hinv.arrivals_length_le ctr) fun hfull => hfresh ?_
    exact mem_arrivals.mpr (hinv.arrived_of_length hfull hb)
  have hlength : (arrivals S.begun ctr (S.exec cfg L b 0 ok (.arrive ctr)).trace).length =
      (arrivals S.begun ctr S.trace).length + 1 := congrArg List.length (exec_arrivals_self S ctr)
  have hne : Instr.arrive ctr ≠ ctr.publishes := by
    cases ctr <;> exact Instr.noConfusion
  cases hphase with
  | last hfull => exact absurd hlt (Nat.not_lt.mpr hfull.ge)
  | after hfull => exact absurd hlt (Nat.not_lt.mpr hfull.ge)
  | before _ hcount hnone =>
    have hcount' : executed S.begun ctr.publishes
        (S.exec cfg L b 0 ok (.arrive ctr)).trace = _ := (exec_executed_ne S hne).trans hcount
    have hother : ∀ b' < L.grid cfg, ∀ t' < cfg.threads, ¬(b' = b ∧ t' = 0) →
        ¬(S.exec cfg L b 0 ok (.arrive ctr)).Pending (S.thread b 0).pc b' t' :=
      fun b' hb' t' ht' h hp => hnone b' hb' t' ht' ((exec_pending_ne h).mp hp)
    by_cases hfound : (S.mem.counter ctr + 1) % UInt32.ofNat (L.grid cfg) = 0
    · -- the last block goes on
      have hfollow : Instr.follow cfg L S.mem b 0 (S.thread b 0).seq ok (.arrive ctr) =
          some ctr.onLast := if_pos ⟨rfl, hfound⟩
      have hnext := exec_thread_some Instr.noConfusion hfollow
      refine .last (hlength.trans (hlast.mp hfound)) hcount' b 0 hb h0 ?_ fun b' hb' t' ht' hp => ?_
      · unfold State.Pending
        rw [exec_thread_self, hnext.1, hnext.2]
        exact ⟨rfl, rfl⟩
      · exact not_not.mp fun h => hother b' hb' t' ht' h hp
    · have hfollow : Instr.follow cfg L S.mem b 0 (S.thread b 0).seq ok (.arrive ctr) = none :=
        if_neg fun h => hfound h.2
      have hnext := exec_thread_none Instr.noConfusion hfollow
      refine .before ?_ hcount' fun b' hb' t' ht' hp => ?_
      · refine Nat.lt_of_le_of_ne (hlength ▸ hlt) fun h => hfound (hlast.mpr ?_)
        exact hlength.symm.trans h
      · by_cases h : b' = b ∧ t' = 0
        · obtain ⟨rfl, rfl⟩ := h
          have htodo' := hp.2
          rw [exec_thread_self, hnext] at htodo'
          cases htodo'
        · exact hother b' hb' t' ht' h hp

/-- The last block goes on. -/
theorem resume (hphase : Phase cfg S L ctr k) (hb : b < L.grid cfg) (ht : t < cfg.threads)
    (hpc : (S.thread b t).pc = k) (htodo : (S.thread b t).todo = some i)
    (hc : Continues (.arrive ctr) i) (herror : S.mem.error = 0)
    (hok : i = .awaitRelease → ok = true) (hstores : ∀ ws, i ≠ .stores ws) :
    Phase cfg (S.exec cfg L b t ok i) L ctr k := by
  have hpending : S.Pending k b t := ⟨hpc, htodo ▸ rfl⟩
  have hbranch : i ≠ .branch := by
    rintro rfl
    cases hc
  have hnarrive : ∀ ctr', i ≠ .arrive ctr' := by
    rintro ctr' rfl
    cases hc
  cases hphase with
  | before _ _ hnone => exact absurd hpending (hnone b hb t ht)
  | after _ _ hnone => exact absurd hpending (hnone b hb t ht)
  | last hlength hcount b₀ t₀ hb₀ ht₀ _ hone =>
    obtain ⟨rfl, rfl⟩ := hone b hb t ht hpending
    have hlength' : (arrivals S.begun ctr (S.exec cfg L b t ok i).trace).length = L.grid cfg := by
      rw [exec_arrivals_ne S fun h => hnarrive ctr h.2]
      exact hlength
    obtain ⟨hpublish, hfollow⟩ | ⟨hpublish, j, hfollow⟩ :=
      @follow_of_continues cfg L b t ok i ctr hc S.mem (S.thread b t).seq herror hok hstores
    · refine .after hlength' ?_ fun b' hb' t' ht' hp => ?_
      · subst hpublish
        exact (exec_executed_self S).trans (congrArg (· + 1) hcount)
      · by_cases h : b' = b ∧ t' = t
        · obtain ⟨rfl, rfl⟩ := h
          have htodo' := hp.2
          rw [exec_thread_self, exec_thread_none hbranch hfollow] at htodo'
          cases htodo'
        · exact h (hone b' hb' t' ht' ((exec_pending_ne h).mp hp))
    · have hnext := exec_thread_some hbranch hfollow
      refine .last hlength' ((exec_executed_ne S hpublish).trans hcount) b t hb ht ?_
        fun b' hb' t' ht' hp => ?_
      · unfold State.Pending
        rw [exec_thread_self, hnext.1, hnext.2]
        exact ⟨hpc, rfl⟩
      · by_contra h
        exact h (hone b' hb' t' ht' ((exec_pending_ne h).mp hp))

/-- **A counter keeps its phases**, while nothing fails. -/
theorem exec (hinv : LaunchInv cfg S L) (hcounts : S.Counts cfg)
    (hphase : Phase cfg S L ctr k) (hk : L.program[k]? = some (.arrive ctr)) (hb : b < L.grid cfg)
    (ht : t < cfg.threads) (hcur : (S.thread b t).current L.program = some i)
    (herror : S.mem.error = 0) (hpoison : S.mem.poison = 0)
    (hok : i = .awaitRelease → ok = true) (hstores : ∀ ws, i ≠ .stores ws) :
    Phase cfg (S.exec cfg L b t ok i) L ctr k := by
  have hthread := hinv.threads b hb t ht
  by_cases hpc : (S.thread b t).pc = k
  · cases htodo : (S.thread b t).todo with
    | some j =>
      obtain ⟨h, hh, hc⟩ := hthread.todo j htodo
      have hj : j = i := by
        rw [Thread.current, htodo] at hcur
        exact Option.some.inj hcur
      subst hj
      rw [hpc, hk] at hh
      obtain rfl := Option.some.inj hh
      exact hphase.resume hb ht hpc htodo hc herror hok hstores
    | none =>
      have hi : i = .arrive ctr := by
        rw [Thread.current, htodo, hpc, hk] at hcur
        exact (Option.some.inj hcur).symm
      subst hi
      by_cases h0 : t = 0
      · subst h0
        exact hphase.arrive hinv hcounts hb htodo hpc hk
      · have hfollow : Instr.follow cfg L S.mem b t (S.thread b t).seq ok (.arrive ctr) = none :=
          if_neg fun h => h0 h.1
        refine hphase.frame (fun h => h0 h.1) (by cases ctr <;> exact Instr.noConfusion) ?_
        unfold State.Pending
        rw [exec_thread_self, exec_thread_none Instr.noConfusion hfollow, htodo]
        simp
  · have hnot : ¬S.Pending k b t := fun h => hpc h.1
    refine hphase.frame ?_ ?_ ⟨fun h => absurd h ?_, fun h => absurd h hnot⟩
    · rintro ⟨-, rfl⟩
      obtain ⟨-, hm⟩ := hthread.program_of_current (fun h hc => by cases hc) hcur
      exact hpc (Launch.arrive_unique hm hk)
    · rintro rfl
      have htodo := ThreadInv.todo_of_current
        ⟨.arrive ctr, by cases ctr <;> constructor⟩ hcur
      obtain ⟨h, hm, hc⟩ := hthread.todo _ htodo
      exact hpc (position_of_continues cfg hk hm hc)
    · -- a thread that gets to the counter has nothing left to do
      rintro ⟨hpc', htodo'⟩
      rw [exec_thread_self] at hpc' htodo'
      obtain ⟨-, hp, -⟩ | ⟨seq, -, hth⟩ :=
        Thread.exec_cases cfg L S.mem b t ok (S.thread b t) i
      · exact hp hpoison
      · rw [hth] at hpc' htodo'
        cases hf : i.follow cfg L S.mem b t (S.thread b t).seq ok with
        | none =>
          rw [hf] at htodo'
          cases htodo'
        | some j =>
          rw [hf] at hpc'
          exact hpc hpc'

/-- A launch begins: nobody has arrived. -/
theorem start {queue : List Launch} (hinv : Inv cfg S) : Phase cfg (S.begin L queue) L ctr k := by
  refine .before ?_ ?_ fun b _ t _ h => ?_
  · show (arrivals (S.begun + 1) ctr S.trace).length < _
    rw [hinv.arrivals_begin]
    exact L.grid_pos cfg
  · refine List.countP_eq_zero.mpr fun e he h => ?_
    exact hinv.launch_ne e he (of_decide_eq_true h).1
  · cases h.2

end Phase

/-! ## What comes before a publication -/

/-- Every counter of a program stands behind a barrier. -/
theorem sync_of_arrive (hk : L.program[k]? = some (.arrive ctr)) :
    ∃ j, k = j + 1 ∧ L.program[j]? = some .sync := by
  have htail : ctr.IsTail → ∃ j, k = j + 1 ∧ L.program[j]? = some .sync := by
    intro hctr
    cases Launch.at_of_program hk with
    | arrive => exact ⟨_, rfl, L.program_sync⟩
    | body hj =>
      cases Launch.inBody (List.mem_of_getElem? hj) with
      | arrive hbody => exact absurd hctr hbody
  cases ctr with
  | tail g => exact htail trivial
  | pipeTail => exact htail trivial
  | pipeStage c =>
    obtain ⟨j, hj, -, hsync⟩ := L.before_stage c k hk
    exact ⟨j + 1, hj, hsync⟩
  | pipeReduce c =>
    obtain ⟨j, hj, -, hsync⟩ := L.before_reduce c k hk
    exact ⟨j + 1, hj, hsync⟩
  | stage g =>
    have hslot : ∀ g', Before (.stage 0) (.arrive (.stage g)) (slotBody g') := by
      intro g' m hm
      match m, hm with
      | 2, _ => exact ⟨0, rfl, rfl, rfl⟩
      | 3, hm | 4, hm | 5, hm => cases hm
      | m + 6, hm => cases hm
    have hbefore : Before (.stage 0) (.arrive (.stage g)) L.program := by
      unfold Launch.program
      refine (Before.append (.of_not_mem (by simp [entryCode])) ?_).append (.of_not_mem ?_)
      · cases L with
        | oneshot g' | allGather g' | allGatherColumns g' => exact hslot g'
        | twoshot chunks =>
          exact .of_not_mem (by
            simp [Launch.body, twoshotBody, stageChunk, reduceChunk, gatherChunk])
      · cases L <;> simp [Launch.tail]
    obtain ⟨j, hj, -, hsync⟩ := hbefore k hk
    exact ⟨j + 1, hj, hsync⟩

/-- Every thread of every block has done all that the program has before the barrier
in front of the position `k`: it has staged its share and reduced it. -/
def Written (cfg : Setting) (L : Launch) (n k : ℕ) (trace : List Entry) : Prop :=
  ∀ b < L.grid cfg, ∀ t < cfg.threads, ∀ j x, j + 1 < k → L.program[j]? = some x →
    Logged trace n b t x ∧ ∀ part, x = .data part → Logged trace n b t (.read part)

/-- Once every block has arrived at the counter, all is written. -/
theorem written_of_full (hinv : LaunchInv cfg S L)
    (hskip : ∀ b < L.grid cfg, ∀ t < cfg.threads, (S.thread b t).skipped = false)
    (hpoison : S.mem.poison = 0) (hk : L.program[k]? = some (.arrive ctr))
    (hlength : (arrivals S.begun ctr S.trace).length = L.grid cfg) :
    Written cfg L S.begun k S.trace := by
  intro b hb t ht j x hj hx
  obtain ⟨m, rfl, hsync⟩ := sync_of_arrive hk
  have hreached : m ≤ (S.thread b t).pc := hinv.reached hskip (hinv.arrived_of_length hlength hb)
    hb ht hk hsync (Nat.lt_succ_self m)
  have hlt : j < (S.thread b t).pc := Nat.lt_of_lt_of_le (Nat.lt_of_succ_lt_succ hj) hreached
  have hlog := hinv.logs b hb t ht
  refine ⟨hlog.logged (hskip b hb t ht) j x hx (.inl hlt), ?_⟩
  rintro part rfl
  exact (hlog.reads (hskip b hb t ht) j part hx hlt).resolve_right fun h => h hpoison

/-- What the counter at `k` publishes in launch `n` comes after all is written. -/
def Ordered (cfg : Setting) (L : Launch) (n : ℕ) (ctr : Counter) (k : ℕ) (trace : List Entry) :
    Prop :=
  ∀ later e earlier, trace = later ++ e :: earlier → e.launch = n → e.op = ctr.publishes →
    Written cfg L n k earlier

theorem Ordered.cons {n : ℕ} {trace : List Entry} {e : Entry}
    (h : Ordered cfg L n ctr k trace)
    (he : e.launch = n → e.op = ctr.publishes → Written cfg L n k trace) :
    Ordered cfg L n ctr k (e :: trace) := by
  intro later f earlier heq hn hop
  cases later with
  | nil =>
    obtain ⟨rfl, rfl⟩ := List.cons.inj heq
    exact he hn hop
  | cons f' later => exact h later f earlier (List.cons.inj heq).2 hn hop

/-- **A step publishes when all is written.** -/
theorem Ordered.exec (hinv : LaunchInv cfg S L) (hordered : Ordered cfg L S.begun ctr k S.trace)
    (hphase : Phase cfg S L ctr k) (hk : L.program[k]? = some (.arrive ctr)) (hb : b < L.grid cfg)
    (ht : t < cfg.threads) (hcur : (S.thread b t).current L.program = some i)
    (hskip : ∀ b < L.grid cfg, ∀ t < cfg.threads, (S.thread b t).skipped = false)
    (hpoison : S.mem.poison = 0) :
    Ordered cfg L S.begun ctr k (S.exec cfg L b t ok i).trace := by
  refine hordered.cons fun _ hop => ?_
  obtain rfl : i = ctr.publishes := hop
  have htodo := ThreadInv.todo_of_current ⟨.arrive ctr, by cases ctr <;> constructor⟩ hcur
  obtain ⟨h, hm, hc⟩ := (hinv.threads b hb t ht).todo _ htodo
  have hpending : S.Pending k b t := ⟨position_of_continues cfg hk hm hc, htodo ▸ rfl⟩
  cases hphase with
  | before _ _ hnone => exact absurd hpending (hnone b hb t ht)
  | after _ _ hnone => exact absurd hpending (hnone b hb t ht)
  | last hlength => exact written_of_full hinv hskip hpoison hk hlength

/-! ## The doorbell of a two-shot kernel -/

/-- Block 0 rings the doorbell of a two-shot kernel, once it is past its record. -/
structure Rung (cfg : Setting) (S : State) (L : Launch) : Prop where
  only : ∀ b < L.grid cfg, ∀ t < cfg.threads, (S.thread b t).todo = some .ring → b = 0 ∧ t = 0
  count : executed S.begun .ring S.trace = if 4 < (S.thread 0 0).pc then 1 else 0

/-- The record of a two-shot kernel is its first instruction after the entry code. -/
theorem record_iff {chunks : ℕ} {h : Instr}
    (hm : (Launch.twoshot chunks).program[k]? = some h) : h = .record ↔ k = 4 := by
  constructor
  · rintro rfl
    cases Launch.at_of_program hm with
    | @body j _ hj =>
      cases j with
      | zero => rfl
      | succ j =>
        have hmem := List.mem_of_getElem? (show ((List.range chunks).flatMap stageChunk ++
          (List.range chunks).flatMap reduceChunk ++
            (List.range chunks).flatMap gatherChunk)[j]? = some .record from hj)
        simp [stageChunk, reduceChunk, gatherChunk] at hmem
  · rintro rfl
    exact (Option.some.inj hm).symm

theorem Rung.exec {chunks : ℕ} (hL : L = .twoshot chunks) (hinv : LaunchInv cfg S L)
    (hrung : Rung cfg S L) (hb : b < L.grid cfg) (ht : t < cfg.threads)
    (hcur : (S.thread b t).current L.program = some i) (hpoison : S.mem.poison = 0) :
    Rung cfg (S.exec cfg L b t ok i) L := by
  have hthread := hinv.threads b hb t ht
  have hexec : ∃ seq, (S.thread b t).exec cfg L S.mem b t ok i =
      { (S.thread b t).proceed (i.follow cfg L S.mem b t (S.thread b t).seq ok) with seq := seq } := by
    obtain ⟨-, hp, -⟩ | ⟨seq, -, hth⟩ := Thread.exec_cases cfg L S.mem b t ok (S.thread b t) i
    · exact absurd hpoison hp
    · exact ⟨seq, hth⟩
  obtain ⟨seq, hth⟩ := hexec
  -- no counter of a two-shot kernel rings the doorbell
  have hring : ∀ {h : Instr} {m : ℕ}, L.program[m]? = some h → Continues h .ring → m = 4 := by
    intro h m hm hc
    subst hL
    cases hc with
    | record => exact (record_iff hm).mp rfl
    | ring g => exact (not_record_of_stage hm (show (Launch.twoshot chunks).program[4]? = some .record
        from rfl)).elim
  refine ⟨fun b' hb' t' ht' htodo => ?_, ?_⟩
  · by_cases h : b' = b ∧ t' = t
    · obtain ⟨rfl, rfl⟩ := h
      rw [exec_thread_self, hth] at htodo
      cases hf : i.follow cfg L S.mem b' t' (S.thread b' t').seq ok with
      | none =>
        rw [hf] at htodo
        cases htodo
      | some j =>
        rw [hf] at htodo
        obtain rfl := Option.some.inj htodo
        generalize hj : Instr.ring = j at hf
        cases follows_of_follow hf with
        | record h0 ht0 => exact ⟨h0, ht0⟩
        | @arrive ctr _ _ _ honLast =>
          obtain ⟨-, hm⟩ := hthread.program_of_current (fun h hc => by cases hc) hcur
          have hc : Continues (.arrive ctr) .ring := by
            cases ctr <;> first | exact .ring _ | cases hj.trans honLast
          have h4 := hring hm hc
          rw [h4] at hm
          subst hL
          cases hm
        | _ => cases hj
    · rw [exec_thread_ne S h] at htodo
      exact hrung.only b' hb' t' ht' htodo
  · have hcount := hrung.count
    by_cases hi : i = .ring
    · subst hi
      have htodo := ThreadInv.todo_of_current ⟨.record, .record⟩ hcur
      obtain ⟨rfl, rfl⟩ := hrung.only b hb t ht htodo
      obtain ⟨h, hm, hc⟩ := hthread.todo _ htodo
      have hpc := hring hm hc
      rw [exec_thread_self, hth]
      refine (exec_executed_self S).trans ?_
      rw [hcount, hpc]
      show (if 4 < 4 then 1 else 0) + 1 = if 4 < (S.thread 0 0).pc + 1 then 1 else 0
      rw [hpc]
      rfl
    · refine (exec_executed_ne S hi).trans (hcount.trans ?_)
      by_cases h : 0 = b ∧ 0 = t
      · obtain ⟨rfl, rfl⟩ := h
        rw [exec_thread_self, hth]
        refine if_congr ?_ rfl rfl
        cases hf : i.follow cfg L S.mem 0 0 (S.thread 0 0).seq ok with
        | some j => exact Iff.rfl
        | none =>
          -- the record of block 0 is followed by the doorbell
          have hne : (S.thread 0 0).pc ≠ 4 := by
            intro hpc
            subst hL
            have hrecord : (Launch.twoshot chunks).program[(S.thread 0 0).pc]? = some .record :=
              hpc ▸ rfl
            cases htodo : (S.thread 0 0).todo with
            | none =>
              rw [Thread.current, htodo, hrecord] at hcur
              obtain rfl := Option.some.inj hcur
              cases hf
            | some j =>
              obtain ⟨h, hm, hc⟩ := hthread.todo j htodo
              obtain rfl := Option.some.inj (hrecord.symm.trans hm)
              cases hc
              rw [Thread.current, htodo] at hcur
              exact hi (Option.some.inj hcur).symm
          show 4 < (S.thread 0 0).pc ↔ 4 < (S.thread 0 0).pc + 1
          omega
      · rw [exec_thread_ne S h]

end Step

/-! ## The runs -/

/-- What the launch publishes. -/
def Launch.publications : Launch → List Instr
  | oneshot _ | allGather _ | allGatherColumns _ => [.ring, .setEpoch]
  | twoshot chunks => .ring :: (List.range chunks).map (fun c => .publish (.rs c)) ++
      (List.range chunks).map (fun c => .publish (.ag c)) ++ [.setEpoch]

/-- The invariant of the runs in which nothing has failed. -/
structure ArrivalInv (cfg : Setting) (S : State) : Prop where
  error : S.mem.error = 0
  phase : ∀ L, S.launch = some L → ∀ ctr k, L.program[k]? = some (.arrive ctr) →
    Phase cfg S L ctr k
  ordered : ∀ L, S.launch = some L → ∀ ctr k, L.program[k]? = some (.arrive ctr) →
    Ordered cfg L S.begun ctr k S.trace
  rung : ∀ chunks, S.launch = some (.twoshot chunks) → Rung cfg S (.twoshot chunks)

section Run

variable {cfg : Setting} {S S' : State} {L : Launch}

theorem ArrivalInv.start (cfg : Setting) : ArrivalInv cfg .start where
  error := rfl
  phase _ hL := by cases hL
  ordered _ hL := by cases hL
  rung _ hL := by cases hL

/-- Calls that only change the flags and the queue of the runtime. -/
theorem ArrivalInv.host (harr : ArrivalInv cfg S) {queue : List Launch}
    {exhausted proxyFailed : Bool} :
    ArrivalInv cfg { S with queue := queue, exhausted := exhausted, proxyFailed := proxyFailed } where
  error := harr.error
  phase L hL ctr k hk := by
    cases harr.phase L hL ctr k hk with
    | before h₁ h₂ h₃ => exact .before h₁ h₂ h₃
    | last h₁ h₂ b t hb ht h₃ h₄ => exact .last h₁ h₂ b t hb ht h₃ h₄
    | after h₁ h₂ h₃ => exact .after h₁ h₂ h₃
  ordered := harr.ordered
  rung chunks hL := ⟨(harr.rung chunks hL).only, (harr.rung chunks hL).count⟩

theorem ArrivalInv.begin (hinv : Inv cfg S) (harr : ArrivalInv cfg S) {queue : List Launch} :
    ArrivalInv cfg (S.begin L queue) where
  error := harr.error
  phase L' hL' _ _ _ := by
    obtain rfl := Option.some.inj hL'
    exact .start hinv
  ordered _ _ _ _ _ later e earlier heq hn :=
    absurd hn (hinv.launch_ne e (heq ▸ List.mem_append_right later List.mem_cons_self))
  rung _ _ := by
    refine ⟨fun b _ t _ htodo => ?_, List.countP_eq_zero.mpr fun e he h => ?_⟩
    · cases htodo
    · exact hinv.launch_ne e he (of_decide_eq_true h).1

/-- **A thread takes a step** that does not fail. -/
theorem ArrivalInv.exec (hinv : Inv cfg S) (harr : ArrivalInv cfg S) (hL : S.launch = some L)
    {b t : ℕ} {ok : Bool} {i : Instr} (hb : b < L.grid cfg) (ht : t < cfg.threads)
    (hcur : (S.thread b t).current L.program = some i)
    (hhealthy : ¬(S.exec cfg L b t ok i).HasFailed) :
    ArrivalInv cfg (S.exec cfg L b t ok i) := by
  have hlaunch := hinv.launch L hL
  have hskip := hinv.not_skipped hL harr.error
  have hpoison : S.mem.poison = 0 :=
    not_not.mp fun h => hinv.error_of_poison h harr.error
  have hcounts := hinv.counts (not_not.mp fun h => hinv.entry_error h harr.error)
  have hstores : ∀ ws, i ≠ .stores ws := by
    rintro ws rfl
    obtain ⟨f, hf, -, hfail⟩ := (hlaunch.logs b hb t ht).failed ws
      (ThreadInv.todo_of_current ⟨_, .wrapGuard ws⟩ hcur)
    exact hhealthy ⟨f, List.mem_cons_of_mem _ hf, hfail⟩
  have hok : i = .awaitRelease → ok = true := by
    rintro rfl
    refine Bool.of_not_eq_false fun h => hhealthy ?_
    exact ⟨_, List.mem_cons_self, .inl ⟨h, trivial⟩⟩
  have hsame : ∀ {L'}, (S.exec cfg L b t ok i).launch = some L' → L' = L :=
    fun h => Option.some.inj (h.symm.trans hL)
  refine ⟨(exec_error hstores).trans harr.error, fun L' hL' ctr k hk => ?_,
    fun L' hL' ctr k hk => ?_, fun chunks hL' => ?_⟩
  · obtain rfl := hsame hL'
    exact (harr.phase L' hL ctr k hk).exec hlaunch hcounts hk hb ht hcur harr.error hpoison hok
      hstores
  · obtain rfl := hsame hL'
    exact (harr.ordered L' hL ctr k hk).exec hlaunch (harr.phase L' hL ctr k hk) hk hb ht hcur hskip
      hpoison
  · obtain rfl := hsame hL'
    exact (harr.rung chunks hL).exec rfl hlaunch hb ht hcur hpoison

/-- **Every run in which nothing has failed.** -/
theorem arrivalInv (h : Reachable cfg .start S) (hhealthy : ¬S.HasFailed) : ArrivalInv cfg S := by
  induction h with
  | start => exact .start cfg
  | @step S S' a hreach _ hstep ih =>
    have hinv : Inv cfg S := (Inv.start cfg).reachable hreach
    have harr := ih fun hfailed => hhealthy ((step_sticky hinv hstep).2.2 hfailed).1
    cases a with
    | collective L =>
      obtain ⟨-, hstep⟩ := Option.ite_none_right_eq_some.mp hstep
      obtain rfl := Option.some.inj hstep
      obtain ⟨exhausted, queue, -, hS'⟩ := collective_snd S L
      rw [hS']
      exact harr.host
    | replay Ls =>
      obtain ⟨-, hstep⟩ := Option.ite_none_right_eq_some.mp hstep
      obtain rfl := Option.some.inj hstep
      exact harr.host
    | checkHealth =>
      obtain rfl := Option.some.inj hstep
      exact harr.host
    | proxyFail =>
      obtain rfl := Option.some.inj hstep
      exact harr.host
    | begin =>
      obtain ⟨L, queue, -, -, rfl⟩ := step_begin hstep
      exact harr.begin hinv
    | thread b t ok =>
      obtain ⟨L, i, hL, hcur, hb, ht, -, rfl⟩ := step_thread hstep
      exact harr.exec hinv hL hb ht hcur hhealthy

/-! ## Each publication once -/

/-- What the counters of a launch are good for. -/
structure ArrivalsExact (cfg : Setting) (S : State) (L : Launch) : Prop where
  /-- the counters of a launch are those of its own grid -/
  own : ∀ (ctr : Counter) (k : ℕ), L.program[k]? = some (.arrive ctr) →
    ctr.Allocated cfg ∧ ctr.gridLog cfg = L.gridLog cfg
  /-- a block finds itself the last when all others have arrived, and only then -/
  last : ∀ b < L.grid cfg, ∀ ctr, (S.thread b 0).current L.program = some (.arrive ctr) →
    ((S.mem.counter ctr + 1) % UInt32.ofNat (L.grid cfg) = 0 ↔
      ∀ b' < L.grid cfg, b' ≠ b → Logged S.trace S.begun b' 0 (.arrive ctr))
  /-- a block arrives once -/
  once : ∀ (ctr : Counter) (k : ℕ), L.program[k]? = some (.arrive ctr) →
    (arrivals S.begun ctr S.trace).Nodup ∧
      (S.Finished cfg → (arrivals S.begun ctr S.trace).Perm (List.range (L.grid cfg)))
  /-- everything is published once -/
  published : ∀ i ∈ L.publications, executed S.begun i S.trace ≤ 1 ∧
    (S.Finished cfg → executed S.begun i S.trace = 1)
  /-- what a counter publishes comes after every block has written -/
  ordered : ∀ ctr k, L.program[k]? = some (.arrive ctr) → Ordered cfg L S.begun ctr k S.trace

/-- What a launch publishes is published from a counter, but for the doorbell of a
two-shot kernel. -/
theorem counter_of_publication {i : Instr} (hi : i ∈ L.publications) :
    (∃ (ctr : Counter) (k : ℕ), L.program[k]? = some (.arrive ctr) ∧ ctr.publishes = i) ∨
      i = .ring ∧ ∃ chunks, L = .twoshot chunks := by
  have hmem : ∀ {ctr : Counter}, Instr.arrive ctr ∈ L.program → ctr.publishes = i →
      ∃ (ctr : Counter) (k : ℕ), L.program[k]? = some (.arrive ctr) ∧ ctr.publishes = i :=
    fun hm hp => (List.mem_iff_getElem?.mp hm).elim fun k hk => ⟨_, k, hk, hp⟩
  have htail : i = .setEpoch → ∃ (ctr : Counter) (k : ℕ),
      L.program[k]? = some (.arrive ctr) ∧ ctr.publishes = i := by
    rintro rfl
    refine ⟨L.tail, _, L.program_arrive, ?_⟩
    cases L <;> rfl
  cases L with
  | oneshot g | allGather g | allGatherColumns g =>
    rcases List.mem_pair.mp hi with rfl | rfl
    · exact .inl ⟨.stage g, 6, rfl, rfl⟩
    · exact .inl (htail rfl)
  | twoshot chunks =>
    simp only [Launch.publications, List.cons_append, List.mem_cons, List.mem_append, List.mem_map,
      List.mem_range, List.not_mem_nil, or_false] at hi
    rcases hi with rfl | (⟨c, hc, rfl⟩ | ⟨c, hc, rfl⟩) | rfl
    · exact .inr ⟨rfl, chunks, rfl⟩
    · refine .inl (@hmem (.pipeStage c) ?_ rfl)
      simp [Launch.program, Launch.body, twoshotBody, stageChunk, hc]
    · refine .inl (@hmem (.pipeReduce c) ?_ rfl)
      simp [Launch.program, Launch.body, twoshotBody, reduceChunk, hc]
    · exact .inl (htail rfl)

/-- The last block to arrive. -/
theorem last_iff_others (hinv : LaunchInv cfg S L) (hcounts : S.Counts cfg) {b : ℕ} {ctr : Counter}
    (hb : b < L.grid cfg) (hcur : (S.thread b 0).current L.program = some (.arrive ctr)) :
    (S.mem.counter ctr + 1) % UInt32.ofNat (L.grid cfg) = 0 ↔
      ∀ b' < L.grid cfg, b' ≠ b → Logged S.trace S.begun b' 0 (.arrive ctr) := by
  obtain ⟨htodo, hk⟩ := (hinv.threads b hb 0 cfg.threads_pos).program_of_current
    (fun h hc => by cases hc) hcur
  have hnodup : (b :: arrivals S.begun ctr S.trace).Nodup :=
    List.nodup_cons.mpr ⟨hinv.not_arrived hb cfg.threads_pos htodo hk, hinv.nodup ctr⟩
  have hsub : b :: arrivals S.begun ctr S.trace ⊆ List.range (L.grid cfg) :=
    List.cons_subset.mpr ⟨List.mem_range.mpr hb, hinv.arrivals_subset ctr⟩
  have hsubperm := hnodup.subperm hsub
  rw [last_arrival hinv hcounts hb htodo hk]
  constructor
  · intro hlength b' hb' hne
    have hperm := hsubperm.perm_of_length_le (by rw [List.length_range, ← hlength]; rfl)
    have hmem := hperm.mem_iff.mpr (List.mem_range.mpr hb')
    exact mem_arrivals.mp ((List.mem_cons.mp hmem).resolve_left hne)
  · intro hothers
    have hall : List.range (L.grid cfg) ⊆ b :: arrivals S.begun ctr S.trace := by
      intro b' hb'
      by_cases hne : b' = b
      · exact hne ▸ List.mem_cons_self
      · exact List.mem_cons_of_mem _ (mem_arrivals.mpr (hothers b' (List.mem_range.mp hb') hne))
    have hle := (List.nodup_range.subperm hall).length_le
    have hge := hsubperm.length_le
    rw [List.length_range] at hle hge
    exact Nat.le_antisymm hge hle

/-- A counter publishes once. -/
theorem Phase.executed_le {ctr : Counter} {k : ℕ} (hphase : Phase cfg S L ctr k) :
    executed S.begun ctr.publishes S.trace ≤ 1 := by
  cases hphase with
  | before _ hcount => exact hcount ▸ Nat.zero_le 1
  | last _ hcount => exact hcount ▸ Nat.zero_le 1
  | after _ hcount => exact hcount.le

theorem Phase.executed_of_finished (hinv : Inv cfg S) (hL : S.launch = some L)
    (hfinished : S.Finished cfg) (herror : S.mem.error = 0) {ctr : Counter} {k : ℕ}
    (hk : L.program[k]? = some (.arrive ctr)) (hphase : Phase cfg S L ctr k) :
    executed S.begun ctr.publishes S.trace = 1 := by
  have hperm := hinv.arrivals_of_finished hL hfinished herror hk
  cases hphase with
  | before hlength => exact absurd (hperm.length_eq.trans List.length_range) (Nat.ne_of_lt hlength)
  | after _ hcount => exact hcount
  | last _ _ b t hb ht hin =>
    have htodo := hin.2
    rw [(todo_of_finished (hinv.launch L hL) hL hfinished hb ht).2] at htodo
    cases htodo

/-- **The arrival counters.** In every run in which nothing fails, whatever the
launches and however their blocks interleave: at each counter of a launch the block
that arrives last finds itself the last, and no other; the doorbell, the ready words
and the epoch are stored once, and what a counter publishes is stored after every
thread has written. Different counters are different words, and the grids of
`_grid_blocks` have counters. -/
theorem arrivals_exact (h : Reachable cfg .start S) (hhealthy : ¬S.HasFailed)
    (hL : S.launch = some L) :
    ArrivalsExact cfg S L ∧
      (∀ epochAddress ctr ctr', Counter.Allocated cfg ctr → Counter.Allocated cfg ctr' →
        cfg.address epochAddress ctr = cfg.address epochAddress ctr' → ctr = ctr') ∧
      ∀ sizePacks threads, ∃ k ≤ cfg.blocksLog,
        RoceLayout.gridBlocks sizePacks threads cfg.blocks = 2 ^ k := by
  have hinv : Inv cfg S := (Inv.start cfg).reachable h
  have harr := arrivalInv h hhealthy
  have hlaunch := hinv.launch L hL
  have hcounts := hinv.counts (not_not.mp fun h => hinv.entry_error h harr.error)
  refine ⟨?_, fun _ _ _ h h' => address_inj h h', fun _ _ => gridBlocks_eq cfg _ _⟩
  refine
    { own := fun ctr k hk => ⟨allocated_of_arrive hlaunch.valid hk, Launch.gridLog_of_arrive hk⟩
      last := fun b hb ctr hcur => last_iff_others hlaunch hcounts hb hcur
      once := fun ctr k hk => ⟨hlaunch.nodup ctr, fun hfinished =>
        hinv.arrivals_of_finished hL hfinished harr.error hk⟩
      published := fun i hi => ?_
      ordered := harr.ordered L hL }
  obtain ⟨ctr, k, hk, rfl⟩ | ⟨rfl, chunks, rfl⟩ := counter_of_publication hi
  · have hphase := harr.phase L hL ctr k hk
    exact ⟨hphase.executed_le, fun hfinished =>
      hphase.executed_of_finished hinv hL hfinished harr.error hk⟩
  · have hcount := (harr.rung chunks hL).count
    refine ⟨by rw [hcount]; split_ifs <;> decide, fun hfinished => ?_⟩
    have hpc := (todo_of_finished hlaunch hL hfinished (Launch.grid_pos cfg _) cfg.threads_pos).1
    rw [Launch.program_length] at hpc
    rw [hcount, if_pos (by omega)]

end Run

/-- The threads of a block take turns: so many steps of the first, so many of the
second, and so on. -/
def turns (b : ℕ) (ns : List (ℕ × ℕ)) : List Action :=
  ns.flatMap fun n => List.replicate n.1 (.thread b 0 true) ++ List.replicate n.2 (.thread b 1 true)

/-- A two-shot kernel of two blocks, the first block before the second. -/
def wholeRun : List Action :=
  [.replay [.twoshot 1], .begin] ++ turns 0 [(7, 6), (3, 4), (3, 3), (3, 4), (3, 3), (2, 2)] ++
    turns 1 [(6, 6), (5, 4), (3, 3), (5, 4), (3, 3), (5, 2)]

/-- Where no step has failed, nothing has. -/
theorem not_hasFailed {S : State} (h : ∀ e ∈ S.trace, e.ok = true ∧ e.seq ≠ 0) : ¬S.HasFailed := by
  rintro ⟨e, he, ⟨hok, -⟩ | hseq⟩
  · exact absurd (h e he).1 (by simp [hok])
  · exact (h e he).2 hseq

/-- The counters after that run, in which the launch has finished. -/
theorem arrivals_exact_whole : ∃ S, Transition.run (step pairSetting) .start wholeRun = some S ∧
    S.Finished pairSetting ∧ ArrivalsExact pairSetting S (.twoshot 1) := by
  have h : (Transition.run (step pairSetting) .start wholeRun).any fun S =>
      S.launch = some (.twoshot 1) ∧ S.Finished pairSetting ∧
        ∀ e ∈ S.trace, e.ok = true ∧ e.seq ≠ 0 := by
    decide +kernel
  obtain ⟨S, hS, h⟩ := (Option.any_eq_true _ _).mp h
  obtain ⟨hL, hfinished, htrace⟩ := of_decide_eq_true h
  refine ⟨S, hS, hfinished, (arrivals_exact (.of_run hS ?_) (not_hasFailed htrace) hL).1⟩
  exact Transition.allowedRun_of_forall (fun _ _ => trivial) _ _

/-- Block 0 of a two-shot kernel rings the doorbell before the other block has
staged anything. -/
theorem not_doorbell_after_writes : ∃ S, Transition.run (step pairSetting) .start
      ([.replay [.twoshot 1], .begin] ++ turns 0 [(6, 0)]) = some S ∧ ¬S.HasFailed ∧
    executed S.begun .ring S.trace = 1 ∧ ¬Logged S.trace S.begun 1 0 (.stage 0) := by
  have h : (Transition.run (step pairSetting) .start
      ([.replay [.twoshot 1], .begin] ++ turns 0 [(6, 0)])).any fun S =>
        (∀ e ∈ S.trace, e.ok = true ∧ e.seq ≠ 0) ∧ executed S.begun .ring S.trace = 1 ∧
          ∀ e ∈ S.trace, e.op ≠ .stage 0 := by
    decide +kernel
  obtain ⟨S, hS, h⟩ := (Option.any_eq_true _ _).mp h
  obtain ⟨htrace, hring, hstage⟩ := of_decide_eq_true h
  refine ⟨S, hS, not_hasFailed htrace, hring, ?_⟩
  rintro ⟨e, he, -, -, -, hop⟩
  exact hstage e he hop

end PoisonGuard
