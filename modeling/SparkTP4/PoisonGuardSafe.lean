import SparkTP4.PoisonGuardLaunch

/-!
# What the poison and the wrap guard guarantee

A failure is a wait that times out or a launch with sequence number 0. What is
shown of every run, in which any wait may time out: the epoch stays where it was
at the first failure, no later launch touches anything (`Guarded`), a ready word
is only stored for chunks that every thread has staged or reduced, and a launch
of a healthy runtime in which nothing fails advances the epoch once.
-/

namespace PoisonGuard

/-- A failure has been logged. -/
def State.HasFailed (S : State) : Prop := ∃ f ∈ S.trace, f.Failed

/-- Every thread of the launch has staged the chunk, or has read the peers' packs
of it to reduce them. -/
def State.Prepared (cfg : Setting) (S : State) (L : Launch) : Part → Prop
  | .one => False
  | .rs c => ∀ b < L.grid cfg, ∀ t < cfg.threads, Logged S.trace S.begun b t (.stage c)
  | .ag c => ∀ b < L.grid cfg, ∀ t < cfg.threads, Logged S.trace S.begun b t (.read (.rs c))

/-! ## The invariant -/

/-- The invariant of the runs. -/
structure Inv (cfg : Setting) (S : State) : Prop where
  error_of_poison : S.mem.poison ≠ 0 → S.mem.error ≠ 0
  entry_poison : S.entry.poison ≠ 0 → S.mem.poison ≠ 0
  entry_error : S.entry.error ≠ 0 → S.mem.error ≠ 0
  launches : ∀ e ∈ S.trace, e.launch ≤ S.begun
  queue : ∀ L ∈ S.queue, L.Valid cfg
  idle : S.launch = none → S.mem = .zero ∧ S.trace = []
  launch : ∀ L, S.launch = some L → LaunchInv cfg S L
  counts : S.entry.error = 0 → S.Counts cfg
  tail : ∀ L, S.launch = some L → S.mem.error = 0 → Tail cfg S L
  /-- the last block goes on to the epoch only while nothing has failed -/
  release : ∀ L, S.launch = some L → ∀ b < L.grid cfg, ∀ t < cfg.threads, ∀ i,
    (S.thread b t).todo = some i → i = .setEpoch ∨ i = .awaitRelease → S.mem.error = 0
  /-- a failure is recorded, or is being recorded -/
  failed : S.HasFailed → S.mem.poison ≠ 0 ∨ ∃ L, S.launch = some L ∧
    (S.entry.epoch + 1 = 0 ∨ ∃ b < L.grid cfg, ∃ t < cfg.threads, ∃ ws,
      (S.thread b t).todo = some (.stores ws))
  cause : S.mem.error ≠ 0 → S.entry.error ≠ 0 ∨ ∃ f ∈ S.trace, f.launch = S.begun ∧ f.Failed
  past : ∀ f ∈ S.trace, f.Failed → f.launch < S.begun → S.entry.poison ≠ 0
  touches : ∀ e ∈ S.trace, e.op.Touches →
    e.seq ≠ 0 ∧ ∀ f ∈ S.trace, f.Failed → e.launch ≤ f.launch
  ready : ∀ L, S.launch = some L → ∀ b < L.grid cfg, ∀ t < cfg.threads, ∀ part,
    ((S.thread b t).todo = some (.checkReady part) → S.mem.error = 0 → S.Prepared cfg L part) ∧
      ((S.thread b t).todo = some (.publish part) → S.Prepared cfg L part)
  published : ∀ L, S.launch = some L → ∀ e ∈ S.trace, e.launch = S.begun → ∀ part,
    e.op = .publish part → S.Prepared cfg L part ∧ ∃ f ∈ S.trace, f.launch = S.begun ∧
      f.block = e.block ∧ f.thread = e.thread ∧ f.op = .checkReady part ∧ f.error = 0

theorem Inv.start (cfg : Setting) : Inv cfg .start where
  error_of_poison h := absurd rfl h
  entry_poison h := absurd rfl h
  entry_error h := absurd rfl h
  launches _ he := absurd he List.not_mem_nil
  queue _ hL := absurd hL List.not_mem_nil
  idle _ := ⟨rfl, rfl⟩
  launch _ hL := by cases hL
  counts _ _ := rfl
  tail _ hL := by cases hL
  release _ hL := by cases hL
  failed h := by
    obtain ⟨f, hf, -⟩ := h
    cases hf
  cause h := absurd rfl h
  past _ hf := absurd hf List.not_mem_nil
  touches _ he := absurd he List.not_mem_nil
  ready _ hL := by cases hL
  published _ hL := by cases hL

section Exec

variable {cfg : Setting} {S : State} {L : Launch} {b t : ℕ} {ok : Bool} {i : Instr}
  {ctr : Counter}

namespace Inv

/-- While the error word is zero, no thread has skipped the body. -/
theorem not_skipped (hinv : Inv cfg S) (hL : S.launch = some L) (herror : S.mem.error = 0) :
    ∀ b < L.grid cfg, ∀ t < cfg.threads, (S.thread b t).skipped = false := by
  intro b hb t ht
  refine Bool.eq_false_iff.mpr fun hs => ?_
  exact hinv.error_of_poison (((hinv.launch L hL).threads b hb t ht).skipped hs).1 herror

/-- **The last block is alone.** When a thread is in the tail while nothing has
failed, the others have reached the last barrier, and have nothing left to do but
to leave. -/
theorem last_alone (hinv : Inv cfg S) (hL : S.launch = some L) (herror : S.mem.error = 0)
    (hb : b < L.grid cfg) (ht : t < cfg.threads) (hin : S.InTail L b t) :
    S.mem.epoch = S.entry.epoch ∧
      ∀ b' < L.grid cfg, ∀ t' < cfg.threads, L.body.length + 4 ≤ (S.thread b' t').pc ∧
        ∀ j, (S.thread b' t').todo = some j → b' = b ∧ t' = t := by
  have hlaunch := hinv.launch L hL
  cases hinv.tail L hL herror with
  | before _ _ _ hnone => exact absurd hin (hnone b hb t ht)
  | after _ _ _ hnone => exact absurd hin (hnone b hb t ht)
  | last hlength hepoch _ b₀ t₀ hb₀ ht₀ _ hone =>
    refine ⟨hepoch, fun b' hb' t' ht' => ?_⟩
    have hpc := hlaunch.tail_reached (hinv.not_skipped hL herror) hlength hb' ht'
    refine ⟨hpc, fun j hj => ?_⟩
    have h' := hone b' hb' t' ht' (hlaunch.inTail_of_todo hb' ht' hpc hj)
    have h := hone b hb t ht hin
    exact ⟨h'.1.trans h.1.symm, h'.2.trans h.2.symm⟩

/-- The thread that advances the epoch. -/
theorem of_setEpoch (hinv : Inv cfg S) (hL : S.launch = some L) (hb : b < L.grid cfg)
    (ht : t < cfg.threads) (htodo : (S.thread b t).todo = some .setEpoch) :
    S.mem.error = 0 ∧ S.InTail L b t :=
  ⟨hinv.release L hL b hb t ht _ htodo (.inl rfl),
    (hinv.launch L hL).inTail_of_setEpoch hb ht (.inl rfl) htodo⟩

/-- **The epoch does not move after a failure.** -/
theorem not_failed_of_setEpoch (hinv : Inv cfg S) (hL : S.launch = some L) (hb : b < L.grid cfg)
    (ht : t < cfg.threads) (htodo : (S.thread b t).todo = some .setEpoch) : ¬S.HasFailed := by
  intro hfailed
  obtain ⟨herror, hin⟩ := hinv.of_setEpoch hL hb ht htodo
  have hthread := (hinv.launch L hL).threads b hb t ht
  obtain hp | ⟨L', hL', hzero | ⟨b', hb', t', ht', ws, hws⟩⟩ := hinv.failed hfailed
  · exact hinv.error_of_poison hp herror
  · have hpc : 3 < (S.thread b t).pc := by
      rw [hin.1]
      omega
    refine (hthread.body hpc (hinv.not_skipped hL herror b hb t ht)).1 ?_
    rw [hthread.seq (by omega), hzero]
  · obtain rfl := Option.some.inj (hL.symm.trans hL')
    obtain ⟨rfl, rfl⟩ := ((hinv.last_alone hL herror hb ht hin).2 b' hb' t' ht').2 _ hws
    cases htodo.symm.trans hws

/-- The step keeps the invariant of the threads. -/
theorem exec_launch (hinv : Inv cfg S) (hL : S.launch = some L) (hb : b < L.grid cfg)
    (ht : t < cfg.threads) (hcur : (S.thread b t).current L.program = some i)
    (henabled : S.Enabled cfg b t i) : LaunchInv cfg (S.exec cfg L b t ok i) L := by
  refine (hinv.launch L hL).exec hinv.error_of_poison hinv.entry_poison hb ht hcur henabled ?_
  rintro rfl b' hb' t' ht'
  have htodo := ThreadInv.todo_of_current ⟨_, .setEpoch 0⟩ hcur
  obtain ⟨herror, hin⟩ := hinv.of_setEpoch hL hb ht htodo
  have := ((hinv.last_alone hL herror hb ht hin).2 b' hb' t' ht').1
  omega

/-- The error word is still zero where the last block goes on. -/
theorem exec_release (hinv : Inv cfg S) (hL : S.launch = some L) (hb : b < L.grid cfg)
    (ht : t < cfg.threads) (hcur : (S.thread b t).current L.program = some i) {b' t' : ℕ}
    (hb' : b' < L.grid cfg) (ht' : t' < cfg.threads) {j : Instr}
    (hj : ((S.exec cfg L b t ok i).thread b' t').todo = some j)
    (hset : j = .setEpoch ∨ j = .awaitRelease) : (S.exec cfg L b t ok i).mem.error = 0 := by
  have hlaunch := hinv.launch L hL
  have hthread := hlaunch.threads b hb t ht
  by_cases hbt : b' = b ∧ t' = t
  · obtain ⟨rfl, rfl⟩ := hbt
    rw [exec_thread_self] at hj
    have hbranch : i ≠ .branch := by
      rintro rfl
      obtain ⟨htodo, -⟩ := hthread.program_of_current (fun h hc => by cases hc) hcur
      obtain ⟨-, -, hth⟩ | ⟨seq, -, hth⟩ :=
        Thread.exec_cases cfg L S.mem b' t' ok (S.thread b' t') .branch
      · rw [hth] at hj
        exact absurd (htodo.symm.trans hj) (by simp)
      · rw [hth] at hj
        cases hj
    cases hf : i.follow cfg L S.mem b' t' (S.thread b' t').seq ok with
    | none =>
      rw [exec_thread_none hbranch hf] at hj
      cases hj
    | some j' =>
      obtain rfl := Option.some.inj ((exec_thread_some hbranch hf).2.symm.trans hj)
      show (S.mem.exec _ _ i).error = 0
      obtain rfl | rfl := hset
      · cases follows_of_follow hf with
        | @arrive ctr _ _ _ h => cases ctr <;> cases h
        | checkEpoch he => exact he
        | release =>
          have htodo := ThreadInv.todo_of_current ⟨_, .awaitRelease⟩ hcur
          exact hinv.release L hL b' hb' t' ht' _ htodo (.inr rfl)
      · cases follows_of_follow hf with
        | @arrive ctr _ _ _ h => cases ctr <;> cases h
        | checkRelease he => exact he
  · rw [exec_thread_ne S hbt] at hj
    have herror := hinv.release L hL b' hb' t' ht' j hj hset
    have hin := hlaunch.inTail_of_setEpoch hb' ht' hset hj
    refine (exec_error fun ws hws => ?_).trans herror
    subst hws
    have htodo := ThreadInv.todo_of_current ⟨_, .wrapGuard ws⟩ hcur
    obtain ⟨rfl, rfl⟩ := ((hinv.last_alone hL herror hb' ht' hin).2 b hb t ht).2 _ htodo
    exact hbt ⟨rfl, rfl⟩

/-- A step of a thread that touches anything is one of a healthy launch. -/
theorem healthy_of_touches (hinv : Inv cfg S) (hL : S.launch = some L) (hb : b < L.grid cfg)
    (ht : t < cfg.threads) (hcur : (S.thread b t).current L.program = some i) (hi : i.Touches) :
    ((S.thread b t).exec cfg L S.mem b t ok i).seq ≠ 0 ∧ S.entry.poison = 0 := by
  have hthread := (hinv.launch L hL).threads b hb t ht
  have hload : i ≠ .loadEpoch := by
    rintro rfl
    exact hi
  have hbranch : i ≠ .branch := by
    rintro rfl
    exact hi
  have hseq : ((S.thread b t).exec cfg L S.mem b t ok i).seq = (S.thread b t).seq := by
    rw [Thread.exec_eq hload hbranch]
    cases i.follow cfg L S.mem b t (S.thread b t).seq ok <;> rfl
  rw [hseq]
  cases htodo : (S.thread b t).todo with
  | none =>
    have hh := hcur
    rw [Thread.current, htodo] at hh
    refine hthread.healthy hh hload ?_ ?_ hbranch ?_
    · rintro rfl
      exact hi
    · rintro rfl
      exact hi
    · refine Bool.eq_false_iff.mpr fun hs => ?_
      obtain rfl | rfl := hthread.tail_of_skipped hs hh <;> exact hi
  | some j =>
    have hj := hcur
    rw [Thread.current, htodo] at hj
    obtain rfl := Option.some.inj hj
    obtain ⟨h, hh, hc⟩ := hthread.todo j htodo
    refine hthread.healthy hh ?_ ?_ ?_ ?_ ?_
    · rintro rfl
      cases hc
    · rintro rfl
      cases hc
      exact hi
    · rintro rfl
      cases hc
    · rintro rfl
      cases hc
    · refine Bool.eq_false_iff.mpr fun hs => ?_
      obtain rfl := hthread.skippedTodo hs j htodo
      exact hi

/-- A failure is recorded, or is being recorded. -/
theorem exec_failed (hinv : Inv cfg S) (hL : S.launch = some L) (hb : b < L.grid cfg)
    (ht : t < cfg.threads) (hcur : (S.thread b t).current L.program = some i)
    (hnew : LaunchInv cfg (S.exec cfg L b t ok i) L)
    (hfailed : (S.exec cfg L b t ok i).HasFailed) :
    (S.exec cfg L b t ok i).mem.poison ≠ 0 ∨ ∃ L', S.launch = some L' ∧
      (S.entry.epoch + 1 = 0 ∨ ∃ b' < L'.grid cfg, ∃ t' < cfg.threads, ∃ ws,
        ((S.exec cfg L b t ok i).thread b' t').todo = some (.stores ws)) := by
  have hthread := (hinv.launch L hL).threads b hb t ht
  obtain ⟨f, hf, hfail⟩ := hfailed
  obtain rfl | hf := List.mem_cons.mp hf
  · obtain ⟨hok, hop⟩ | hseq := hfail
    · obtain rfl : ok = false := hok
      have hfollow : ∃ ws, i.follow cfg L S.mem b t (S.thread b t).seq false =
          some (.stores ws) := by
        replace hop : i.Waits := hop
        unfold Instr.Waits at hop
        split at hop
        · exact ⟨_, rfl⟩
        · exact ⟨_, rfl⟩
        · exact absurd hop id
      obtain ⟨ws, hfollow⟩ := hfollow
      refine .inr ⟨L, hL, .inr ⟨b, hb, t, ht, ws, ?_⟩⟩
      rw [exec_thread_self]
      refine (exec_thread_some ?_ hfollow).2
      rintro rfl
      cases hfollow
    · refine .inr ⟨L, hL, .inl ?_⟩
      exact (hnew.owner _ List.mem_cons_self rfl).2.2.symm.trans hseq
  · obtain hp | ⟨L', hL', hzero | ⟨b', hb', t', ht', ws, hws⟩⟩ := hinv.failed ⟨f, hf, hfail⟩
    · exact .inl (hthread.poison_ne hcur hp)
    · exact .inr ⟨L', hL', .inl hzero⟩
    · obtain rfl := Option.some.inj (hL.symm.trans hL')
      by_cases hbt : b' = b ∧ t' = t
      · obtain ⟨rfl, rfl⟩ := hbt
        have hi := hcur
        rw [Thread.current, hws] at hi
        obtain rfl := Option.some.inj hi
        have hstores := hthread.stores ws hws
        rcases ws with - | ⟨x, - | ⟨y, ws⟩⟩
        · cases hstores
        · refine .inl ?_
          show (S.mem.exec t' (S.thread b' t').seq (.stores [x])).poison ≠ 0
          exact hstores.poison_of_last
        · refine .inr ⟨L, hL, .inr ⟨b', hb', t', ht', y :: ws, ?_⟩⟩
          rw [exec_thread_self]
          exact (exec_thread_some (by simp) rfl).2
      · refine .inr ⟨L, hL, .inr ⟨b', hb', t', ht', ws, ?_⟩⟩
        rw [exec_thread_ne S hbt]
        exact hws

/-- What is prepared stays prepared. -/
theorem exec_prepared {part : Part} (h : S.Prepared cfg L part) :
    (S.exec cfg L b t ok i).Prepared cfg L part := by
  cases part with
  | one => exact h
  | rs c => exact fun b' hb' t' ht' => (h b' hb' t' ht').cons _
  | ag c => exact fun b' hb' t' ht' => (h b' hb' t' ht').cons _

/-- The last block to arrive at the counter of a chunk finds it prepared by all. -/
theorem prepared_of_last (hinv : Inv cfg S) (hL : S.launch = some L) (herror : S.mem.error = 0)
    (hb : b < L.grid cfg) (hcur : (S.thread b 0).current L.program = some (.arrive ctr))
    (hlast : (S.mem.counter ctr + 1) % UInt32.ofNat (L.grid cfg) = 0) {part : Part}
    (hpart : ctr.onLast = .checkReady part)
    (hnew : LaunchInv cfg (S.exec cfg L b 0 ok (.arrive ctr)) L) :
    (S.exec cfg L b 0 ok (.arrive ctr)).Prepared cfg L part := by
  have hlaunch := hinv.launch L hL
  have hthread := hlaunch.threads b hb 0 cfg.threads_pos
  obtain ⟨htodo, hk⟩ := hthread.program_of_current (fun h hc => by cases hc) hcur
  have hcounts := hinv.counts (not_not.mp fun h => hinv.entry_error h herror)
  have hlength := (last_arrival hlaunch hcounts hb htodo hk).mp hlast
  have hpoison : (S.exec cfg L b 0 ok (.arrive ctr)).mem.poison = S.mem.poison :=
    exec_poison (by simp)
  have hskip : ∀ b' < L.grid cfg, ∀ t' < cfg.threads,
      ((S.exec cfg L b 0 ok (.arrive ctr)).thread b' t').skipped = false := by
    intro b' hb' t' ht'
    refine Bool.eq_false_iff.mpr fun hs => ?_
    have hp := ((hnew.threads b' hb' t' ht').skipped hs).1
    exact hinv.error_of_poison (hpoison ▸ hp) herror
  have hfull : (arrivals S.begun ctr (S.exec cfg L b 0 ok (.arrive ctr)).trace).length =
      L.grid cfg := hlength ▸ congrArg List.length (exec_arrivals_self S ctr)
  -- every thread of every block is past what comes before the barrier
  have hdone : ∀ x, Before x (.arrive ctr) L.program → ∀ b' < L.grid cfg, ∀ t' < cfg.threads,
      ∃ j, L.program[j]? = some x ∧
        j < ((S.exec cfg L b 0 ok (.arrive ctr)).thread b' t').pc := by
    intro x hx b' hb' t' ht'
    obtain ⟨j, hj, hxj, hsync⟩ := hx _ hk
    refine ⟨j, hxj, hnew.reached hskip (hnew.arrived_of_length hfull hb') hb' ht' hk hsync ?_⟩
    omega
  cases ctr with
  | stage | tail | pipeTail => cases hpart
  | pipeStage c =>
    obtain rfl := Instr.checkReady.inj hpart
    intro b' hb' t' ht'
    obtain ⟨j, hj, hlt⟩ := hdone _ (L.before_stage c) b' hb' t' ht'
    exact (hnew.logs b' hb' t' ht').logged (hskip b' hb' t' ht') j _ hj (.inl hlt)
  | pipeReduce c =>
    obtain rfl := Instr.checkReady.inj hpart
    intro b' hb' t' ht'
    obtain ⟨j, hj, hlt⟩ := hdone _ (L.before_reduce c) b' hb' t' ht'
    refine ((hnew.logs b' hb' t' ht').reads (hskip b' hb' t' ht') j _ hj hlt).resolve_right ?_
    exact fun hp => hinv.error_of_poison (hpoison ▸ hp) herror

/-- A ready word is about to be stored for what is prepared. -/
theorem exec_ready (hinv : Inv cfg S) (hL : S.launch = some L) (hb : b < L.grid cfg)
    (ht : t < cfg.threads) (hcur : (S.thread b t).current L.program = some i)
    (hnew : LaunchInv cfg (S.exec cfg L b t ok i) L) {b' t' : ℕ} (hb' : b' < L.grid cfg)
    (ht' : t' < cfg.threads) (part : Part) :
    (((S.exec cfg L b t ok i).thread b' t').todo = some (.checkReady part) →
        (S.exec cfg L b t ok i).mem.error = 0 → (S.exec cfg L b t ok i).Prepared cfg L part) ∧
      (((S.exec cfg L b t ok i).thread b' t').todo = some (.publish part) →
        (S.exec cfg L b t ok i).Prepared cfg L part) := by
  have hthread := (hinv.launch L hL).threads b hb t ht
  have herror : (S.exec cfg L b t ok i).mem.error = 0 → S.mem.error = 0 := fun h =>
    not_not.mp fun hne => hthread.error_ne hcur hne h
  by_cases hbt : b' = b ∧ t' = t
  · obtain ⟨rfl, rfl⟩ := hbt
    have hfollow : ∀ j, ((S.exec cfg L b' t' ok i).thread b' t').todo = some j →
        i.follow cfg L S.mem b' t' (S.thread b' t').seq ok = some j ∨
          i = .branch ∧ (S.thread b' t').todo = some j := by
      intro j hj
      rw [exec_thread_self] at hj
      obtain ⟨hi, -, hth⟩ | ⟨seq, -, hth⟩ :=
        Thread.exec_cases cfg L S.mem b' t' ok (S.thread b' t') i
      · rw [hth] at hj
        exact .inr ⟨hi, hj⟩
      · rw [hth] at hj
        cases hf : i.follow cfg L S.mem b' t' (S.thread b' t').seq ok with
        | none =>
          rw [hf] at hj
          cases hj
        | some j' =>
          rw [hf] at hj
          exact .inl hj
    have hbranch : ∀ {P : Prop} {j}, i = .branch ∧ (S.thread b' t').todo = some j → P := by
      rintro P j ⟨rfl, hj⟩
      have htodo := (hthread.program_of_current (fun h hc => by cases hc) hcur).1
      cases htodo.symm.trans hj
    constructor
    · intro hj he
      obtain hf | hf := hfollow _ hj
      · cases follows_of_follow hf with
        | arrive ht hlast hpart =>
          subst ht
          exact hinv.prepared_of_last hL (herror he) hb hcur hlast hpart.symm hnew
      · exact hbranch hf
    · intro hj
      obtain hf | hf := hfollow _ hj
      · cases follows_of_follow hf with
        | @arrive ctr _ _ _ h => cases ctr <;> cases h
        | checkReady _ he =>
          have htodo := ThreadInv.todo_of_ready (.inl rfl) hcur
          exact exec_prepared ((hinv.ready L hL b' hb' t' ht' part).1 htodo he)
      · exact hbranch hf
  · rw [exec_thread_ne S hbt]
    obtain ⟨hcheck, hpublish⟩ := hinv.ready L hL b' hb' t' ht' part
    exact ⟨fun hj he => exec_prepared (hcheck hj (herror he)), fun hj =>
      exec_prepared (hpublish hj)⟩

/-- A ready word is stored for what is prepared. -/
theorem exec_published (hinv : Inv cfg S) (hL : S.launch = some L) (hb : b < L.grid cfg)
    (ht : t < cfg.threads) (hcur : (S.thread b t).current L.program = some i)
    {e : Entry} (he : e ∈ (S.exec cfg L b t ok i).trace) (hn : e.launch = S.begun) {part : Part}
    (hop : e.op = .publish part) :
    (S.exec cfg L b t ok i).Prepared cfg L part ∧
      ∃ f ∈ (S.exec cfg L b t ok i).trace, f.launch = S.begun ∧ f.block = e.block ∧
        f.thread = e.thread ∧ f.op = .checkReady part ∧ f.error = 0 := by
  obtain rfl | he := List.mem_cons.mp he
  · obtain rfl : i = .publish part := hop
    have htodo := ThreadInv.todo_of_ready (.inr rfl) hcur
    obtain ⟨f, hf, hcheck⟩ := ((hinv.launch L hL).logs b hb t ht).checked part htodo
    exact ⟨exec_prepared ((hinv.ready L hL b hb t ht part).2 htodo),
      f, List.mem_cons_of_mem _ hf, hcheck⟩
  · obtain ⟨hprepared, f, hf, hcheck⟩ := hinv.published L hL e he hn part hop
    exact ⟨exec_prepared hprepared, f, List.mem_cons_of_mem _ hf, hcheck⟩

/-- **A thread takes a step.** -/
theorem exec (hinv : Inv cfg S) (hL : S.launch = some L) (hb : b < L.grid cfg)
    (ht : t < cfg.threads) (hcur : (S.thread b t).current L.program = some i)
    (henabled : S.Enabled cfg b t i) : Inv cfg (S.exec cfg L b t ok i) := by
  have hnew : LaunchInv cfg (S.exec cfg L b t ok i) L := hinv.exec_launch hL hb ht hcur henabled
  have hthread := (hinv.launch L hL).threads b hb t ht
  have hsame : ∀ {P : Launch → Prop}, P L → ∀ L', (S.exec cfg L b t ok i).launch = some L' → P L' :=
    fun {_} h L' hL' => Option.some.inj (hL.symm.trans hL') ▸ h
  have herror : (S.exec cfg L b t ok i).mem.error = 0 → S.mem.error = 0 := fun h =>
    not_not.mp fun hne => hthread.error_ne hcur hne h
  refine
    { error_of_poison := hthread.error_of_poison hcur hinv.error_of_poison
      entry_poison := fun h => hthread.poison_ne hcur (hinv.entry_poison h)
      entry_error := fun h => hthread.error_ne hcur (hinv.entry_error h)
      launches := fun e he => ?_
      queue := hinv.queue
      idle := fun h => absurd (hL.symm.trans h) (by simp)
      launch := hsame hnew
      counts := fun h => Counts.exec (hinv.launch L hL) (hinv.counts h) hb ht hcur
      tail := hsame fun h => (hinv.tail L hL (herror h)).exec (hinv.launch L hL)
        (hinv.counts (not_not.mp fun hne => hinv.entry_error hne (herror h))) (herror h) hb ht hcur
      release := hsame fun b' hb' t' ht' j hj hset =>
        hinv.exec_release hL hb ht hcur hb' ht' hj hset
      failed := hinv.exec_failed hL hb ht hcur hnew
      cause := fun h => ?_
      past := fun f hf hfail hlt => ?_
      touches := fun e he htouch => ?_
      ready := hsame fun b' hb' t' ht' part => hinv.exec_ready hL hb ht hcur hnew hb' ht' part
      published := hsame fun e he hn part hop => hinv.exec_published hL hb ht hcur he hn hop }
  · obtain rfl | he := List.mem_cons.mp he
    · exact le_rfl
    · exact hinv.launches e he
  · by_cases hi : ∃ ws, i = .stores ws
    · obtain ⟨ws, rfl⟩ := hi
      obtain ⟨f, hf, hfail⟩ := ((hinv.launch L hL).logs b hb t ht).failed ws
        (ThreadInv.todo_of_current ⟨_, .wrapGuard ws⟩ hcur)
      exact .inr ⟨f, List.mem_cons_of_mem _ hf, hfail⟩
    · have hold : S.mem.error ≠ 0 := (exec_error fun ws h => hi ⟨ws, h⟩) ▸ h
      refine (hinv.cause hold).imp id ?_
      rintro ⟨f, hf, hfail⟩
      exact ⟨f, List.mem_cons_of_mem _ hf, hfail⟩
  · obtain rfl | hf := List.mem_cons.mp hf
    · exact absurd hlt (Nat.lt_irrefl _)
    · exact hinv.past f hf hfail hlt
  · have hle : e.launch ≤ S.begun := by
      obtain rfl | he := List.mem_cons.mp he
      · exact le_rfl
      · exact hinv.launches e he
    have hseq : e.seq ≠ 0 ∧ ∀ f ∈ S.trace, f.Failed → e.launch ≤ f.launch := by
      obtain rfl | he := List.mem_cons.mp he
      · obtain ⟨hseq, hentry⟩ := @healthy_of_touches _ _ _ _ _ ok _ hinv hL hb ht hcur htouch
        exact ⟨hseq, fun f hf hfail => not_lt.mp fun hlt => hinv.past f hf hfail hlt hentry⟩
      · exact hinv.touches e he htouch
    refine ⟨hseq.1, fun f hf hfail => ?_⟩
    obtain rfl | hf := List.mem_cons.mp hf
    · exact hle
    · exact hseq.2 f hf hfail

end Inv

end Exec

/-! ## The next launch -/

section Begin

variable {cfg : Setting} {S : State} {L : Launch}

/-- A thread that has left the kernel has nothing left to do. -/
theorem todo_of_finished (hinv : LaunchInv cfg S L) (hL : S.launch = some L)
    (hfinished : S.Finished cfg) {b t : ℕ} (hb : b < L.grid cfg) (ht : t < cfg.threads) :
    L.program.length ≤ (S.thread b t).pc ∧ (S.thread b t).todo = none := by
  unfold State.Finished at hfinished
  rw [hL] at hfinished
  have hpc := hfinished b hb t ht
  refine ⟨hpc, ?_⟩
  cases htodo : (S.thread b t).todo with
  | none => rfl
  | some i =>
    obtain ⟨h, hh, -⟩ := (hinv.threads b hb t ht).todo i htodo
    rw [List.getElem?_eq_none hpc] at hh
    cases hh

/-- **A failed launch leaves the runtime poisoned.** -/
theorem Inv.poison_of_finished (hinv : Inv cfg S) (hfinished : S.Finished cfg)
    (hfailed : S.HasFailed) : S.mem.poison ≠ 0 := by
  obtain hp | ⟨L, hL, hzero | ⟨b, hb, t, ht, ws, hws⟩⟩ := hinv.failed hfailed
  · exact hp
  · have hlaunch := hinv.launch L hL
    have hb := L.grid_pos cfg
    have ht := cfg.threads_pos
    have hthread := hlaunch.threads 0 hb 0 ht
    have hpc := (todo_of_finished hlaunch hL hfinished hb ht).1
    rw [L.program_length] at hpc
    exact hthread.guarded (by omega) ((hthread.seq (by omega)).trans hzero)
  · have htodo := (todo_of_finished (hinv.launch L hL) hL hfinished hb ht).2
    cases htodo.symm.trans hws

/-- Every block has arrived at every counter of a finished launch in which nothing
failed. -/
theorem Inv.arrivals_of_finished (hinv : Inv cfg S) (hL : S.launch = some L)
    (hfinished : S.Finished cfg) (herror : S.mem.error = 0) {ctr : Counter} {k : ℕ}
    (hk : L.program[k]? = some (.arrive ctr)) :
    (arrivals S.begun ctr S.trace).Perm (List.range (L.grid cfg)) := by
  have hlaunch := hinv.launch L hL
  have hsub : List.range (L.grid cfg) ⊆ arrivals S.begun ctr S.trace := by
    intro b hb
    rw [List.mem_range] at hb
    have hpc := (todo_of_finished hlaunch hL hfinished hb cfg.threads_pos).1
    refine mem_arrivals.mpr ((hlaunch.logs b hb 0 cfg.threads_pos).logged
      (hinv.not_skipped hL herror b hb 0 cfg.threads_pos) k _ hk (.inl ?_))
    exact ((List.getElem?_eq_some_iff.mp hk).1).trans_le hpc
  refine ((hlaunch.nodup ctr).subperm (hlaunch.arrivals_subset ctr)).perm_of_length_le ?_
  exact (List.nodup_range.subperm hsub).length_le

/-- The counters of a finished launch in which nothing failed are back at a multiple
of their grid. -/
theorem Inv.counts_of_finished (hinv : Inv cfg S) (hfinished : S.Finished cfg)
    (herror : S.mem.error = 0) (ctr : Counter) :
    (S.mem.counter ctr).toNat % 2 ^ ctr.gridLog cfg = 0 := by
  rw [hinv.counts (not_not.mp fun h => hinv.entry_error h herror) ctr]
  cases hL : S.launch with
  | none =>
    rw [(hinv.idle hL).2]
    exact Nat.zero_mod _
  | some L =>
    have hlaunch := hinv.launch L hL
    by_cases hmem : ∃ k : ℕ, L.program[k]? = some (.arrive ctr)
    · obtain ⟨k, hk⟩ := hmem
      have hlength : (arrivals S.begun ctr S.trace).length = L.grid cfg :=
        (hinv.arrivals_of_finished hL hfinished herror hk).length_eq.trans List.length_range
      rw [hlength, Launch.gridLog_of_arrive hk]
      exact Nat.mod_self _
    · have hnil : arrivals S.begun ctr S.trace = [] := by
        refine List.eq_nil_iff_forall_not_mem.mpr fun b hb => ?_
        have hlogged := mem_arrivals.mp hb
        obtain ⟨e, he, hn, rfl, -⟩ := mem_arrivals.mp hb
        obtain ⟨k, hk, -⟩ := (hlaunch.logs e.block (hlaunch.owner e he hn).1 0
          cfg.threads_pos).arrived ctr hlogged
        exact hmem ⟨k, hk⟩
      rw [hnil]
      exact Nat.zero_mod _

/-- The steps of the launches before. -/
theorem Inv.launch_ne (hinv : Inv cfg S) : ∀ e ∈ S.trace, e.launch ≠ S.begun + 1 := by
  intro e he h
  have := hinv.launches e he
  omega

theorem Inv.arrivals_begin (hinv : Inv cfg S) (ctr : Counter) :
    arrivals (S.begun + 1) ctr S.trace = [] := by
  refine List.eq_nil_iff_forall_not_mem.mpr fun b hb => ?_
  obtain ⟨e, he, hn, -⟩ := mem_arrivals.mp hb
  exact hinv.launch_ne e he hn

/-- **A launch begins.** -/
theorem Inv.begin (hinv : Inv cfg S) (hfinished : S.Finished cfg) {queue : List Launch}
    (hqueue : S.queue = L :: queue) : Inv cfg (S.begin L queue) := by
  have hsame : ∀ {P : Launch → Prop}, P L → ∀ L', (S.begin L queue).launch = some L' → P L' :=
    fun {_} h L' hL' => Option.some.inj hL' ▸ h
  have hnil : ∀ {b t : ℕ} {i : Instr}, ((S.begin L queue).thread b t).todo ≠ some i := by
    rintro b t i ⟨⟩
  refine
    { error_of_poison := hinv.error_of_poison
      entry_poison := id
      entry_error := id
      launches := fun e he => (hinv.launches e he).trans (Nat.le_succ _)
      queue := fun L' hL' => hinv.queue L' (hqueue ▸ List.mem_cons_of_mem _ hL')
      idle := fun h => by cases h
      launch := hsame ?_
      counts := fun h ctr => ?_
      tail := hsame fun _ => .before ?_ rfl ?_ fun b _ t _ h => ?_
      release := hsame fun b _ t _ i h => absurd h hnil
      failed := fun h => .inl (hinv.poison_of_finished hfinished h)
      cause := .inl
      past := fun f hf hfail _ => hinv.poison_of_finished hfinished ⟨f, hf, hfail⟩
      touches := hinv.touches
      ready := hsame fun b _ t _ part => ⟨fun h => absurd h hnil, fun h => absurd h hnil⟩
      published := hsame fun e he hn => absurd hn (hinv.launch_ne e he) }
  · exact
      { valid := hinv.queue L (hqueue ▸ List.mem_cons_self)
        threads := fun b _ t _ => .start
        logs := fun b _ t _ => .start hinv.launch_ne
        barrier := fun b _ t _ u _ _ _ k _ h => absurd h (Nat.not_lt_zero k)
        owner := fun e he hn => absurd hn (hinv.launch_ne e he)
        nodup := fun ctr => (hinv.arrivals_begin ctr).symm ▸ List.nodup_nil
        epoch := .inl rfl }
  · show (S.mem.counter ctr).toNat % _ = (arrivals (S.begun + 1) ctr S.trace).length % _
    rw [hinv.arrivals_begin, hinv.counts_of_finished hfinished h]
    exact (Nat.zero_mod _).symm
  · show (arrivals (S.begun + 1) L.tail S.trace).length < _
    rw [hinv.arrivals_begin]
    exact L.grid_pos cfg
  · refine List.countP_eq_zero.mpr fun e he h => ?_
    exact hinv.launch_ne e he (of_decide_eq_true h).1
  · cases h.2

end Begin

/-! ## The runs -/

section Run

variable {cfg : Setting} {S S' : State}

/-- Calls that only change the flags and the queue of the runtime. -/
theorem Inv.host (hinv : Inv cfg S) {queue : List Launch} {exhausted proxyFailed : Bool}
    (hqueue : ∀ L ∈ queue, L.Valid cfg) :
    Inv cfg { S with queue := queue, exhausted := exhausted, proxyFailed := proxyFailed } :=
  { hinv with
    queue := hqueue
    launch := fun L hL => { hinv.launch L hL with }
    tail := fun L hL herror => by
      cases hinv.tail L hL herror with
      | before h₁ h₂ h₃ h₄ => exact .before h₁ h₂ h₃ h₄
      | last h₁ h₂ h₃ b t hb ht h₄ h₅ => exact .last h₁ h₂ h₃ b t hb ht h₄ h₅
      | after h₁ h₂ h₃ h₄ => exact .after h₁ h₂ h₃ h₄ }

/-- What a thread step is. -/
theorem step_thread {b t : ℕ} {ok : Bool} (h : step cfg S (.thread b t ok) = some S') :
    ∃ L i, S.launch = some L ∧ (S.thread b t).current L.program = some i ∧ b < L.grid cfg ∧
      t < cfg.threads ∧ S.Enabled cfg b t i ∧ S' = S.exec cfg L b t ok i := by
  simp only [PoisonGuard.step] at h
  split at h
  · cases h
  · rename_i L hL
    split at h
    · cases h
    · rename_i i hi
      obtain ⟨⟨⟨hb, ht⟩, henabled⟩, h⟩ := Option.ite_none_right_eq_some.mp h
      exact ⟨L, i, hL, hi, hb, ht, henabled, (Option.some.inj h).symm⟩

/-- What the start of a launch is. -/
theorem step_begin (h : step cfg S .begin = some S') :
    ∃ L queue, S.queue = L :: queue ∧ S.Finished cfg ∧ S' = S.begin L queue := by
  simp only [PoisonGuard.step] at h
  split at h
  · cases h
  · rename_i L queue hqueue
    obtain ⟨hfinished, h⟩ := Option.ite_none_right_eq_some.mp h
    exact ⟨L, queue, hqueue, hfinished, (Option.some.inj h).symm⟩

/-- What a call of `all_reduce` or `all_gather` leaves: at most a launch in the
queue. -/
theorem collective_snd (S : State) (L : Launch) : ∃ exhausted queue, (queue = S.queue ∨
    queue = S.queue ++ [L]) ∧
      (S.collective L).2 = { S with exhausted := exhausted, queue := queue } := by
  unfold State.collective
  split
  · exact ⟨_, _, .inl rfl, rfl⟩
  · exact ⟨_, _, .inr rfl, rfl⟩

theorem Inv.step (hinv : Inv cfg S) {a : Action} (h : step cfg S a = some S') : Inv cfg S' := by
  cases a with
  | collective L =>
    obtain ⟨hL, h⟩ := Option.ite_none_right_eq_some.mp h
    obtain rfl := Option.some.inj h
    obtain ⟨exhausted, queue, hqueue, hS'⟩ := collective_snd S L
    rw [hS']
    refine hinv.host fun L' hL' => ?_
    obtain rfl | rfl := hqueue
    · exact hinv.queue L' hL'
    · obtain hL' | hL' := List.mem_append.mp hL'
      · exact hinv.queue L' hL'
      · exact List.mem_singleton.mp hL' ▸ hL
  | replay Ls =>
    obtain ⟨hLs, h⟩ := Option.ite_none_right_eq_some.mp h
    obtain rfl := Option.some.inj h
    refine hinv.host fun L' hL' => ?_
    exact (List.mem_append.mp hL').elim (hinv.queue L') (hLs L')
  | checkHealth =>
    obtain rfl := Option.some.inj h
    exact hinv.host hinv.queue
  | proxyFail =>
    obtain rfl := Option.some.inj h
    exact hinv.host hinv.queue
  | begin =>
    obtain ⟨L, queue, hqueue, hfinished, rfl⟩ := step_begin h
    exact hinv.begin hfinished hqueue
  | thread b t ok =>
    obtain ⟨L, i, hL, hcur, hb, ht, henabled, rfl⟩ := step_thread h
    exact hinv.exec hL hb ht hcur henabled

theorem Inv.reachable (hinv : Inv cfg S) (h : Reachable cfg S S') : Inv cfg S' :=
  h.invariant (Inv cfg) hinv fun _ _ _ hinv _ hstep => hinv.step hstep

/-- What a step other than the start of a launch leaves alone. -/
theorem step_entry {a : Action} (ha : a ≠ .begin) (h : PoisonGuard.step cfg S a = some S') :
    S'.entry = S.entry ∧ S'.launch = S.launch := by
  cases a with
  | collective L =>
    obtain ⟨-, h⟩ := Option.ite_none_right_eq_some.mp h
    obtain rfl := Option.some.inj h
    obtain ⟨exhausted, queue, -, hS'⟩ := collective_snd S L
    rw [hS']
    exact ⟨rfl, rfl⟩
  | replay Ls =>
    obtain ⟨-, h⟩ := Option.ite_none_right_eq_some.mp h
    obtain rfl := Option.some.inj h
    exact ⟨rfl, rfl⟩
  | checkHealth | proxyFail =>
    obtain rfl := Option.some.inj h
    exact ⟨rfl, rfl⟩
  | begin => exact absurd rfl ha
  | thread b t ok =>
    obtain ⟨L, i, -, -, -, -, -, rfl⟩ := step_thread h
    exact ⟨rfl, rfl⟩

end Run

/-! ## The health check -/

section Health

variable {cfg : Setting} {S S' : State}

/-- An error word that is set, or an exhausted runtime, makes the health check
raise. -/
theorem raises_of_error (h : S.mem.error ≠ 0 ∨ S.exhausted) : S.Raises := by
  unfold State.Raises State.checkHealth
  split
  · exact ⟨_, rfl⟩
  split
  · exact ⟨_, rfl⟩
  split
  · exact ⟨_, rfl⟩
  split
  · exact ⟨_, rfl⟩
  · rename_i hexhausted _ herror
    exact absurd h (not_or.mpr ⟨herror, fun h => hexhausted (.inl h)⟩)

/-- A collective that begins with a health check which raises launches nothing. -/
theorem collective_of_raises (h : S.Raises) (L : Launch) :
    ∃ e, (S.collective L).1 = .error e ∧ (S.collective L).2.queue = S.queue := by
  obtain ⟨e, he⟩ := h
  unfold State.collective
  split
  · rename_i e' exhausted h
    exact ⟨e', rfl, rfl⟩
  · rename_i exhausted h
    rw [h] at he
    cases he

/-- The health check that finds the runtime exhausted leaves it marked. -/
theorem exhausted_of_raises (h : S.checkHealth.1 = .error .sequenceZero ∨
    ∃ seq, S.checkHealth.1 = .error (.wrapGuard seq)) : S.checkHealth.2 = true := by
  revert h
  unfold State.checkHealth
  split_ifs <;> simp

/-- The words a failure is recorded in stay set. -/
theorem step_sticky (hinv : Inv cfg S) {a : Action} (h : step cfg S a = some S') :
    (S.mem.error ≠ 0 → S'.mem.error ≠ 0) ∧ (S.exhausted → S'.exhausted) ∧
      (S.HasFailed → S'.HasFailed ∧ S'.mem.epoch = S.mem.epoch) := by
  have hsticky : S.exhausted = true → S.checkHealth.2 = true := by
    intro h
    unfold State.checkHealth
    split_ifs
    exacts [h, rfl, rfl, h, h]
  cases a with
  | collective L =>
    obtain ⟨-, h⟩ := Option.ite_none_right_eq_some.mp h
    obtain rfl := Option.some.inj h
    unfold State.collective
    split
    · rename_i h
      exact ⟨id, fun hex => (congrArg Prod.snd h).symm.trans (hsticky hex), fun h => ⟨h, rfl⟩⟩
    · rename_i h
      exact ⟨id, fun hex => (congrArg Prod.snd h).symm.trans (hsticky hex), fun h => ⟨h, rfl⟩⟩
  | replay Ls =>
    obtain ⟨-, h⟩ := Option.ite_none_right_eq_some.mp h
    obtain rfl := Option.some.inj h
    exact ⟨id, id, fun h => ⟨h, rfl⟩⟩
  | checkHealth =>
    obtain rfl := Option.some.inj h
    exact ⟨id, hsticky, fun h => ⟨h, rfl⟩⟩
  | proxyFail =>
    obtain rfl := Option.some.inj h
    exact ⟨id, id, fun h => ⟨h, rfl⟩⟩
  | begin =>
    obtain ⟨L, queue, -, -, rfl⟩ := step_begin h
    exact ⟨id, id, fun h => ⟨h, rfl⟩⟩
  | thread b t ok =>
    obtain ⟨L, i, hL, hcur, hb, ht, -, rfl⟩ := step_thread h
    refine ⟨((hinv.launch L hL).threads b hb t ht).error_ne hcur, id, fun hfailed => ⟨?_, ?_⟩⟩
    · obtain ⟨f, hf, hfail⟩ := hfailed
      exact ⟨f, List.mem_cons_of_mem _ hf, hfail⟩
    · refine exec_epoch ?_
      rintro rfl
      exact hinv.not_failed_of_setEpoch hL hb ht
        (ThreadInv.todo_of_current ⟨_, .setEpoch 0⟩ hcur) hfailed

/-- What holds of a state on the way of a run holds of the run. -/
theorem sticky_of_reachable (hinv : Inv cfg S) (h : Reachable cfg S S') :
    (S.mem.error ≠ 0 → S'.mem.error ≠ 0) ∧ (S.exhausted → S'.exhausted) ∧
      (S.HasFailed → S'.HasFailed ∧ S'.mem.epoch = S.mem.epoch) := by
  induction h with
  | start => exact ⟨id, id, fun h => ⟨h, rfl⟩⟩
  | step hreach _ hstep ih =>
    obtain ⟨herror, hexhausted, hepoch⟩ := step_sticky (hinv.reachable hreach) hstep
    refine ⟨fun h => herror (ih.1 h), fun h => hexhausted (ih.2.1 h), fun h => ?_⟩
    obtain ⟨hfailed, hih⟩ := ih.2.2 h
    exact ⟨(hepoch hfailed).1, (hepoch hfailed).2.trans hih⟩

end Health

/-! ## The guarantees -/

/-- What a run that has led to `S` guarantees. -/
structure Guarded (cfg : Setting) (S : State) : Prop where
  /-- a launch with sequence number 0 touches nothing -/
  zero : ∀ e ∈ S.trace, e.op.Touches → e.seq ≠ 0
  /-- after a failure the epoch stays -/
  epoch : S.HasFailed → ∀ S', Reachable cfg S S' → S'.mem.epoch = S.mem.epoch
  /-- a launch after a failed one touches nothing -/
  later : ∀ e ∈ S.trace, e.op.Touches → ∀ f ∈ S.trace, f.Failed → e.launch ≤ f.launch
  /-- a ready word is stored by a thread that has found the error word zero, and
  for a chunk that every thread has staged or reduced -/
  ready : ∀ L, S.launch = some L → ∀ e ∈ S.trace, e.launch = S.begun → ∀ part,
    e.op = .publish part → S.Prepared cfg L part ∧ ∃ f ∈ S.trace, f.launch = S.begun ∧
      f.block = e.block ∧ f.thread = e.thread ∧ f.op = .checkReady part ∧ f.error = 0
  /-- a failed launch has set the error word by its end -/
  recorded : S.HasFailed → S.Finished cfg → S.mem.error ≠ 0
  /-- from then on the health check raises, and what begins with it launches
  nothing; so it does once it has found the runtime exhausted -/
  health : S.mem.error ≠ 0 ∨ S.exhausted → ∀ S', Reachable cfg S S' → S'.Raises ∧
    ∀ L, ∃ e, (S'.collective L).1 = .error e ∧ (S'.collective L).2.queue = S'.queue
  exhausted : (S.checkHealth.1 = .error .sequenceZero ∨
    ∃ seq, S.checkHealth.1 = .error (.wrapGuard seq)) → S.checkHealth.2 = true
  /-- the next launch, if nothing fails in it, advances the epoch once -/
  advance : S.mem.error = 0 → S.mem.epoch + 1 ≠ 0 → ∀ S₁ S', step cfg S .begin = some S₁ →
    Transition.Reachable (step cfg) (fun _ a => a ≠ .begin) S₁ S' → S'.Finished cfg →
      (∀ e ∈ S'.trace, e.launch = S'.begun → ¬e.TimedOut) →
        S'.mem.epoch = S.mem.epoch + 1 ∧ advances S'.begun S'.trace = 1

section Guarded

variable {cfg : Setting} {S : State}

/-- A launch that began with a zero error word, and in which nothing fails, has
advanced the epoch at its end. -/
theorem Inv.advanced (hinv : Inv cfg S) {L : Launch} (hL : S.launch = some L)
    (hfinished : S.Finished cfg) (hentry : S.entry.error = 0) (hzero : S.entry.epoch + 1 ≠ 0)
    (htimed : ∀ e ∈ S.trace, e.launch = S.begun → ¬e.TimedOut) :
    S.mem.epoch = S.entry.epoch + 1 ∧ advances S.begun S.trace = 1 := by
  have hlaunch := hinv.launch L hL
  have herror : S.mem.error = 0 := by
    by_contra hne
    obtain h | ⟨f, hf, hn, hfail | hseq⟩ := hinv.cause hne
    · exact h hentry
    · exact htimed f hf hn hfail
    · exact hzero ((hlaunch.owner f hf hn).2.2.symm.trans hseq)
  have hnone : ∀ b < L.grid cfg, ∀ t < cfg.threads, ¬S.InTail L b t := by
    intro b hb t ht h
    have htodo := h.2
    rw [(todo_of_finished hlaunch hL hfinished hb ht).2] at htodo
    cases htodo
  cases hinv.tail L hL herror with
  | after _ hepoch hadvances _ => exact ⟨hepoch, hadvances⟩
  | last _ _ _ b t hb ht hin _ => exact absurd hin (hnone b hb t ht)
  | before hlength _ _ _ =>
    have hperm := hinv.arrivals_of_finished hL hfinished herror L.program_arrive
    exact absurd (hperm.length_eq.trans List.length_range) (Nat.ne_of_lt hlength)

/-- Two ranks, two threads for each block, and two blocks for a two-shot kernel. -/
def pairSetting : Setting where
  world := 2
  hcas := 1
  rank := 0
  threads := 2
  blocksLog := 0
  pipeLog := 1
  maxChunks := 1
  threads_pos := by decide
  blocksLog_lt := by decide
  pipeLog_lt := by decide

/-- A block up to its arrival at the first counter. -/
def arriving (b : ℕ) : List Action :=
  List.replicate 6 (.thread b 0 true) ++ List.replicate 6 (.thread b 1 true) ++
    [.thread b 1 true, .thread b 0 true, .thread b 0 true]

/-- The second block, the last to arrive, finds the error word zero; the wait of
the first block for the peer times out; then the second block stores the ready
word. -/
def lateRun : List Action :=
  [.replay [.twoshot 1], .begin] ++ .thread 0 0 true :: arriving 0 ++ arriving 1 ++
    [.thread 1 0 true, .thread 0 1 true, .thread 0 1 true, .thread 0 1 false, .thread 0 1 true,
      .thread 0 1 true, .thread 0 1 true, .thread 1 0 true]

end Guarded

end PoisonGuard
