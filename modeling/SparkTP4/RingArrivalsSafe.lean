import SparkTP4.RingArrivalsLaunch

/-!
# The arrivals of the ring kernels are exact

Over whole runs: any mix of all-reduces on 2, 4 or 8 blocks and all-gathers shares the two
counters, and still each launch rings its doorbell once and advances the epoch once, when every
thread has done its part. A wait that times out stops this for good: the epoch stays, the later
launches do nothing, the block stores no output, and the host raises.
-/

namespace RingArrivals

variable {cfg : Setting} {L : Launch} {S S' : State} {b t b' t' n : ℕ} {ok : Bool} {e : Entry}
  {trace : List Entry}

/-! ## The last block -/

/-- The counters. -/
inductive Counter where
  | stage
  | tail

namespace Counter

def word : Counter → Memory → UInt32
  | stage, M => M.stage
  | tail, M => M.tail

/-- The position of the arrival. -/
def pos : Counter → ℕ
  | stage => 4
  | tail => 12

/-- What the thread that arrives last does first. -/
def first : Counter → Pc
  | stage => .ringBytes
  | tail => .checkFlag

/-- What it does last. -/
def publishes : Counter → Pc
  | stage => .ring
  | tail => .advance

theorem solid (c : Counter) : Solid c.pos := by
  unfold Solid
  cases c <;> decide

end Counter

/-- The thread is that of the block that arrived last. -/
def Counter.Pending (c : Counter) (pc : Pc) : Prop := pc = c.first ∨ pc = c.publishes

theorem Counter.Pending.leads {c : Counter} {pc : Pc} (h : c.Pending pc) : pc.Leads := by
  unfold Pc.Leads
  cases c
  · exact h.imp_right .inl
  · exact .inr (.inr h)

theorem Counter.Pending.lt_pos {c : Counter} {pc : Pc} (h : c.Pending pc) : c.pos < pc.pos := by
  cases c <;> rcases h with rfl | rfl <;> decide

namespace Goes

variable {M : Memory} {pc pc' : Pc} {c : Counter}

/-- **A thread is to publish** after the last arrival, or when it was already. -/
theorem pending (h : Goes cfg L M t ok pc pc') (hpend : c.Pending pc') :
    c.Pending pc ∧ pc ≠ c.publishes ∨
      pc.pos = c.pos ∧ t = 0 ∧ (c.word M + L.arrivalStep) % L.modulus = 0 := by
  cases c <;> rcases hpend with rfl | rfl <;> cases h
  case stage.inl.lastStage ht h => exact .inr ⟨rfl, ht, h⟩
  case stage.inr.ringBytes => exact .inl ⟨.inl rfl, Pc.noConfusion⟩
  case tail.inl.lastTail ht h => exact .inr ⟨rfl, ht, h⟩
  case tail.inr.unflagged => exact .inl ⟨.inl rfl, Pc.noConfusion⟩

/-- The last arrival makes a thread publish. -/
theorem pending_of_last (h : Goes cfg L M t ok pc pc') (hpos : pc.pos = c.pos) (ht : t = 0)
    (hlast : (c.word M + L.arrivalStep) % L.modulus = 0) : c.Pending pc' := by
  cases c
  · obtain rfl := pos_eq_iff.2.1.mp hpos
    cases h with
    | lastStage _ _ => exact .inl rfl
    | arriveStage h => exact absurd ⟨ht, hlast⟩ h
  · obtain rfl := pos_eq_iff.2.2.1.mp hpos
    cases h with
    | lastTail _ _ => exact .inl rfl
    | arriveTail h => exact absurd ⟨ht, hlast⟩ h

/-- A thread goes on to publish while the flag is clear. -/
theorem publishes (h : Goes cfg L M t ok c.first pc') (hflag : M.flag = 0) :
    pc' = c.publishes := by
  cases c <;> cases h
  case stage.ringBytes => rfl
  case tail.unflagged => rfl
  case tail.flagged h => exact absurd hflag h

end Goes

/-! ## Once a launch -/

theorem executed_cons (n : ℕ) (op : Pc) (e : Entry) (trace : List Entry) :
    executed n op (e :: trace) =
      executed n op trace + if e.launch = n ∧ e.op = op then 1 else 0 := by
  unfold executed
  rw [List.countP_cons]
  simp only [decide_eq_true_eq]

/-- How far the arrivals at a counter are: some block is still to arrive; the thread of the last
block is to publish; or it has. -/
inductive Phase (S : State) (L : Launch) (c : Counter) : Prop
  | before (hfew : S.arrived L c.pos < L.grid)
      (hnone : ∀ b < L.grid, ¬c.Pending (S.thread b 0).pc)
      (hzero : executed S.begun c.publishes S.trace = 0)
  | during (b : ℕ) (hb : b < L.grid) (hall : S.arrived L c.pos = L.grid)
      (hpend : c.Pending (S.thread b 0).pc)
      (hother : ∀ b' < L.grid, b' ≠ b → ¬c.Pending (S.thread b' 0).pc)
      (hzero : executed S.begun c.publishes S.trace = 0)
  | after (hall : S.arrived L c.pos = L.grid) (hnone : ∀ b < L.grid, ¬c.Pending (S.thread b 0).pc)
      (hone : executed S.begun c.publishes S.trace = 1)

theorem LaunchInv.count (hinv : LaunchInv cfg S L) (hentry : S.entry.poison = 0) (c : Counter) :
    (c.word S.mem).toNat % 8 = S.arrived L c.pos * L.arrivalStep.toNat % 8 := by
  cases c
  exacts [(hinv.counts hentry).1, (hinv.counts hentry).2]

namespace Phase

variable {c : Counter}

/-- A step that is not the publication leaves its number. -/
theorem executed_exec (h : (S.thread b t).pc ≠ c.publishes) :
    executed S.begun c.publishes (S.exec cfg L b t ok).trace =
      executed S.begun c.publishes S.trace := by
  rw [exec_trace, executed_cons, if_neg fun hop => h hop.2]
  rfl

/-- A thread of a block that is not the last is not to publish after its step. -/
theorem not_pending_exec (hinv : LaunchInv cfg S L) (hm : Moves cfg S L b 0)
    (hentry : S.entry.poison = 0) (hpc : ¬c.Pending (S.thread b 0).pc)
    (hlast : (S.thread b 0).pc.pos = c.pos → S.arrived L c.pos + 1 ≠ L.grid) :
    ¬c.Pending ((S.exec cfg L b 0 ok).thread b 0).pc := by
  intro hpend
  rcases (hm.goes ok).pending hpend with ⟨h, -⟩ | ⟨hpos, -, h⟩
  · exact hpc h
  · exact hlast hpos ((last_iff (hinv.count hentry c) (hm.arrived_lt rfl hpos)).mp h)

/-- **Each publication is made once**: what a step does to the phase. -/
theorem exec (h : Phase S L c) (hinv : LaunchInv cfg S L) (hm : Moves cfg S L b t)
    (hentry : S.entry.poison = 0) (hflag : S.mem.flag = 0) :
    Phase (S.exec cfg L b t ok) L c := by
  by_cases ht : t = 0
  swap
  · -- another thread than the first neither arrives nor publishes
    have hpc (b' : ℕ) : (S.exec cfg L b t ok).thread b' 0 = S.thread b' 0 :=
      exec_thread_ne S fun hbt => ht hbt.2.symm
    have harrived : (S.exec cfg L b t ok).arrived L c.pos = S.arrived L c.pos :=
      hm.arrived_eq c.solid fun hpos => ht hpos.1
    have hcount : executed S.begun c.publishes (S.exec cfg L b t ok).trace =
        executed S.begun c.publishes S.trace :=
      executed_exec fun hop => ht (hinv.leads b t (Counter.Pending.leads (.inr hop)))
    cases h with
    | before hfew hnone hzero =>
      refine .before (harrived ▸ hfew) (fun b' hb' => ?_) (hcount.trans hzero)
      rw [hpc]
      exact hnone b' hb'
    | during b₀ hb₀ hall hpend hother hzero =>
      refine .during b₀ hb₀ (harrived.trans hall) ?_ (fun b' hb' hne => ?_) (hcount.trans hzero)
      · rwa [hpc]
      · rw [hpc]
        exact hother b' hb' hne
    | after hall hnone hone =>
      refine .after (harrived.trans hall) (fun b' hb' => ?_) (hcount.trans hone)
      rw [hpc]
      exact hnone b' hb'
  · subst ht
    have hpc {b' : ℕ} (hne : b' ≠ b) : (S.exec cfg L b 0 ok).thread b' 0 = S.thread b' 0 :=
      exec_thread_ne S fun hbt => hne hbt.1
    -- the arrivals stay complete
    have hcomplete (hall : S.arrived L c.pos = L.grid) :
        (S.exec cfg L b 0 ok).arrived L c.pos = L.grid :=
      arrived_eq_iff.mpr fun b' hb' => hm.beyond c.solid (arrived_eq_iff.mp hall b' hb')
    cases h with
    | before hfew hnone hzero =>
      have hb := hnone b hm.block
      have hcount : executed S.begun c.publishes (S.exec cfg L b 0 ok).trace = 0 :=
        (executed_exec fun hop => hb (.inr hop)).trans hzero
      by_cases hlast : (S.thread b 0).pc.pos = c.pos ∧ S.arrived L c.pos + 1 = L.grid
      · refine .during b hm.block ?_ ?_ (fun b' hb' hne => ?_) hcount
        · rw [hm.arrived_succ c.solid rfl hlast.1, hlast.2]
        · exact (hm.goes ok).pending_of_last hlast.1 rfl
            ((last_iff (hinv.count hentry c) hfew).mpr hlast.2)
        · rw [hpc hne]
          exact hnone b' hb'
      · refine .before ?_ (fun b' hb' => ?_) hcount
        · by_cases hpos : (S.thread b 0).pc.pos = c.pos
          · rw [hm.arrived_succ c.solid rfl hpos]
            exact lt_of_le_of_ne hfew fun heq => hlast ⟨hpos, heq⟩
          · rwa [hm.arrived_eq c.solid fun h => hpos h.2]
        · by_cases hne : b' = b
          · subst hne
            exact not_pending_exec hinv hm hentry hb fun hpos heq => hlast ⟨hpos, heq⟩
          · rw [hpc hne]
            exact hnone b' hb'
    | during b₀ hb₀ hall hpend hother hzero =>
      by_cases hne : b₀ = b
      · subst hne
        have hgoes := hm.goes ok
        rcases hpend with hfirst | hpub
        · rw [hfirst] at hgoes
          refine .during b₀ hb₀ (hcomplete hall) (.inr (hgoes.publishes hflag))
            (fun b' hb' hne => ?_) ((executed_exec ?_).trans hzero)
          · rw [hpc hne]
            exact hother b' hb' hne
          · rw [hfirst]
            cases c <;> exact Pc.noConfusion
        · refine .after (hcomplete hall) (fun b' hb' => ?_) ?_
          · by_cases hne : b' = b₀
            · subst hne
              intro hpend
              rcases hgoes.pending hpend with ⟨-, h⟩ | ⟨hpos, -, -⟩
              · exact h hpub
              · exact absurd hpos (Nat.ne_of_gt (Counter.Pending.lt_pos (.inr hpub)))
            · rw [hpc hne]
              exact hother b' hb' hne
          · rw [exec_trace]
            show executed S.begun _ _ = 1
            rw [executed_cons, if_pos ⟨rfl, hpub⟩, hzero]
      · have hb := hother b hm.block (Ne.symm hne)
        refine .during b₀ hb₀ (hcomplete hall) ?_ (fun b' hb' hne' => ?_)
          ((executed_exec fun hop => hb (.inr hop)).trans hzero)
        · rwa [hpc hne]
        · by_cases heq : b' = b
          · subst heq
            exact not_pending_exec hinv hm hentry hb fun hpos _ =>
              absurd (hm.arrived_lt rfl hpos) (by rw [hall]; exact Nat.lt_irrefl _)
          · rw [hpc heq]
            exact hother b' hb' hne'
    | after hall hnone hone =>
      have hb := hnone b hm.block
      refine .after (hcomplete hall) (fun b' hb' => ?_)
        ((executed_exec fun hop => hb (.inr hop)).trans hone)
      by_cases heq : b' = b
      · subst heq
        exact not_pending_exec hinv hm hentry hb fun hpos _ =>
          absurd (hm.arrived_lt rfl hpos) (by rw [hall]; exact Nat.lt_irrefl _)
      · rw [hpc heq]
        exact hnone b' hb'

end Phase

/-! ## Every run -/

/-- What holds of a launch as long as no wait has timed out. -/
structure Healthy (cfg : Setting) (S : State) (L : Launch) : Prop where
  phase : ∀ c, Phase S L c
  rung : Preceded cfg L S.begun .ring .stage S.trace
  advanced : Preceded cfg L S.begun .advance .data S.trace
  epoch : 0 < executed S.begun .advance S.trace → S.mem.epoch = S.entry.epoch + 1

/-- A step that only a launch that has found the runtime healthy takes. -/
def Pc.Works (pc : Pc) : Prop := pc = stage ∨ pc = ringBytes ∨ pc = ring ∨ pc = data

theorem Pc.Works.pos {pc : Pc} (h : pc.Works) : 1 < pc.pos := by
  rcases h with rfl | rfl | rfl | rfl <;> decide

/-- **The invariant of the runs.** -/
structure Inv (cfg : Setting) (S : State) : Prop where
  fresh : S.launch = none → S.mem = .zero ∧ S.entry = .zero ∧ S.trace = []
  launch : ∀ L, S.launch = some L → LaunchInv cfg S L
  flag : S.mem.poison ≠ 0 → S.mem.flag ≠ 0
  unclean : S.mem.flag ≠ 0 → ¬S.Clean
  le : ∀ e ∈ S.trace, e.launch ≤ S.begun
  past : ∀ f ∈ S.trace, f.TimedOut → f.launch ≠ S.begun → S.entry.poison ≠ 0
  later : ∀ e ∈ S.trace, e.op.Works → ∀ f ∈ S.trace, f.TimedOut → e.launch ≤ f.launch
  output : ∀ e ∈ S.trace, e.op = .data → ∀ f ∈ S.trace, f.TimedOut → e.launch = f.launch →
    e.block ≠ f.block
  reported : S.mem.flag ≠ 0 → S.mem.error = S.mem.epoch + 1 ∧ S.PeerOk
  healthy : S.Clean → ∀ L, S.launch = some L → Healthy cfg S L

theorem executed_eq_zero {op : Pc} (h : ∀ e ∈ trace, e.launch ≠ n) : executed n op trace = 0 := by
  unfold executed
  rw [List.countP_eq_zero]
  intro e he hop
  rw [decide_eq_true_eq] at hop
  exact h e he hop.1

theorem Preceded.of_not_mem {op earlier : Pc} (h : ∀ e ∈ trace, e.launch ≠ n) :
    Preceded cfg L n op earlier trace := by
  rintro after e before rfl hlaunch
  exact absurd hlaunch (h e (List.mem_append_right _ List.mem_cons_self))

theorem Preceded.cons {op earlier : Pc} (h : Preceded cfg L n op earlier trace)
    (hnew : e.launch = n → e.op = op → ∀ b < L.grid, ∀ t < cfg.threads,
      Logged trace n b t earlier) :
    Preceded cfg L n op earlier (e :: trace) := by
  intro after e' before heq
  cases after with
  | nil =>
    obtain ⟨rfl, rfl⟩ := List.cons.inj heq
    exact hnew
  | cons _ after =>
    obtain ⟨-, rfl⟩ := List.cons.inj heq
    exact h after e' before rfl

theorem Clean.of_exec (h : (S.exec cfg L b t ok).Clean) : S.Clean :=
  fun f hf => h f (List.mem_cons_of_mem _ hf)

namespace Inv

theorem start (cfg : Setting) : Inv cfg .start where
  fresh _ := ⟨rfl, rfl, rfl⟩
  launch _ h := by cases h
  flag h := absurd rfl h
  unclean h := absurd rfl h
  le _ h := absurd h List.not_mem_nil
  past _ h := absurd h List.not_mem_nil
  later _ h := absurd h List.not_mem_nil
  output _ h := absurd h List.not_mem_nil
  reported h := absurd rfl h
  healthy _ _ h := by cases h

variable (hinv : Inv cfg S)
include hinv

/-- A clean run has poisoned nothing. -/
theorem of_clean (hclean : S.Clean) : S.mem.flag = 0 ∧ S.mem.poison = 0 := by
  have hflag : S.mem.flag = 0 := by
    by_contra h
    exact hinv.unclean h hclean
  refine ⟨hflag, ?_⟩
  by_contra h
  exact hinv.flag h hflag

section Step

variable (hL : S.launch = some L) (hm : Moves cfg S L b t)
include hL hm

omit hm in
/-- What a thread does in a launch that a time-out has preceded. -/
theorem not_works_of_past {f : Entry} (hf : f ∈ S.trace) (htimed : f.TimedOut)
    (hlaunch : f.launch ≠ S.begun) : ¬(S.thread b t).pc.Works := by
  intro hworks
  have hidle := ((hinv.launch L hL).idle (hinv.past f hf htimed hlaunch)).2 b t
  exact absurd hidle (Nat.not_le_of_lt hworks.pos)

omit hm in
/-- The thread that is to advance the epoch has seen no time-out. -/
theorem clean_of_advance (hb : b < L.grid) (hadv : (S.thread b t).pc = .advance) : S.Clean := by
  obtain rfl : t = 0 := (hinv.launch L hL).leads b t (by rw [hadv]; exact .inr (.inr (.inr rfl)))
  exact (hinv.launch L hL).advance b hb hadv

/-- **A step after a time-out keeps the epoch.** -/
theorem exec_epoch_eq (hunclean : ¬S.Clean) : (S.exec cfg L b t ok).mem.epoch = S.mem.epoch := by
  show (S.mem.exec L t (S.thread b t).seq (S.thread b t).pc).epoch = _
  rw [exec_epoch, if_neg fun hadv => hunclean (hinv.clean_of_advance hL hm.block hadv)]

omit hm in
theorem exec_flag_of_poison (hpoison : (S.exec cfg L b t ok).mem.poison ≠ 0) :
    (S.exec cfg L b t ok).mem.flag ≠ 0 := by
  obtain ⟨-, -, -, -, hkept⟩ | ⟨k, peer, flags, hpc, -, -, -, hset⟩ :=
    exec_failure L S.mem t (S.thread b t).seq (S.thread b t).pc
  · exact exec_flag (hinv.flag (hkept ▸ hpoison))
  · by_cases hk : k < 3
    · rw [if_pos hk] at hset
      exact exec_flag (hinv.flag (hset ▸ hpoison))
    · exact exec_flag (((hinv.launch L hL).record b t k peer flags hpc).flag (Nat.lt_of_not_le
        fun hle => hk (Nat.lt_of_le_of_lt hle (by decide))))

omit hinv hL hm in
/-- What sets the flag: nothing, or the third store of a time-out. -/
theorem flag_cases (hflag : (S.exec cfg L b t ok).mem.flag ≠ 0) : S.mem.flag ≠ 0 ∨
    ∃ peer flags, (S.thread b t).pc = .record 2 peer flags := by
  obtain ⟨-, -, -, hkept, -⟩ | ⟨k, peer, flags, hpc, -, -, hset, -⟩ :=
    exec_failure L S.mem t (S.thread b t).seq (S.thread b t).pc
  · exact .inl (hkept ▸ hflag)
  · by_cases hk : k = 2
    · subst hk
      exact .inr ⟨peer, flags, hpc⟩
    · rw [if_neg hk] at hset
      exact .inl (hset ▸ hflag)

omit hm in
theorem exec_unclean (hflag : (S.exec cfg L b t ok).mem.flag ≠ 0) :
    ¬(S.exec cfg L b t ok).Clean := by
  intro hclean
  rcases flag_cases hflag with h | ⟨peer, flags, hpc⟩
  · exact hinv.unclean h (Clean.of_exec hclean)
  · obtain ⟨f, hf, htimed, -⟩ := ((hinv.launch L hL).record b t 2 peer flags hpc).wait
    exact Clean.of_exec hclean f hf htimed

omit hm in
theorem exec_later : ∀ e ∈ (S.exec cfg L b t ok).trace, e.op.Works →
    ∀ f ∈ (S.exec cfg L b t ok).trace, f.TimedOut → e.launch ≤ f.launch := by
  intro e he hworks f hf htimed
  rcases List.mem_cons.mp he with rfl | he <;> rcases List.mem_cons.mp hf with rfl | hf
  · exact Nat.le_refl _
  · by_cases hlaunch : f.launch = S.begun
    · exact hlaunch.ge
    · exact absurd hworks (hinv.not_works_of_past hL hf htimed hlaunch)
  · exact hinv.le e he
  · exact hinv.later e he hworks f hf htimed

theorem exec_output : ∀ e ∈ (S.exec cfg L b t ok).trace, e.op = .data →
    ∀ f ∈ (S.exec cfg L b t ok).trace, f.TimedOut → e.launch = f.launch → e.block ≠ f.block := by
  intro e he hdata f hf htimed hlaunch hblock
  have hinvL := hinv.launch L hL
  rcases List.mem_cons.mp he with rfl | he <;> rcases List.mem_cons.mp hf with rfl | hf
  · obtain ⟨g, flags, hwait, -⟩ := LaunchInv.pos_of_timedOut htimed
    cases (show (S.thread b t).pc = .data from hdata).symm.trans hwait
  · exact hinvL.data b hm.block t hm.thread hdata f hf htimed hlaunch.symm hblock.symm
  · -- the block that has stored is beyond the wait
    obtain ⟨g, flags, hwait, -⟩ := LaunchInv.pos_of_timedOut htimed
    obtain ⟨hb, ht⟩ := hinvL.owner e he hlaunch
    change e.block = b at hblock
    have hpos := hinvL.stored e he hlaunch hdata
    rw [hblock] at hpos
    rcases hinvL.barrier b hm.block e.thread ht t hm.thread 8 (.inr (.inl rfl))
      (lt_trans (by decide) hpos) with h | h
    · exact hm.inside (.inr h)
    · rw [hwait] at h
      exact absurd h (by simp [Pc.pos])
  · exact hinv.output e he hdata f hf htimed hlaunch hblock

theorem exec_reported (hflag : (S.exec cfg L b t ok).mem.flag ≠ 0) :
    (S.exec cfg L b t ok).mem.error = (S.exec cfg L b t ok).mem.epoch + 1 ∧
      (S.exec cfg L b t ok).PeerOk := by
  have hinvL := hinv.launch L hL
  -- at a store of a time-out the epoch is the one the launch began with
  have hrecord {k peer : ℕ} {flags : List (ℕ × ℕ)} (hpc : (S.thread b t).pc = .record k peer flags) :
      S.mem.epoch = S.entry.epoch := hinvL.epoch_eq hm (by rw [hpc]; simp [Pc.pos])
  have hunclean : ¬S.Clean := by
    intro hclean
    rcases flag_cases hflag with h | ⟨peer, flags, hpc⟩
    · exact hinv.unclean h hclean
    · obtain ⟨f, hf, htimed, -⟩ := (hinvL.record b t 2 peer flags hpc).wait
      exact hclean f hf htimed
  rw [hinv.exec_epoch_eq hL hm hunclean]
  rcases flag_cases hflag with h | ⟨peer, flags, hpc⟩
  · obtain ⟨herror, hpeer⟩ := hinv.reported h
    refine ⟨?_, hinvL.exec_peerOk (.inl hpeer)⟩
    obtain ⟨-, -, hkept, -⟩ | ⟨k, peer, flags, hpc, -⟩ :=
      exec_failure L S.mem t (S.thread b t).seq (S.thread b t).pc
    · exact hkept.trans herror
    · rw [hrecord hpc] at herror ⊢
      exact hinvL.exec_error (.inl herror)
  · have hrec := hinvL.record b t 2 peer flags hpc
    rw [hrecord hpc]
    exact ⟨hinvL.exec_error (.inl (hrec.error (by decide))),
      hinvL.exec_peerOk (.inl (hrec.peer (by decide)))⟩

theorem exec_healthy (hclean : (S.exec cfg L b t ok).Clean) :
    Healthy cfg (S.exec cfg L b t ok) L := by
  have hclean' := Clean.of_exec hclean
  obtain ⟨hflag, hpoison⟩ := hinv.of_clean hclean'
  have hinvL := hinv.launch L hL
  have hhealthy := hinv.healthy hclean' L hL
  have hthreads : 0 < cfg.threads := cfg.threads_pos
  have hentry : S.entry.poison = 0 := by
    by_contra h
    exact (hinvL.idle h).1 hpoison
  have hunskipped {b' t' : ℕ} (h : (S.thread b' t').pc = .skipped) : False :=
    hinvL.skipped b' t' h hpoison
  refine ⟨fun c => (hhealthy.phase c).exec hinvL hm hentry hflag,
    hhealthy.rung.cons fun _ hop b' hb' t' ht' => ?_,
    hhealthy.advanced.cons fun _ hop b' hb' t' ht' => ?_, fun hpos => ?_⟩
  · -- the doorbell: all blocks have arrived, each after its barrier
    change (S.thread b t).pc = .ring at hop
    obtain rfl : t = 0 := hinvL.leads b t (by rw [hop]; exact .inr (.inl rfl))
    have hall : S.arrived L 4 = L.grid := by
      cases hhealthy.phase .stage with
      | before _ hnone _ => exact absurd (.inr hop) (hnone b hm.block)
      | during _ _ hall _ _ _ => exact hall
      | after hall _ _ => exact hall
    refine hinvL.staged b' t' ?_
    rcases hinvL.barrier b' hb' 0 hthreads t' ht' 3 (.inl rfl)
      (lt_trans (by decide) (arrived_eq_iff.mp hall b' hb')) with h | h
    exacts [(hunskipped h).elim, h]
  · change (S.thread b t).pc = .advance at hop
    obtain rfl : t = 0 := hinvL.leads b t (by rw [hop]; exact .inr (.inr (.inr rfl)))
    have hall := hinvL.last b hm.block (.inr hop)
    rcases hinvL.beyond_of_all hall hb' ht' with h | h
    · exact (hunskipped h).elim
    · exact (hinvL.reduced b' t' h).resolve_left fun hne => hne hpoison
  · show (S.mem.exec L t (S.thread b t).seq (S.thread b t).pc).epoch = S.entry.epoch + 1
    rw [exec_epoch]
    by_cases hadv : (S.thread b t).pc = .advance
    · rw [if_pos hadv]
      exact hinvL.seq b t (by rw [hadv]; exact Pc.noConfusion)
    · rw [if_neg hadv]
      refine hhealthy.epoch ?_
      change 0 < executed S.begun .advance (S.exec cfg L b t ok).trace at hpos
      rwa [exec_trace, executed_cons, if_neg fun hop => hadv hop.2] at hpos

/-- **A step of a thread keeps the invariant.** -/
theorem exec (ok : Bool) : Inv cfg (S.exec cfg L b t ok) where
  fresh h := absurd (hL.symm.trans h) (Option.some_ne_none L)
  launch L' hL' := by
    obtain rfl := Option.some.inj (hL.symm.trans hL')
    exact (hinv.launch L hL).exec hm hinv.flag hinv.past ok
  flag := hinv.exec_flag_of_poison hL
  unclean := hinv.exec_unclean hL
  le e he := by
    rcases List.mem_cons.mp he with rfl | he
    exacts [Nat.le_refl _, hinv.le e he]
  past f hf htimed hlaunch := by
    rcases List.mem_cons.mp hf with rfl | hf
    exacts [absurd rfl hlaunch, hinv.past f hf htimed hlaunch]
  later := hinv.exec_later hL
  output := hinv.exec_output hL hm
  reported := hinv.exec_reported hL hm
  healthy hclean L' hL' := by
    obtain rfl := Option.some.inj (hL.symm.trans hL')
    exact hinv.exec_healthy hL hm hclean

end Step

/-! ## The next launch -/

/-- A time-out has reached the poison word when its launch has finished. -/
theorem poison_of_finished (hfin : S.Finished cfg) {f : Entry} (hf : f ∈ S.trace)
    (htimed : f.TimedOut) : S.mem.poison ≠ 0 := by
  cases hL : S.launch with
  | none =>
    rw [(hinv.fresh hL).2.2] at hf
    exact absurd hf List.not_mem_nil
  | some L =>
    have hinvL := hinv.launch L hL
    unfold State.Finished at hfin
    rw [hL] at hfin
    by_cases hlaunch : f.launch = S.begun
    · rcases hinvL.failed f hf htimed hlaunch with h | ⟨k, peer, flags, hrec⟩
      · exact h
      · obtain ⟨hb, ht⟩ := hinvL.owner f hf hlaunch
        have hleft := hfin f.block hb f.thread ht
        rw [hrec] at hleft
        exact hleft.elim Pc.noConfusion Pc.noConfusion
    · exact (hinvL.idle (hinv.past f hf htimed hlaunch)).1

/-- **The counters are multiples of 8 between launches.** -/
theorem counts_of_finished (hfin : S.Finished cfg) (hpoison : S.mem.poison = 0) :
    S.mem.stage.toNat % 8 = 0 ∧ S.mem.tail.toNat % 8 = 0 := by
  cases hL : S.launch with
  | none =>
    rw [(hinv.fresh hL).1]
    exact ⟨rfl, rfl⟩
  | some L =>
    have hinvL := hinv.launch L hL
    unfold State.Finished at hfin
    rw [hL] at hfin
    have hentry : S.entry.poison = 0 := by
      by_contra h
      exact (hinvL.idle h).1 hpoison
    have hexit (b : ℕ) (hb : b < L.grid) : (S.thread b 0).pc = .exit :=
      (hfin b hb 0 cfg.threads_pos).resolve_right fun h => hinvL.skipped b 0 h hpoison
    have hall {k : ℕ} (hk : k < 15) : S.arrived L k = L.grid := by
      refine arrived_eq_iff.mpr fun b hb => ?_
      rw [hexit b hb]
      exact hk
    obtain ⟨hstage, htail⟩ := hinvL.counts hentry
    rw [hall (by decide), arrivalStep_mul] at hstage htail
    exact ⟨hstage, htail⟩

/-- **The next launch begins** with the invariant. -/
theorem begin (hfin : S.Finished cfg) (L : Launch) (queue : List Launch) :
    Inv cfg (S.begin L queue) := by
  have hnew (e : Entry) (he : e ∈ S.trace) : e.launch ≠ S.begun + 1 := fun h =>
    absurd (h ▸ hinv.le e he) (Nat.not_succ_le_self _)
  have harrived (k : ℕ) : (S.begin L queue).arrived L k = 0 := by
    unfold State.arrived
    rw [Finset.card_eq_zero, Finset.filter_eq_empty_iff]
    exact fun b _ => Nat.not_lt_zero k
  have hlaunch : LaunchInv cfg (S.begin L queue) L :=
    { owner := fun e he h => absurd h (hnew e he)
      barrier := fun _ _ _ _ _ _ k _ h => absurd h (Nat.not_lt_zero k)
      leads := fun _ _ h => by
        rcases h with h | h | h | h <;> cases h
      staged := fun _ _ h => absurd h (Nat.not_lt_zero 2)
      reduced := fun _ _ h => absurd h (Nat.not_lt_zero 10)
      skipped := fun _ _ h => by cases h
      idle := fun h => ⟨h, fun _ _ => Nat.zero_le 1⟩
      seq := fun _ _ h => absurd rfl h
      counts := fun h => by
        rw [harrived, harrived, Nat.zero_mul]
        exact hinv.counts_of_finished hfin h
      last := fun _ _ h => by
        rcases h with h | h <;> cases h
      epoch := .inl rfl
      advance := fun _ _ h => by cases h
      record := fun _ _ _ _ _ h => by cases h
      failed := fun f hf _ h => absurd h (hnew f hf)
      stored := fun e he h => absurd h (hnew e he)
      data := fun _ _ _ _ h => by cases h }
  refine
    { fresh := fun h => absurd h (Option.some_ne_none L)
      launch := fun L' hL' => ?_
      flag := hinv.flag
      unclean := hinv.unclean
      le := fun e he => Nat.le_succ_of_le (hinv.le e he)
      past := fun f hf htimed _ => hinv.poison_of_finished hfin hf htimed
      later := hinv.later
      output := hinv.output
      reported := hinv.reported
      healthy := fun _ L' hL' => ?_ }
  · obtain rfl := Option.some.inj hL'
    exact hlaunch
  · obtain rfl := Option.some.inj hL'
    refine ⟨fun c => .before ?_ (fun b _ hpend => ?_) (executed_eq_zero hnew),
      .of_not_mem hnew, .of_not_mem hnew, fun hpos => ?_⟩
    · rw [harrived]
      exact grid_pos L
    · exact absurd hpend.lt_pos (Nat.not_lt_zero _)
    · exact absurd hpos (by
        rw [show executed (S.begin L queue).begun .advance (S.begin L queue).trace = 0 from
          executed_eq_zero hnew]
        exact Nat.lt_irrefl 0)

/-- What the host does beside a launch is not part of the invariant. -/
theorem host (queue : List Launch) (proxyFailed : Bool) :
    Inv cfg { S with queue := queue, proxyFailed := proxyFailed } :=
  { fresh := hinv.fresh
    launch := fun L hL =>
      { hinv.launch L hL with
        record := fun b t k peer flags h =>
          let hrec := (hinv.launch L hL).record b t k peer flags h
          ⟨hrec.le, hrec.wait, hrec.peer, hrec.error, hrec.flag⟩ }
    flag := hinv.flag
    unclean := hinv.unclean
    le := hinv.le
    past := hinv.past
    later := hinv.later
    output := hinv.output
    reported := hinv.reported
    healthy := fun hclean L hL =>
      let h := hinv.healthy hclean L hL
      ⟨fun c => by
        cases h.phase c with
        | before h₁ h₂ h₃ => exact .before h₁ h₂ h₃
        | during b h₁ h₂ h₃ h₄ h₅ => exact .during b h₁ h₂ h₃ h₄ h₅
        | after h₁ h₂ h₃ => exact .after h₁ h₂ h₃, h.rung, h.advanced, h.epoch⟩ }

end Inv

/-- The steps that a thread may take. -/
theorem moves_of_step {ok : Bool} (hL : S.launch = some L)
    (h : step cfg S (.thread b t ok) = some S') :
    Moves cfg S L b t ∧ S' = S.exec cfg L b t ok := by
  unfold step at h
  rw [hL] at h
  dsimp only at h
  split_ifs at h with hcan
  exact ⟨⟨hcan.1, hcan.2.1, hcan.2.2.1, hcan.2.2.2⟩, (Option.some.inj h).symm⟩

/-- What a step does: a thread moves, a launch begins, or only the queue or the health of the
proxy changes. -/
theorem step_cases {a : Action} (h : step cfg S a = some S') :
    (∃ L b t ok, S.launch = some L ∧ Moves cfg S L b t ∧ S' = S.exec cfg L b t ok) ∨
    (∃ L queue, S.Finished cfg ∧ S' = S.begin L queue) ∨
    ∃ queue proxyFailed, S' = { S with queue := queue, proxyFailed := proxyFailed } := by
  cases a with
  | collective L =>
    obtain rfl := Option.some.inj h
    refine .inr (.inr ?_)
    unfold State.collective
    cases S.checkHealth with
    | error _ => exact ⟨S.queue, S.proxyFailed, rfl⟩
    | ok _ => exact ⟨S.queue ++ [L], S.proxyFailed, rfl⟩
  | replay Ls =>
    obtain rfl := Option.some.inj h
    exact .inr (.inr ⟨S.queue ++ Ls, S.proxyFailed, rfl⟩)
  | proxyFail =>
    obtain rfl := Option.some.inj h
    exact .inr (.inr ⟨S.queue, true, rfl⟩)
  | begin =>
    unfold step at h
    cases hq : S.queue with
    | nil =>
      rw [hq] at h
      cases h
    | cons L queue =>
      rw [hq] at h
      dsimp only at h
      split_ifs at h with hfin
      exact .inr (.inl ⟨L, queue, hfin, (Option.some.inj h).symm⟩)
  | thread b t ok =>
    cases hL : S.launch with
    | none =>
      unfold step at h
      rw [hL] at h
      cases h
    | some L =>
      obtain ⟨hm, rfl⟩ := moves_of_step hL h
      exact .inl ⟨L, b, t, ok, rfl, hm, rfl⟩

/-- **Every step keeps the invariant.** -/
theorem Inv.step {a : Action} (hinv : Inv cfg S) (h : step cfg S a = some S') : Inv cfg S' := by
  obtain ⟨L, b, t, ok, hL, hm, rfl⟩ | ⟨L, queue, hfin, rfl⟩ | ⟨queue, proxyFailed, rfl⟩ :=
    step_cases h
  exacts [hinv.exec hL hm ok, hinv.begin hfin L queue, hinv.host queue proxyFailed]

theorem inv_of_reachable (h : Reachable cfg .start S) : Inv cfg S :=
  Transition.Reachable.invariant (Inv cfg) (Inv.start cfg) (fun _ _ _ hinv _ hstep => hinv.step hstep) h

/-! ## What a run guarantees -/

/-- A time-out is not forgotten, nor the flag cleared. -/
theorem step_unclean {a : Action} (h : step cfg S a = some S') :
    (¬S.Clean → ¬S'.Clean) ∧ (S.mem.flag ≠ 0 → S'.mem.flag ≠ 0) := by
  obtain ⟨L, b, t, ok, hL, hm, rfl⟩ | ⟨L, queue, hfin, rfl⟩ | ⟨queue, proxyFailed, rfl⟩ :=
    step_cases h
  exacts [⟨fun hunclean hclean => hunclean (Clean.of_exec hclean), exec_flag⟩, ⟨id, id⟩, ⟨id, id⟩]

theorem Inv.epoch_stays (hinv : Inv cfg S) (hunclean : ¬S.Clean) (h : Reachable cfg S S') :
    S'.mem.epoch = S.mem.epoch := by
  have hstays : Inv cfg S' ∧ ¬S'.Clean ∧ S'.mem.epoch = S.mem.epoch := by
    refine Transition.Reachable.invariant
      (fun S' => Inv cfg S' ∧ ¬S'.Clean ∧ S'.mem.epoch = S.mem.epoch) ⟨hinv, hunclean, rfl⟩ ?_ h
    rintro S₁ a S₂ ⟨hinv₁, hunclean₁, hepoch⟩ - hstep
    refine ⟨hinv₁.step hstep, (step_unclean hstep).1 hunclean₁, ?_⟩
    obtain ⟨L, b, t, ok, hL, hm, rfl⟩ | ⟨L, queue, hfin, rfl⟩ | ⟨queue, proxyFailed, rfl⟩ :=
      step_cases hstep
    exacts [(hinv₁.exec_epoch_eq hL hm hunclean₁).trans hepoch, hepoch, hepoch]
  exact hstays.2.2

theorem raises_of_flag (hflag : S.mem.flag ≠ 0) :
    S.Raises ∧ ∀ L, S.collective L = S := by
  have hraises : S.Raises := by
    unfold State.Raises State.checkHealth
    split_ifs
    exacts [⟨_, rfl⟩, ⟨_, rfl⟩]
  refine ⟨hraises, fun L => ?_⟩
  obtain ⟨e, he⟩ := hraises
  unfold State.collective
  rw [he]

/-- A phase that a finished launch is in. -/
theorem Inv.executed_of_finished (hinv : Inv cfg S) (hclean : S.Clean) (hL : S.launch = some L)
    (hfin : S.Finished cfg) (c : Counter) : executed S.begun c.publishes S.trace = 1 := by
  have hinvL := hinv.launch L hL
  unfold State.Finished at hfin
  rw [hL] at hfin
  have hexit (b : ℕ) (hb : b < L.grid) : (S.thread b 0).pc = .exit :=
    (hfin b hb 0 cfg.threads_pos).resolve_right fun h =>
      hinvL.skipped b 0 h (hinv.of_clean hclean).2
  cases (hinv.healthy hclean L hL).phase c with
  | before hfew _ _ =>
    refine absurd (arrived_eq_iff.mpr fun b hb => ?_) hfew.ne
    rw [hexit b hb]
    cases c <;> decide
  | during b hb _ hpend _ _ =>
    rw [hexit b hb] at hpend
    cases c <;> rcases hpend with h | h <;> cases h
  | after _ _ hone => exact hone

theorem Inv.executed_le (hinv : Inv cfg S) (hclean : S.Clean) (hL : S.launch = some L)
    (c : Counter) : executed S.begun c.publishes S.trace ≤ 1 := by
  cases (hinv.healthy hclean L hL).phase c with
  | before _ _ hzero => exact hzero.le.trans (Nat.zero_le 1)
  | during _ _ _ _ _ hzero => exact hzero.le.trans (Nat.zero_le 1)
  | after _ _ hone => exact hone.le

/-- **The launches of the ring transport are guarded**, in any interleaving of their threads, for
any mix of grids and of all-reduces and all-gathers. -/
theorem launches_guarded (h : Reachable cfg .start S) : Guarded cfg S := by
  have hinv := inv_of_reachable h
  refine
    { doorbell := fun hclean L hL => ⟨hinv.executed_le hclean hL .stage,
        fun hfin => hinv.executed_of_finished hclean hL hfin .stage, (hinv.healthy hclean L hL).rung⟩
      advance := fun hclean L hL => ⟨hinv.executed_le hclean hL .tail, fun hfin => ?_,
        (hinv.healthy hclean L hL).advanced⟩
      epoch := fun hunclean S' => hinv.epoch_stays hunclean
      later := hinv.later
      output := hinv.output
      recorded := fun hunclean hfin => ?_
      reported := hinv.reported
      health := fun hflag S' hS' => ?_ }
  · have hone := hinv.executed_of_finished hclean hL hfin .tail
    exact ⟨hone, (hinv.healthy hclean L hL).epoch (hone ▸ Nat.one_pos)⟩
  · simp only [State.Clean, not_forall, not_not] at hunclean
    obtain ⟨f, hf, htimed⟩ := hunclean
    exact hinv.flag (hinv.poison_of_finished hfin hf htimed)
  · exact raises_of_flag (Transition.Reachable.invariant (fun S' => S'.mem.flag ≠ 0) hflag
      (fun _ _ _ hset _ hstep => (step_unclean hstep).2 hset) hS')

/-! ## A run -/

/-- Two ranks, two threads a block. -/
def pairSetting : Setting := ⟨2, 0, 2, 2, Nat.two_pos⟩

/-- Thread `t` of block `b` takes `n` steps, and sees the flags it waits for. -/
def turns (b t n : ℕ) : List Action := List.replicate n (.thread b t true)

/-- The launch begins, and the threads of both blocks stage their shares. -/
def opening : List Action := .begin :: turns 0 0 3 ++ turns 0 1 3 ++ turns 1 0 3 ++ turns 1 1 3

/-- A captured all-reduce on two blocks runs; in its second replay block 0 does not see a flag;
the third finds the runtime poisoned. -/
def timeoutRun : List Action :=
  [.replay (List.replicate 3 (.allReduce 16 true))] ++
    opening ++ turns 0 0 3 ++ turns 0 1 5 ++ turns 1 1 5 ++ turns 1 0 5 ++
    turns 1 0 3 ++ turns 1 1 3 ++ turns 0 0 3 ++ turns 0 1 3 ++
    turns 1 0 2 ++ turns 0 0 4 ++ turns 0 1 2 ++ turns 1 1 2 ++
    opening ++ turns 1 0 3 ++ turns 1 1 5 ++ turns 1 0 3 ++ turns 0 0 5 ++
    turns 0 1 2 ++ [.thread 0 1 false] ++ turns 0 1 6 ++ turns 0 1 2 ++ turns 0 0 2 ++
    turns 1 1 3 ++ turns 1 0 2 ++ turns 1 1 1 ++ turns 0 0 3 ++ turns 0 1 2 ++
    [.begin] ++ turns 0 0 2 ++ turns 0 1 2 ++ turns 1 0 2 ++ turns 1 1 2

theorem launches_guarded_timeout : ∃ S, Transition.run (step pairSetting) .start timeoutRun = some S ∧
    S.begun = 3 ∧ S.mem.epoch = 1 ∧ S.mem.flag = 1 ∧ Guarded pairSetting S := by
  have h : (Transition.run (step pairSetting) .start timeoutRun).any fun S =>
      S.begun = 3 ∧ S.mem.epoch = 1 ∧ S.mem.flag = 1 := by decide +kernel
  obtain ⟨S, hrun, h⟩ := (Option.any_eq_true _ _).mp h
  obtain ⟨hbegun, hepoch, hflag⟩ := of_decide_eq_true h
  exact ⟨S, hrun, hbegun, hepoch, hflag, launches_guarded
    (.of_run hrun (Transition.allowedRun_of_forall (fun _ _ => trivial) _ _))⟩

end RingArrivals
