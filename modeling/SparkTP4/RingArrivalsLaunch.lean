import SparkTP4.RingArrivalsSteps

/-!
# One launch of the ring kernels

What holds at every step of a launch, whatever happens in it. The barriers keep the threads of a
block together; the counters hold, modulo 8, what the blocks that have arrived have added, so the
last block to arrive – and no other – sees a multiple of 8; and a time-out reaches the poison
word before its block leaves the wait. All of it is one invariant (`LaunchInv`), one lemma a
field.
-/

namespace RingArrivals

variable {cfg : Setting} {L : Launch} {S : State} {b t b' t' k n : ℕ} {ok : Bool} {pc' : Pc}
  {op : Pc} {e f : Entry} {trace : List Entry}

/-! ## The weights of the arrivals -/

theorem grid_cases (L : Launch) : L.grid = 2 ∨ L.grid = 4 ∨ L.grid = 8 := by
  cases L with
  | allReduce nbytes capturing =>
    show (if capturing = true then allreduceBlocks nbytes else 8) = 2 ∨
      (if capturing = true then allreduceBlocks nbytes else 8) = 4 ∨
      (if capturing = true then allreduceBlocks nbytes else 8) = 8
    unfold allreduceBlocks
    split_ifs <;> simp
  | allGather nbytes => exact .inr (.inr rfl)

theorem grid_pos (L : Launch) : 0 < L.grid := by
  rcases grid_cases L with h | h | h <;> rw [h] <;> decide

theorem modulus_eq (L : Launch) : L.modulus = 8 := by
  cases L <;> rfl

/-- The arrivals of all blocks add 8. -/
theorem arrivalStep_mul (L : Launch) : L.grid * L.arrivalStep.toNat = 8 := by
  cases L with
  | allReduce nbytes capturing =>
    have hstep : (Launch.allReduce nbytes capturing).arrivalStep =
        8 / UInt32.ofNat (Launch.allReduce nbytes capturing).grid := rfl
    rcases grid_cases (.allReduce nbytes capturing) with h | h | h <;> rw [hstep, h] <;> decide
  | allGather nbytes => rfl

theorem toNat_mod_eight (c : UInt32) : c % 8 = 0 ↔ c.toNat % 8 = 0 := by
  rw [← UInt32.toNat_inj, UInt32.toNat_mod]
  rfl

/-- **The last arrival** is the one that makes the counter a multiple of 8. -/
theorem last_iff {c : UInt32} (hc : c.toNat % 8 = n * L.arrivalStep.toNat % 8) (hn : n < L.grid) :
    (c + L.arrivalStep) % L.modulus = 0 ↔ n + 1 = L.grid := by
  have hmul := arrivalStep_mul L
  rw [modulus_eq, toNat_mod_eight, UInt32.toNat_add]
  generalize L.arrivalStep.toNat = w at hc hmul
  rcases grid_cases L with h | h | h <;> rw [h] at hmul hn ⊢
  · obtain rfl : w = 4 := by omega
    omega
  · obtain rfl : w = 2 := by omega
    omega
  · obtain rfl : w = 1 := by omega
    omega

/-- After another arrival the counter holds one more. -/
theorem count_succ {c : UInt32} (hc : c.toNat % 8 = n * L.arrivalStep.toNat % 8) :
    (c + L.arrivalStep).toNat % 8 = (n + 1) * L.arrivalStep.toNat % 8 := by
  rw [UInt32.toNat_add, Nat.succ_mul]
  omega

/-! ## The blocks that have arrived -/

/-- The number of blocks whose first thread is beyond position `k`. -/
def State.arrived (S : State) (L : Launch) (k : ℕ) : ℕ :=
  ((Finset.range L.grid).filter fun b => k < (S.thread b 0).pc.pos).card

theorem arrived_le : S.arrived L k ≤ L.grid :=
  (Finset.card_filter_le _ _).trans (Finset.card_range _).le

theorem arrived_eq_iff : S.arrived L k = L.grid ↔ ∀ b < L.grid, k < (S.thread b 0).pc.pos := by
  unfold State.arrived
  have h := Finset.card_filter_eq_iff (s := Finset.range L.grid)
    (p := fun b => k < (S.thread b 0).pc.pos)
  rw [Finset.card_range] at h
  rw [h]
  exact forall_congr' fun b => by rw [Finset.mem_range]

/-! ## What a step leaves -/

/-- A step of thread `t` of block `b`. -/
structure Moves (cfg : Setting) (S : State) (L : Launch) (b t : ℕ) : Prop where
  block : b < L.grid
  thread : t < cfg.threads
  inside : ¬(S.thread b t).pc.Left
  enabled : S.Enabled cfg b t

theorem exec_pc_self (cfg : Setting) (S : State) (L : Launch) (b t : ℕ) (ok : Bool) :
    ((S.exec cfg L b t ok).thread b t).pc = (S.thread b t).pc.next cfg L S.mem t ok := by
  show (Function.update S.thread b _ b t).pc = _
  rw [Function.update_self, Function.update_self]

theorem exec_seq_self (cfg : Setting) (S : State) (L : Launch) (b t : ℕ) (ok : Bool) :
    ((S.exec cfg L b t ok).thread b t).seq =
      if (S.thread b t).pc = .load then S.mem.epoch + 1 else (S.thread b t).seq := by
  show (Function.update S.thread b _ b t).seq = _
  rw [Function.update_self, Function.update_self]

theorem exec_thread_ne (S : State) (h : ¬(b' = b ∧ t' = t)) :
    (S.exec cfg L b t ok).thread b' t' = S.thread b' t' := by
  show Function.update S.thread b _ b' t' = _
  by_cases hb : b' = b
  · subst hb
    rw [Function.update_self, Function.update_of_ne fun ht => h ⟨rfl, ht⟩]
  · rw [Function.update_of_ne hb]

theorem Moves.goes (hm : Moves cfg S L b t) (ok : Bool) :
    Goes cfg L S.mem t ok (S.thread b t).pc ((S.exec cfg L b t ok).thread b t).pc := by
  rw [exec_pc_self]
  exact goes_next hm.inside

/-- A thread stays beyond a solid position. -/
theorem Moves.beyond (hm : Moves cfg S L b t) (hk : Solid k)
    (h : k < (S.thread b' t').pc.pos) : k < ((S.exec cfg L b t ok).thread b' t').pc.pos := by
  by_cases hbt : b' = b ∧ t' = t
  · obtain ⟨rfl, rfl⟩ := hbt
    exact ((hm.goes ok).lt_pos_iff hk).mpr h.le
  · rwa [exec_thread_ne S hbt]

/-- Where a thread is that is beyond a solid position after the step. -/
theorem Moves.beyond_back (hm : Moves cfg S L b t) (hk : Solid k)
    (h : k < ((S.exec cfg L b t ok).thread b' t').pc.pos) :
    k < (S.thread b' t').pc.pos ∨ (b' = b ∧ t' = t) ∧ (S.thread b t).pc.pos = k := by
  by_cases hbt : b' = b ∧ t' = t
  · obtain ⟨rfl, rfl⟩ := hbt
    rcases (((hm.goes ok).lt_pos_iff hk).mp h).lt_or_eq with hlt | heq
    exacts [.inl hlt, .inr ⟨⟨rfl, rfl⟩, heq.symm⟩]
  · rw [exec_thread_ne S hbt] at h
    exact .inl h

/-- **One block more has arrived** exactly when its first thread takes the arrival. -/
theorem Moves.arrived_succ (hm : Moves cfg S L b t) (hk : Solid k) (ht : t = 0)
    (hpos : (S.thread b t).pc.pos = k) : (S.exec cfg L b t ok).arrived L k = S.arrived L k + 1 := by
  subst ht
  have hnot : b ∉ (Finset.range L.grid).filter fun b => k < (S.thread b 0).pc.pos := by
    rw [Finset.mem_filter]
    exact fun h => absurd h.2 (hpos ▸ Nat.lt_irrefl _)
  unfold State.arrived
  rw [← Finset.card_insert_of_notMem hnot]
  refine congrArg Finset.card (Finset.ext fun b' => ?_)
  rw [Finset.mem_insert, Finset.mem_filter, Finset.mem_filter, Finset.mem_range]
  constructor
  · rintro ⟨hb', hlt⟩
    rcases hm.beyond_back hk hlt with h | ⟨⟨rfl, -⟩, -⟩
    exacts [.inr ⟨hb', h⟩, .inl rfl]
  · rintro (rfl | ⟨hb', hlt⟩)
    · exact ⟨hm.block, ((hm.goes ok).lt_pos_iff hk).mpr hpos.ge⟩
    · exact ⟨hb', hm.beyond hk hlt⟩

theorem Moves.arrived_eq (hm : Moves cfg S L b t) (hk : Solid k)
    (h : ¬(t = 0 ∧ (S.thread b t).pc.pos = k)) :
    (S.exec cfg L b t ok).arrived L k = S.arrived L k := by
  unfold State.arrived
  refine congrArg Finset.card (Finset.filter_congr fun b' _ => ⟨fun hlt => ?_, hm.beyond hk⟩)
  rcases hm.beyond_back hk hlt with hlt | ⟨⟨-, ht⟩, hpos⟩
  exacts [hlt, absurd ⟨ht.symm, hpos⟩ h]

theorem Moves.arrived_lt (hm : Moves cfg S L b t) (ht : t = 0) (hpos : (S.thread b t).pc.pos = k) :
    S.arrived L k < L.grid := by
  refine lt_of_le_of_ne arrived_le fun heq => ?_
  subst ht
  exact absurd (arrived_eq_iff.mp heq b hm.block) (hpos ▸ Nat.lt_irrefl _)

/-! ## The invariant of a launch -/

/-- The peer in the control record is one whose flag a wait did not see. -/
def State.PeerOk (S : State) : Prop := ∃ f ∈ S.trace, f.TimedOut ∧ ∃ peer path flags,
  f.op = .wait ((peer, path) :: flags) ∧ S.mem.peer = .ofNat peer

/-- Thread `t` of block `b`, which has taken `k` of the four stores of a time-out. -/
structure Recording (S : State) (b t k peer : ℕ) (flags : List (ℕ × ℕ)) : Prop where
  le : k ≤ 3
  wait : ∃ f ∈ S.trace, f.TimedOut ∧ f.launch = S.begun ∧ f.block = b ∧ f.thread = t ∧
    ∃ path, f.op = .wait ((peer, path) :: flags)
  peer : 0 < k → S.PeerOk
  error : 1 < k → S.mem.error = S.entry.epoch + 1
  flag : 2 < k → S.mem.flag ≠ 0

/-- **The invariant of the current launch.** -/
structure LaunchInv (cfg : Setting) (S : State) (L : Launch) : Prop where
  owner : ∀ e ∈ S.trace, e.launch = S.begun → e.block < L.grid ∧ e.thread < cfg.threads
  /-- at a barrier the threads of a block wait for each other -/
  barrier : ∀ b < L.grid, ∀ t < cfg.threads, ∀ u < cfg.threads, ∀ k, k = 3 ∨ k = 8 ∨ k = 11 →
    k < (S.thread b t).pc.pos → (S.thread b u).pc = .skipped ∨ k ≤ (S.thread b u).pc.pos
  leads : ∀ b t, (S.thread b t).pc.Leads → t = 0
  staged : ∀ b t, 2 < (S.thread b t).pc.pos → Logged S.trace S.begun b t .stage
  reduced : ∀ b t, 10 < (S.thread b t).pc.pos → S.mem.poison ≠ 0 ∨ Logged S.trace S.begun b t .data
  skipped : ∀ b t, (S.thread b t).pc = .skipped → S.mem.poison ≠ 0
  /-- a launch that finds the runtime poisoned does nothing -/
  idle : S.entry.poison ≠ 0 → S.mem.poison ≠ 0 ∧ ∀ b t, (S.thread b t).pc.pos ≤ 1
  seq : ∀ b t, (S.thread b t).pc ≠ .load → (S.thread b t).seq = S.entry.epoch + 1
  counts : S.entry.poison = 0 →
    S.mem.stage.toNat % 8 = S.arrived L 4 * L.arrivalStep.toNat % 8 ∧
    S.mem.tail.toNat % 8 = S.arrived L 12 * L.arrivalStep.toNat % 8
  /-- a thread looks at the flag when all blocks have arrived -/
  last : ∀ b < L.grid, (S.thread b 0).pc = .checkFlag ∨ (S.thread b 0).pc = .advance →
    ∀ b' < L.grid, 12 < (S.thread b' 0).pc.pos
  epoch : S.mem.epoch = S.entry.epoch ∨
    S.mem.epoch = S.entry.epoch + 1 ∧ ∀ b < L.grid, 12 < (S.thread b 0).pc.pos
  /-- and advances the epoch if no wait has timed out -/
  advance : ∀ b < L.grid, (S.thread b 0).pc = .advance → S.Clean
  record : ∀ b t k peer flags, (S.thread b t).pc = .record k peer flags →
    Recording S b t k peer flags
  /-- a time-out has reached the poison word, or its thread is at the stores -/
  failed : ∀ f ∈ S.trace, f.TimedOut → f.launch = S.begun → S.mem.poison ≠ 0 ∨
    ∃ k peer flags, (S.thread f.block f.thread).pc = .record k peer flags
  stored : ∀ e ∈ S.trace, e.launch = S.begun → e.op = .data →
    10 < (S.thread e.block e.thread).pc.pos
  /-- in a block that reduces no wait has timed out -/
  data : ∀ b < L.grid, ∀ t < cfg.threads, (S.thread b t).pc = .data →
    ∀ f ∈ S.trace, f.TimedOut → f.launch = S.begun → f.block ≠ b

/-! ## What a step keeps -/

theorem Logged.cons {op : Pc} (h : Logged trace n b t op) : Logged (e :: trace) n b t op := by
  obtain ⟨f, hf, hrest⟩ := h
  exact ⟨f, List.mem_cons_of_mem e hf, hrest⟩

theorem exec_trace (cfg : Setting) (S : State) (L : Launch) (b t : ℕ) (ok : Bool) :
    (S.exec cfg L b t ok).trace = ⟨S.begun, b, t, (S.thread b t).pc, ok⟩ :: S.trace := rfl

theorem logged_exec (cfg : Setting) (S : State) (L : Launch) (b t : ℕ) (ok : Bool) :
    Logged (S.exec cfg L b t ok).trace S.begun b t (S.thread b t).pc :=
  ⟨_, List.mem_cons_self, rfl, rfl, rfl, rfl⟩

namespace LaunchInv

variable (hinv : LaunchInv cfg S L) (hm : Moves cfg S L b t)
include hinv hm

theorem exec_owner : ∀ e ∈ (S.exec cfg L b t ok).trace, e.launch = S.begun →
    e.block < L.grid ∧ e.thread < cfg.threads := by
  intro e he hlaunch
  rcases List.mem_cons.mp he with rfl | he
  exacts [⟨hm.block, hm.thread⟩, hinv.owner e he hlaunch]

theorem exec_barrier : ∀ b' < L.grid, ∀ t' < cfg.threads, ∀ u < cfg.threads,
    ∀ k, k = 3 ∨ k = 8 ∨ k = 11 → k < ((S.exec cfg L b t ok).thread b' t').pc.pos →
    ((S.exec cfg L b t ok).thread b' u).pc = .skipped ∨
      k ≤ ((S.exec cfg L b t ok).thread b' u).pc.pos := by
  intro b' hb' t' ht' u hu k hk hlt
  have hsolid : Solid k := by
    unfold Solid
    omega
  -- thread `u` was at the barrier before the step
  have hold : (S.thread b' u).pc = .skipped ∨ k ≤ (S.thread b' u).pc.pos := by
    rcases hm.beyond_back hsolid hlt with h | ⟨⟨rfl, rfl⟩, hpos⟩
    · exact hinv.barrier b' hb' t' ht' u hu k hk h
    · have hsync := hm.enabled (pos_eq_iff.2.2.2 (by omega)) u hu
      rwa [hpos] at hsync
  by_cases hbu : b' = b ∧ u = t
  · obtain ⟨rfl, rfl⟩ := hbu
    rcases hold with hskip | hle
    · exact absurd (.inr hskip) hm.inside
    · exact (hm.goes ok).pos_le.imp_right hle.trans
  · rwa [exec_thread_ne S hbu]

theorem exec_leads : ∀ b' t', ((S.exec cfg L b t ok).thread b' t').pc.Leads → t' = 0 := by
  intro b' t' hlead
  by_cases hbt : b' = b ∧ t' = t
  · obtain ⟨rfl, rfl⟩ := hbt
    rcases (hm.goes ok).leads hlead with h | h
    exacts [hinv.leads b' t' h, h]
  · rw [exec_thread_ne S hbt] at hlead
    exact hinv.leads b' t' hlead

theorem exec_staged : ∀ b' t', 2 < ((S.exec cfg L b t ok).thread b' t').pc.pos →
    Logged (S.exec cfg L b t ok).trace S.begun b' t' .stage := by
  intro b' t' hlt
  rcases hm.beyond_back (.inl rfl) hlt with h | ⟨⟨rfl, rfl⟩, hpos⟩
  · exact (hinv.staged b' t' h).cons
  · rw [← pos_eq_iff.1.mp hpos]
    exact logged_exec cfg S L b' t' ok

theorem exec_reduced : ∀ b' t', 10 < ((S.exec cfg L b t ok).thread b' t').pc.pos →
    (S.exec cfg L b t ok).mem.poison ≠ 0 ∨
      Logged (S.exec cfg L b t ok).trace S.begun b' t' .data := by
  intro b' t' hlt
  have hold (h : 10 < (S.thread b' t').pc.pos) : (S.exec cfg L b t ok).mem.poison ≠ 0 ∨
      Logged (S.exec cfg L b t ok).trace S.begun b' t' .data :=
    (hinv.reduced b' t' h).imp exec_poison Logged.cons
  by_cases hbt : b' = b ∧ t' = t
  · obtain ⟨rfl, rfl⟩ := hbt
    rcases (hm.goes ok).reduced hlt with hdata | hpoison | h
    · right
      rw [← hdata]
      exact logged_exec cfg S L b' t' ok
    · exact .inl (exec_poison hpoison)
    · exact hold h
  · rw [exec_thread_ne S hbt] at hlt
    exact hold hlt

theorem exec_skipped : ∀ b' t', ((S.exec cfg L b t ok).thread b' t').pc = .skipped →
    (S.exec cfg L b t ok).mem.poison ≠ 0 := by
  intro b' t' hskip
  by_cases hbt : b' = b ∧ t' = t
  · obtain ⟨rfl, rfl⟩ := hbt
    have hgoes := hm.goes ok
    rw [hskip] at hgoes
    exact exec_poison hgoes.skipped.2
  · rw [exec_thread_ne S hbt] at hskip
    exact exec_poison (hinv.skipped b' t' hskip)

theorem exec_idle : S.entry.poison ≠ 0 → (S.exec cfg L b t ok).mem.poison ≠ 0 ∧
    ∀ b' t', ((S.exec cfg L b t ok).thread b' t').pc.pos ≤ 1 := by
  intro hentry
  obtain ⟨hpoison, hpos⟩ := hinv.idle hentry
  refine ⟨exec_poison hpoison, fun b' t' => ?_⟩
  by_cases hbt : b' = b ∧ t' = t
  · obtain ⟨rfl, rfl⟩ := hbt
    exact ((hm.goes ok).entered (hpos b' t')).resolve_right hpoison
  · rw [exec_thread_ne S hbt]
    exact hpos b' t'

omit hm in
/-- A launch in which a thread is in the body has found the runtime healthy. -/
theorem healthy_of_pos (hpos : 1 < (S.thread b t).pc.pos) : S.entry.poison = 0 := by
  by_contra hentry
  exact absurd ((hinv.idle hentry).2 b t) (Nat.not_le_of_lt hpos)

/-- The epoch has not advanced while a thread has still to pass the last barrier. -/
theorem epoch_eq (hpos : (S.thread b t).pc.pos < 11) : S.mem.epoch = S.entry.epoch := by
  rcases hinv.epoch with h | ⟨-, hall⟩
  · exact h
  · have hlt : 11 < (S.thread b 0).pc.pos := lt_trans (by decide) (hall b hm.block)
    have hthreads : 0 < cfg.threads := Nat.zero_lt_of_lt hm.thread
    rcases hinv.barrier b hm.block 0 hthreads t hm.thread 11 (.inr (.inr rfl)) hlt with h | h
    exacts [absurd (.inr h) hm.inside, absurd h (Nat.not_le_of_lt hpos)]

theorem exec_seq : ∀ b' t', ((S.exec cfg L b t ok).thread b' t').pc ≠ .load →
    ((S.exec cfg L b t ok).thread b' t').seq = S.entry.epoch + 1 := by
  intro b' t' hne
  by_cases hbt : b' = b ∧ t' = t
  · obtain ⟨rfl, rfl⟩ := hbt
    rw [exec_seq_self]
    by_cases hload : (S.thread b' t').pc = .load
    · rw [if_pos hload, hinv.epoch_eq hm (by rw [hload]; decide)]
    · rw [if_neg hload]
      exact hinv.seq b' t' hload
  · rw [exec_thread_ne S hbt] at hne ⊢
    exact hinv.seq b' t' hne

theorem exec_counts : S.entry.poison = 0 →
    (S.exec cfg L b t ok).mem.stage.toNat % 8 =
      (S.exec cfg L b t ok).arrived L 4 * L.arrivalStep.toNat % 8 ∧
    (S.exec cfg L b t ok).mem.tail.toNat % 8 =
      (S.exec cfg L b t ok).arrived L 12 * L.arrivalStep.toNat % 8 := by
  intro hentry
  obtain ⟨hstage, htail⟩ := hinv.counts hentry
  have h4 : Solid 4 := .inr (.inr (.inl rfl))
  have h12 : Solid 12 := .inr (.inr (.inr (.inr (.inr rfl))))
  constructor
  · show ((S.mem.exec L t (S.thread b t).seq (S.thread b t).pc).stage).toNat % 8 = _
    rw [exec_stage]
    by_cases h : t = 0 ∧ (S.thread b t).pc = .arriveStage
    · rw [if_pos h, hm.arrived_succ h4 h.1 (pos_eq_iff.2.1.mpr h.2)]
      exact count_succ hstage
    · rw [if_neg h, hm.arrived_eq h4 fun hpos => h ⟨hpos.1, pos_eq_iff.2.1.mp hpos.2⟩]
      exact hstage
  · show ((S.mem.exec L t (S.thread b t).seq (S.thread b t).pc).tail).toNat % 8 = _
    rw [exec_tail]
    by_cases h : t = 0 ∧ (S.thread b t).pc = .arriveTail
    · rw [if_pos h, hm.arrived_succ h12 h.1 (pos_eq_iff.2.2.1.mpr h.2)]
      exact count_succ htail
    · rw [if_neg h, hm.arrived_eq h12 fun hpos => h ⟨hpos.1, pos_eq_iff.2.2.1.mp hpos.2⟩]
      exact htail

/-- **The thread that takes the last arrival at the tail** finds all blocks there. -/
theorem exec_last : ∀ b' < L.grid, ((S.exec cfg L b t ok).thread b' 0).pc = .checkFlag ∨
      ((S.exec cfg L b t ok).thread b' 0).pc = .advance →
    ∀ c < L.grid, 12 < ((S.exec cfg L b t ok).thread c 0).pc.pos := by
  have h12 : Solid 12 := .inr (.inr (.inr (.inr (.inr rfl))))
  intro b' hb' hpc
  have hold (h : (S.thread b' 0).pc = .checkFlag ∨ (S.thread b' 0).pc = .advance) :
      ∀ c < L.grid, 12 < ((S.exec cfg L b t ok).thread c 0).pc.pos :=
    fun c hc => hm.beyond h12 (hinv.last b' hb' h c hc)
  by_cases hbt : b' = b ∧ 0 = t
  · obtain ⟨rfl, rfl⟩ := hbt
    have hgoes := hm.goes ok
    rcases hpc with hpc | hpc <;> rw [hpc] at hgoes <;> generalize hfrom : (S.thread b' 0).pc = pc
      at hgoes
    · cases hgoes with
      | lastTail _ hlast =>
        have hpos : (S.thread b' 0).pc.pos = 12 := pos_eq_iff.2.2.1.mpr hfrom
        have hcount := (hinv.counts (hinv.healthy_of_pos (by rw [hpos]; decide))).2
        refine arrived_eq_iff.mp ?_
        rw [hm.arrived_succ h12 rfl hpos]
        exact (last_iff hcount (hm.arrived_lt rfl hpos)).mp hlast
    · cases hgoes with
      | unflagged _ => exact hold (.inl hfrom)
  · rw [exec_thread_ne S hbt] at hpc
    exact hold hpc

theorem exec_epoch : (S.exec cfg L b t ok).mem.epoch = S.entry.epoch ∨
    (S.exec cfg L b t ok).mem.epoch = S.entry.epoch + 1 ∧
      ∀ c < L.grid, 12 < ((S.exec cfg L b t ok).thread c 0).pc.pos := by
  have h12 : Solid 12 := .inr (.inr (.inr (.inr (.inr rfl))))
  have hepoch : (S.exec cfg L b t ok).mem.epoch =
      if (S.thread b t).pc = .advance then (S.thread b t).seq else S.mem.epoch := RingArrivals.exec_epoch
  rw [hepoch]
  by_cases hadv : (S.thread b t).pc = .advance
  · obtain rfl : t = 0 := hinv.leads b t (by rw [hadv]; exact .inr (.inr (.inr rfl)))
    rw [if_pos hadv]
    exact .inr ⟨hinv.seq b 0 (by rw [hadv]; exact Pc.noConfusion),
      fun c hc => hm.beyond h12 (hinv.last b hm.block (.inr hadv) c hc)⟩
  · rw [if_neg hadv]
    exact hinv.epoch.imp_right fun h => ⟨h.1, fun c hc => hm.beyond h12 (h.2 c hc)⟩

omit hm in
/-- When all blocks have arrived at the tail, no thread is before its last barrier. -/
theorem beyond_of_all (hall : ∀ c < L.grid, 12 < (S.thread c 0).pc.pos) (hb' : b' < L.grid)
    (ht' : t' < cfg.threads) : (S.thread b' t').pc = .skipped ∨ 11 ≤ (S.thread b' t').pc.pos :=
  hinv.barrier b' hb' 0 (Nat.zero_lt_of_lt ht') t' ht' 11 (.inr (.inr rfl))
    (lt_trans (by decide) (hall b' hb'))

omit hinv hm in
/-- The step of a thread whose wait times out. -/
theorem pos_of_timedOut (h : Entry.TimedOut ⟨S.begun, b, t, (S.thread b t).pc, ok⟩) :
    ∃ f flags, (S.thread b t).pc = .wait (f :: flags) ∧ ok = false := by
  obtain ⟨hok, hwaits⟩ := h
  change (S.thread b t).pc.Waits at hwaits
  unfold Pc.Waits at hwaits
  split at hwaits
  · next f flags heq => exact ⟨f, flags, heq, hok⟩
  · exact absurd hwaits id

/-- **The epoch advances only if no wait has timed out**: the thread that found the flag clear has
seen what all blocks stored before they arrived. -/
theorem exec_advance (hflag : S.mem.poison ≠ 0 → S.mem.flag ≠ 0)
    (hpast : ∀ f ∈ S.trace, f.TimedOut → f.launch ≠ S.begun → S.entry.poison ≠ 0) :
    ∀ b' < L.grid, ((S.exec cfg L b t ok).thread b' 0).pc = .advance →
      (S.exec cfg L b t ok).Clean := by
  intro b' hb' hpc
  by_cases hbt : b' = b ∧ 0 = t
  · obtain ⟨rfl, rfl⟩ := hbt
    have hgoes := hm.goes ok
    rw [hpc] at hgoes
    generalize hfrom : (S.thread b' 0).pc = pc at hgoes
    cases hgoes with
    | unflagged hclear =>
      intro f hf htimed
      rcases List.mem_cons.mp hf with rfl | hf
      · obtain ⟨g, flags, hwait, -⟩ := pos_of_timedOut htimed
        cases hfrom.symm.trans hwait
      · by_cases hlaunch : f.launch = S.begun
        · rcases hinv.failed f hf htimed hlaunch with hpoison | ⟨k, peer, flags, hrec⟩
          · exact hflag hpoison hclear
          · obtain ⟨hb, ht⟩ := hinv.owner f hf hlaunch
            have hbeyond := hinv.beyond_of_all (hinv.last b' hb' (.inl hfrom)) hb ht
            rw [hrec] at hbeyond
            rcases hbeyond with h | h
            · cases h
            · exact absurd h (by simp [Pc.pos])
        · refine hpast f hf htimed hlaunch (hinv.healthy_of_pos (b := b') (t := 0) ?_)
          rw [hfrom]
          decide
  · rw [exec_thread_ne S hbt] at hpc
    intro f hf htimed
    rcases List.mem_cons.mp hf with rfl | hf
    · obtain ⟨g, flags, hwait, -⟩ := pos_of_timedOut htimed
      have hbeyond := hinv.beyond_of_all (hinv.last b' hb' (.inr hpc)) hm.block hm.thread
      rw [hwait] at hbeyond
      rcases hbeyond with h | h
      · cases h
      · exact absurd h (by simp [Pc.pos])
    · exact hinv.advance b' hb' hpc f hf htimed

omit hm in
/-- The peer in the control record stays one whose flag a wait did not see. -/
theorem exec_peerOk (hpeer : S.PeerOk ∨ ∃ peer flags, (S.thread b t).pc = .record 0 peer flags) :
    (S.exec cfg L b t ok).PeerOk := by
  obtain ⟨hne, hkept, -⟩ | ⟨k, peer, flags, hpc, hkept, -⟩ :=
    exec_failure L S.mem t (S.thread b t).seq (S.thread b t).pc
  · rcases hpeer with ⟨f, hf, htimed, peer, path, flags, hop, hpeer⟩ | ⟨peer, flags, h⟩
    · exact ⟨f, List.mem_cons_of_mem _ hf, htimed, peer, path, flags, hop, hkept.trans hpeer⟩
    · exact absurd h (hne 0 peer flags)
  · by_cases hk : k = 0
    · subst hk
      obtain ⟨f, hf, htimed, -, -, -, path, hop⟩ := (hinv.record b t 0 peer flags hpc).wait
      exact ⟨f, List.mem_cons_of_mem _ hf, htimed, peer, path, flags, hop, hkept⟩
    · rw [if_neg hk] at hkept
      rcases hpeer with ⟨f, hf, htimed, peer, path, flags, hop, hpeer⟩ | ⟨peer', flags', h⟩
      · exact ⟨f, List.mem_cons_of_mem _ hf, htimed, peer, path, flags, hop, hkept.trans hpeer⟩
      · exact absurd (Pc.record.inj (hpc.symm.trans h)).1 hk

omit hm in
/-- The sequence number in the control record is that of the launch. -/
theorem exec_error (herror : S.mem.error = S.entry.epoch + 1 ∨
      ∃ peer flags, (S.thread b t).pc = .record 1 peer flags) :
    (S.exec cfg L b t ok).mem.error = S.entry.epoch + 1 := by
  obtain ⟨hne, -, hkept, -⟩ | ⟨k, peer, flags, hpc, -, hkept, -⟩ :=
    exec_failure L S.mem t (S.thread b t).seq (S.thread b t).pc
  · rcases herror with h | ⟨peer, flags, h⟩
    exacts [hkept.trans h, absurd h (hne 1 peer flags)]
  · have hseq := hinv.seq b t (by rw [hpc]; exact Pc.noConfusion)
    by_cases hk : k = 1
    · rw [if_pos hk] at hkept
      exact hkept.trans hseq
    · rw [if_neg hk] at hkept
      rcases herror with h | ⟨peer', flags', h⟩
      exacts [hkept.trans h, absurd (Pc.record.inj (hpc.symm.trans h)).1 hk]

theorem exec_record : ∀ b' t' k peer flags,
    ((S.exec cfg L b t ok).thread b' t').pc = .record k peer flags →
      Recording (S.exec cfg L b t ok) b' t' k peer flags := by
  intro b' t' k peer flags hpc
  by_cases hbt : b' = b ∧ t' = t
  · obtain ⟨rfl, rfl⟩ := hbt
    have hgoes := hm.goes ok
    rw [hpc] at hgoes
    rcases hgoes.to_record with ⟨rfl, hok, path, hfrom⟩ | ⟨j, rfl, hj, hfrom⟩
    · exact
        { le := Nat.zero_le 3
          wait := ⟨_, List.mem_cons_self, ⟨hok, by rw [hfrom]; trivial⟩, rfl, rfl, rfl, path, hfrom⟩
          peer := fun h => absurd h (Nat.lt_irrefl 0)
          error := fun h => absurd h (by decide)
          flag := fun h => absurd h (by decide) }
    · have hrec := hinv.record b' t' j peer flags hfrom
      obtain ⟨f, hf, hrest⟩ := hrec.wait
      refine
        { le := hj
          wait := ⟨f, List.mem_cons_of_mem _ hf, hrest⟩
          peer := fun _ => hinv.exec_peerOk ?_
          error := fun _ => hinv.exec_error ?_
          flag := fun h => ?_ }
      · rcases Nat.eq_zero_or_pos j with rfl | hpos
        exacts [.inr ⟨peer, flags, hfrom⟩, .inl (hrec.peer hpos)]
      · by_cases hone : j = 1
        · subst hone
          exact .inr ⟨peer, flags, hfrom⟩
        · exact .inl (hrec.error (by omega))
      · obtain ⟨hne, -⟩ | ⟨k, peer', flags', hpc', -, -, hset, -⟩ :=
          exec_failure L S.mem t' (S.thread b' t').seq (S.thread b' t').pc
        · exact absurd hfrom (hne j peer flags)
        · obtain rfl := (Pc.record.inj (hpc'.symm.trans hfrom)).1
          rw [if_pos (by omega)] at hset
          exact fun hzero => absurd (hset.symm.trans hzero) (by decide)
  · rw [exec_thread_ne S hbt] at hpc
    have hrec := hinv.record b' t' k peer flags hpc
    obtain ⟨f, hf, hrest⟩ := hrec.wait
    exact
      { le := hrec.le
        wait := ⟨f, List.mem_cons_of_mem _ hf, hrest⟩
        peer := fun h => hinv.exec_peerOk (.inl (hrec.peer h))
        error := fun h => hinv.exec_error (.inl (hrec.error h))
        flag := fun h => exec_flag (hrec.flag h) }

theorem exec_failed : ∀ f ∈ (S.exec cfg L b t ok).trace, f.TimedOut → f.launch = S.begun →
    (S.exec cfg L b t ok).mem.poison ≠ 0 ∨
      ∃ k peer flags, ((S.exec cfg L b t ok).thread f.block f.thread).pc = .record k peer flags := by
  intro f hf htimed hlaunch
  rcases List.mem_cons.mp hf with rfl | hf
  · obtain ⟨g, flags, hwait, rfl⟩ := pos_of_timedOut htimed
    have hgoes := hm.goes false
    rw [hwait] at hgoes
    exact .inr ⟨0, g.1, flags, hgoes.of_wait⟩
  · rcases hinv.failed f hf htimed hlaunch with hpoison | ⟨k, peer, flags, hrec⟩
    · exact .inl (exec_poison hpoison)
    · by_cases hbt : f.block = b ∧ f.thread = t
      · obtain ⟨rfl, rfl⟩ := hbt
        have hgoes := hm.goes ok
        rw [hrec] at hgoes
        generalize hto : ((S.exec cfg L f.block f.thread ok).thread f.block f.thread).pc = pc'
          at hgoes
        cases hgoes with
        | record _ _ _ _ => exact .inr ⟨k + 1, peer, flags, rfl⟩
        | recorded _ _ _ hk =>
          left
          obtain ⟨hne, -⟩ | ⟨k', peer', flags', hpc, -, -, -, hset⟩ :=
            exec_failure L S.mem f.thread (S.thread f.block f.thread).seq
              (S.thread f.block f.thread).pc
          · exact absurd hrec (hne k peer flags)
          · obtain rfl := (Pc.record.inj (hpc.symm.trans hrec)).1
            rw [if_neg hk] at hset
            exact fun hzero => absurd (hset.symm.trans hzero) (by decide)
      · rw [exec_thread_ne S hbt]
        exact .inr ⟨k, peer, flags, hrec⟩

theorem exec_stored : ∀ e ∈ (S.exec cfg L b t ok).trace, e.launch = S.begun → e.op = .data →
    10 < ((S.exec cfg L b t ok).thread e.block e.thread).pc.pos := by
  intro e he hlaunch hop
  rcases List.mem_cons.mp he with rfl | he
  · change (S.thread b t).pc = .data at hop
    show 10 < ((S.exec cfg L b t ok).thread b t).pc.pos
    rw [exec_pc_self, hop]
    show 10 < Pc.dataSync.pos
    decide
  · have hlt := hinv.stored e he hlaunch hop
    by_cases hbt : e.block = b ∧ e.thread = t
    · obtain ⟨rfl, rfl⟩ := hbt
      have hgoes := hm.goes ok
      rcases hgoes.pos_le with hskip | hle
      · rw [hskip] at hgoes
        exact absurd hlt (Nat.not_lt_of_le (hgoes.skipped.1.trans (by decide)))
      · exact hlt.trans_le hle
    · rwa [exec_thread_ne S hbt]

/-- **What a block reduces was received**: a thread that has found the runtime healthy after the
barrier knows that no wait of its block has timed out, or will. -/
theorem exec_data : ∀ b' < L.grid, ∀ t' < cfg.threads,
    ((S.exec cfg L b t ok).thread b' t').pc = .data →
    ∀ f ∈ (S.exec cfg L b t ok).trace, f.TimedOut → f.launch = S.begun → f.block ≠ b' := by
  intro b' hb' t' ht' hpc f hf htimed hlaunch hblock
  -- the threads of the block are beyond the wait
  have hbeyond (h : 8 < (S.thread b' t').pc.pos) (u : ℕ) (hu : u < cfg.threads) :
      (S.thread b' u).pc = .skipped ∨ 8 ≤ (S.thread b' u).pc.pos :=
    hinv.barrier b' hb' t' ht' u hu 8 (.inr (.inl rfl)) h
  have hpos : 8 < (S.thread b' t').pc.pos ∧ (S.mem.poison = 0 ∨ (S.thread b' t').pc = .data) := by
    by_cases hbt : b' = b ∧ t' = t
    · obtain ⟨rfl, rfl⟩ := hbt
      have hgoes := hm.goes ok
      rw [hpc] at hgoes
      generalize (S.thread b' t').pc = pc at hgoes
      cases hgoes with
      | healthy h => exact ⟨by decide, .inl h⟩
    · rw [exec_thread_ne S hbt] at hpc
      exact ⟨by rw [hpc]; decide, .inr hpc⟩
  rcases List.mem_cons.mp hf with rfl | hf
  · obtain ⟨g, flags, hwait, -⟩ := pos_of_timedOut htimed
    change b = b' at hblock
    subst hblock
    rcases hbeyond hpos.1 t hm.thread with h | h
    · exact hm.inside (.inr h)
    · rw [hwait] at h
      exact absurd h (by simp [Pc.pos])
  · rcases hpos.2 with hhealthy | hdata
    · rcases hinv.failed f hf htimed hlaunch with hpoison | ⟨k, peer, flags, hrec⟩
      · exact hpoison hhealthy
      · have hthread := (hinv.owner f hf hlaunch).2
        rw [hblock] at hrec
        rcases hbeyond hpos.1 f.thread hthread with h | h
        · rw [hrec] at h
          cases h
        · rw [hrec] at h
          exact absurd h (by simp [Pc.pos])
    · exact hinv.data b' hb' t' ht' hdata f hf htimed hlaunch hblock

/-- **A step keeps the invariant of the launch.** -/
theorem exec (hflag : S.mem.poison ≠ 0 → S.mem.flag ≠ 0)
    (hpast : ∀ f ∈ S.trace, f.TimedOut → f.launch ≠ S.begun → S.entry.poison ≠ 0) (ok : Bool) :
    LaunchInv cfg (S.exec cfg L b t ok) L where
  owner := hinv.exec_owner hm
  barrier := hinv.exec_barrier hm
  leads := hinv.exec_leads hm
  staged := hinv.exec_staged hm
  reduced := hinv.exec_reduced hm
  skipped := hinv.exec_skipped hm
  idle := hinv.exec_idle hm
  seq := hinv.exec_seq hm
  counts := hinv.exec_counts hm
  last := hinv.exec_last hm
  epoch := hinv.exec_epoch hm
  advance := hinv.exec_advance hm hflag hpast
  record := hinv.exec_record hm
  failed := hinv.exec_failed hm
  stored := hinv.exec_stored hm
  data := hinv.exec_data hm

end LaunchInv

end RingArrivals
