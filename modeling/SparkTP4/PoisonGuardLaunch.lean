import SparkTP4.PoisonGuardThread
import Mathlib.Data.List.Nodup
import Mathlib.Data.List.Range
import Mathlib.Data.List.Perm.Subperm

/-!
# The blocks of a launch

What holds between the threads of a launch: the barriers of a block
(`LaunchInv.barrier`), the arrival counters, whose value is the number of
arrivals of the launch up to a multiple of the grid, and the tail (`Tail`),
which one block at a time can be in as the last to arrive. The counters and the
tail are only described while the error word is zero; from then on nothing
depends on them.
-/

namespace PoisonGuard

/-! ## Where the counters stand in a program -/

/-- The counter an instruction adds to. -/
def Instr.counter? : Instr → Option Counter
  | arrive ctr => some ctr
  | _ => none

/-- Each occurrence of `y` has a barrier before it, and `x` before that. -/
def Before (x y : Instr) (l : List Instr) : Prop :=
  ∀ k, l[k]? = some y → ∃ j, k = j + 2 ∧ l[j]? = some x ∧ l[j + 1]? = some .sync

namespace Before

variable {x y : Instr} {l l' : List Instr}

theorem of_not_mem (h : y ∉ l) : Before x y l :=
  fun _ hk => absurd (List.mem_of_getElem? hk) h

theorem append (h : Before x y l) (h' : Before x y l') : Before x y (l ++ l') := by
  intro k hk
  rcases Nat.lt_or_ge k l.length with hlt | hge
  · rw [List.getElem?_append_left hlt] at hk
    obtain ⟨j, rfl, hx, hsync⟩ := h k hk
    refine ⟨j, rfl, ?_, ?_⟩
    · rw [List.getElem?_append_left (by omega), hx]
    · rw [List.getElem?_append_left (by omega), hsync]
  · rw [List.getElem?_append_right hge] at hk
    obtain ⟨j, hj, hx, hsync⟩ := h' _ hk
    refine ⟨l.length + j, by omega, ?_, ?_⟩
    · rw [List.getElem?_append_right (by omega), Nat.add_sub_cancel_left, hx]
    · rw [List.getElem?_append_right (by omega), Nat.add_assoc, Nat.add_sub_cancel_left, hsync]

theorem flatMap {f : ℕ → List Instr} {cs : List ℕ} (h : ∀ c ∈ cs, Before x y (f c)) :
    Before x y (cs.flatMap f) := by
  induction cs with
  | nil => exact of_not_mem List.not_mem_nil
  | cons c cs ih =>
    exact (h c List.mem_cons_self).append (ih fun c' hc' => h c' (List.mem_cons_of_mem _ hc'))

end Before

theorem before_stageChunk (c c' : ℕ) :
    Before (.stage c) (.arrive (.pipeStage c)) (stageChunk c') := by
  intro k hk
  match k, hk with
  | 2, hk =>
    obtain rfl := Counter.pipeStage.inj (Instr.arrive.inj (Option.some.inj hk))
    exact ⟨0, rfl, rfl, rfl⟩

theorem before_reduceChunk (c c' : ℕ) :
    Before (.data (.rs c)) (.arrive (.pipeReduce c)) (reduceChunk c') := by
  intro k hk
  match k, hk with
  | 4, hk =>
    obtain rfl := Counter.pipeReduce.inj (Instr.arrive.inj (Option.some.inj hk))
    exact ⟨2, rfl, rfl, rfl⟩

namespace Launch

variable {cfg : Setting} {L : Launch}

/-- The instruction `y` of a chunk comes after the `x` of the chunk. -/
theorem before_program {x y : Instr} (hslot : ∀ k, y ∉ slotBody k)
    (hother : y ∉ entryCode ∧ y ≠ .record ∧ y ≠ .sync ∧ y ≠ .arrive L.tail)
    (hstage : ∀ c, Before x y (stageChunk c)) (hreduce : ∀ c, Before x y (reduceChunk c))
    (hgather : ∀ c, Before x y (gatherChunk c)) : Before x y L.program := by
  have hbody : Before x y L.body := by
    cases L with
    | oneshot k | allGather k | allGatherColumns k => exact .of_not_mem (hslot k)
    | twoshot chunks =>
      refine Before.append (.append (.append (l := [.record]) (.of_not_mem ?_) (.flatMap ?_))
        (.flatMap ?_)) (.flatMap ?_)
      · exact fun h => hother.2.1 (List.mem_singleton.mp h)
      · exact fun c _ => hstage c
      · exact fun c _ => hreduce c
      · exact fun c _ => hgather c
  refine (Before.append (.of_not_mem hother.1) hbody).append (.of_not_mem fun h => ?_)
  obtain h | h := List.mem_cons.mp h
  · exact hother.2.2.1 h
  · exact hother.2.2.2 (List.mem_singleton.mp h)

theorem before_stage (L : Launch) (c : ℕ) :
    Before (.stage c) (.arrive (.pipeStage c)) L.program := by
  refine before_program (fun k => by simp [slotBody]) ⟨by simp [entryCode], by simp, by simp, ?_⟩
    (before_stageChunk c) (fun c' => .of_not_mem (by simp [reduceChunk]))
    fun c' => .of_not_mem (by simp [gatherChunk])
  cases L <;> simp [tail]

theorem before_reduce (L : Launch) (c : ℕ) :
    Before (.data (.rs c)) (.arrive (.pipeReduce c)) L.program := by
  refine before_program (fun k => by simp [slotBody]) ⟨by simp [entryCode], by simp, by simp, ?_⟩
    (fun c' => .of_not_mem (by simp [stageChunk])) (before_reduceChunk c)
    fun c' => .of_not_mem (by simp [gatherChunk])
  cases L <;> simp [tail]

/-- No counter occurs twice. -/
theorem counters_nodup (L : Launch) : (L.program.filterMap Instr.counter?).Nodup := by
  have stage : ∀ cs : List ℕ, (cs.flatMap stageChunk).filterMap Instr.counter? =
      cs.map Counter.pipeStage := by
    intro cs
    rw [List.filterMap_flatMap]
    exact List.map_eq_flatMap.symm
  have reduce : ∀ cs : List ℕ, (cs.flatMap reduceChunk).filterMap Instr.counter? =
      cs.map Counter.pipeReduce := by
    intro cs
    rw [List.filterMap_flatMap]
    exact List.map_eq_flatMap.symm
  have gather : ∀ cs : List ℕ, (cs.flatMap gatherChunk).filterMap Instr.counter? = [] := by
    intro cs
    rw [List.filterMap_flatMap]
    exact List.flatMap_eq_nil_iff.mpr fun _ _ => rfl
  have slot : ∀ k, ([Counter.stage k] ++ [Counter.tail k]).Nodup := by simp
  unfold program
  rw [List.filterMap_append, List.filterMap_append]
  cases L with
  | oneshot k | allGather k | allGatherColumns k => exact slot k
  | twoshot chunks =>
    show ([] ++ (twoshotBody chunks).filterMap Instr.counter? ++ [Counter.pipeTail]).Nodup
    unfold twoshotBody
    rw [List.filterMap_append, List.cons_append, List.filterMap_cons_none rfl,
      List.filterMap_append, stage, reduce, gather, List.append_nil, List.nil_append]
    have hmap : ∀ f : ℕ → Counter, Function.Injective f → ((List.range chunks).map f).Nodup :=
      fun f hf => List.nodup_range.map hf
    refine List.Nodup.append (List.Nodup.append (hmap _ fun _ _ => Counter.pipeStage.inj)
      (hmap _ fun _ _ => Counter.pipeReduce.inj) ?_) (List.nodup_singleton _) ?_
    · simp [List.disjoint_left]
    · simp

theorem arrive_unique {ctr : Counter} {k k' : ℕ} (hk : L.program[k]? = some (.arrive ctr))
    (hk' : L.program[k']? = some (.arrive ctr)) : k = k' := by
  have hpair := List.pairwise_filterMap.mp L.counters_nodup
  have hlt : ∀ i j : ℕ, i < j → L.program[i]? = some (Instr.arrive ctr) →
      L.program[j]? ≠ some (Instr.arrive ctr) := by
    intro i j hij hi hj
    obtain ⟨hi', hi⟩ := List.getElem?_eq_some_iff.mp hi
    obtain ⟨hj', hj⟩ := List.getElem?_eq_some_iff.mp hj
    exact List.pairwise_iff_getElem.mp hpair i j hi' hj' hij ctr (by rw [hi]; rfl) ctr
      (by rw [hj]; rfl) rfl
  rcases Nat.lt_trichotomy k k' with h | h | h
  · exact absurd hk' (hlt k k' h hk)
  · exact h
  · exact absurd hk (hlt k' k h hk')

/-- The counters of a program belong to the grid of the launch. -/
theorem gridLog_of_arrive {ctr : Counter} {k : ℕ} (hk : L.program[k]? = some (.arrive ctr)) :
    ctr.gridLog cfg = L.gridLog cfg := by
  cases at_of_program hk with
  | arrive => cases L <;> rfl
  | body hj =>
    cases inBody (List.mem_of_getElem? hj) with
    | arrive _ hgrid => exact hgrid cfg

theorem grid_pos (cfg : Setting) (L : Launch) : 0 < L.grid cfg := Nat.two_pow_pos _

theorem gridLog_lt (hL : L.Valid cfg) : L.gridLog cfg < 32 := by
  cases L with
  | oneshot k | allGather k | allGatherColumns k => exact lt_of_le_of_lt hL cfg.blocksLog_lt
  | twoshot chunks => exact cfg.pipeLog_lt

end Launch

/-- **The last block of a grid**, found from a 32-bit counter that wraps: the grid
is a power of two. -/
theorem last_iff {k : ℕ} (hk : k < 32) (c : UInt32) :
    (c + 1) % UInt32.ofNat (2 ^ k) = 0 ↔ (c.toNat + 1) % 2 ^ k = 0 := by
  have hpow : (UInt32.ofNat (2 ^ k)).toNat = 2 ^ k :=
    UInt32.toNat_ofNat_of_lt' (Nat.pow_lt_pow_right (by decide) hk)
  rw [← UInt32.toNat_inj, UInt32.toNat_mod, hpow, UInt32.toNat_add]
  show (c.toNat + 1) % 2 ^ 32 % 2 ^ k = 0 ↔ _
  rw [Nat.mod_mod_of_dvd _ (Nat.pow_dvd_pow 2 hk.le)]

/-! ## The arrivals -/

/-- The blocks that have arrived at a counter in launch `n`. -/
def arrivals (n : ℕ) (ctr : Counter) (trace : List Entry) : List ℕ :=
  trace.filterMap fun e =>
    if e.launch = n ∧ e.thread = 0 ∧ e.op = .arrive ctr then some e.block else none

section Arrivals

variable {n b : ℕ} {ctr : Counter} {trace : List Entry}

theorem mem_arrivals : b ∈ arrivals n ctr trace ↔ Logged trace n b 0 (.arrive ctr) := by
  unfold arrivals Logged
  rw [List.mem_filterMap]
  constructor
  · rintro ⟨e, he, h⟩
    obtain ⟨⟨hn, ht, hop⟩, hb⟩ := Option.ite_none_right_eq_some.mp h
    exact ⟨e, he, hn, Option.some.inj hb, ht, hop⟩
  · rintro ⟨e, he, hn, hb, ht, hop⟩
    exact ⟨e, he, by rw [if_pos ⟨hn, ht, hop⟩, hb]⟩

end Arrivals

/-! ## The threads of a launch -/

/-- The threads of the launch `L`, which runs. -/
structure LaunchInv (cfg : Setting) (S : State) (L : Launch) : Prop where
  valid : L.Valid cfg
  threads : ∀ b < L.grid cfg, ∀ t < cfg.threads, ThreadInv L S.entry S.mem t (S.thread b t)
  logs : ∀ b < L.grid cfg, ∀ t < cfg.threads,
    LogInv L S.begun S.trace S.mem b t (S.thread b t)
  /-- a thread passes a barrier when the others have reached it -/
  barrier : ∀ b < L.grid cfg, ∀ t < cfg.threads, ∀ u < cfg.threads,
    (S.thread b t).skipped = false → (S.thread b u).skipped = false →
      ∀ k, L.program[k]? = some .sync → k < (S.thread b t).pc → k ≤ (S.thread b u).pc
  owner : ∀ e ∈ S.trace, e.launch = S.begun →
    e.block < L.grid cfg ∧ e.thread < cfg.threads ∧ e.seq = S.entry.epoch + 1
  nodup : ∀ ctr, (arrivals S.begun ctr S.trace).Nodup
  /-- the epoch moves after every thread has loaded it -/
  epoch : S.mem.epoch = S.entry.epoch ∨
    ∀ b < L.grid cfg, ∀ t < cfg.threads, 0 < (S.thread b t).pc

section Exec

variable {cfg : Setting} {S : State} {L : Launch} {b t b' t' : ℕ} {ok : Bool} {i : Instr}

theorem exec_thread_self (S : State) :
    (S.exec cfg L b t ok i).thread b t = (S.thread b t).exec cfg L S.mem b t ok i := by
  show Function.update S.thread b _ b t = _
  rw [Function.update_self, Function.update_self]

theorem exec_thread_ne (S : State) (h : ¬(b' = b ∧ t' = t)) :
    (S.exec cfg L b t ok i).thread b' t' = S.thread b' t' := by
  show Function.update S.thread b _ b' t' = _
  by_cases hb : b' = b
  · subst hb
    rw [Function.update_self, Function.update_of_ne fun ht => h ⟨rfl, ht⟩]
  · rw [Function.update_of_ne hb]

theorem exec_arrivals_self (S : State) (ctr : Counter) :
    arrivals S.begun ctr (S.exec cfg L b 0 ok (.arrive ctr)).trace =
      b :: arrivals S.begun ctr S.trace :=
  List.filterMap_cons_some (if_pos ⟨rfl, rfl, rfl⟩)

theorem exec_arrivals_ne (S : State) {ctr : Counter} (h : ¬(t = 0 ∧ i = .arrive ctr)) :
    arrivals S.begun ctr (S.exec cfg L b t ok i).trace = arrivals S.begun ctr S.trace :=
  List.filterMap_cons_none (if_neg fun h' => h h'.2)

namespace LaunchInv

/-- No block arrives twice. -/
theorem not_arrived (hinv : LaunchInv cfg S L) {ctr : Counter} (hb : b < L.grid cfg)
    (ht : 0 < cfg.threads) (htodo : (S.thread b 0).todo = none)
    (hi : L.program[(S.thread b 0).pc]? = some (.arrive ctr)) :
    b ∉ arrivals S.begun ctr S.trace := by
  intro hmem
  obtain ⟨k, hk, hdone⟩ := (hinv.logs b hb 0 ht).arrived ctr (mem_arrivals.mp hmem)
  obtain rfl := Launch.arrive_unique hk hi
  obtain hdone | ⟨-, hdone⟩ := hdone
  · exact Nat.lt_irrefl _ hdone
  · rw [htodo] at hdone
    cases hdone

theorem arrivals_subset (hinv : LaunchInv cfg S L) (ctr : Counter) :
    arrivals S.begun ctr S.trace ⊆ List.range (L.grid cfg) := by
  intro b hb
  obtain ⟨e, he, hn, rfl, -⟩ := mem_arrivals.mp hb
  exact List.mem_range.mpr (hinv.owner e he hn).1

theorem arrivals_length_le (hinv : LaunchInv cfg S L) (ctr : Counter) :
    (arrivals S.begun ctr S.trace).length ≤ L.grid cfg := by
  have hsub := ((hinv.nodup ctr).subperm (hinv.arrivals_subset ctr)).length_le
  rwa [List.length_range] at hsub

/-- When as many blocks as the grid has have arrived, all have. -/
theorem arrived_of_length (hinv : LaunchInv cfg S L) {ctr : Counter}
    (hlength : (arrivals S.begun ctr S.trace).length = L.grid cfg) (hb : b < L.grid cfg) :
    Logged S.trace S.begun b 0 (.arrive ctr) := by
  have hsub := (hinv.nodup ctr).subperm (hinv.arrivals_subset ctr)
  have hperm := hsub.perm_of_length_le (by rw [List.length_range, hlength])
  exact mem_arrivals.mp (hperm.mem_iff.mpr (List.mem_range.mpr hb))

/-- The threads of a block that has arrived at a counter have reached the barriers
before it, when none has skipped the body. -/
theorem reached (hinv : LaunchInv cfg S L) {ctr : Counter}
    (hskip : ∀ b < L.grid cfg, ∀ t < cfg.threads, (S.thread b t).skipped = false)
    (hlogged : Logged S.trace S.begun b 0 (.arrive ctr)) (hb : b < L.grid cfg)
    (ht : t < cfg.threads) {k m : ℕ} (hk : L.program[k]? = some (.arrive ctr))
    (hm : L.program[m]? = some .sync) (hmk : m < k) : m ≤ (S.thread b t).pc := by
  have h0 := cfg.threads_pos
  obtain ⟨k', hk', hdone⟩ := (hinv.logs b hb 0 h0).arrived ctr hlogged
  obtain rfl := Launch.arrive_unique hk hk'
  refine hinv.barrier b hb 0 h0 t ht (hskip b hb 0 h0) (hskip b hb t ht) m hm ?_
  exact hdone.elim (fun h => hmk.trans h) fun h => h.1 ▸ hmk

/-- **The threads keep their invariant** when one of them takes a step that is
not the advance of the epoch. -/
theorem exec (hinv : LaunchInv cfg S L) (hpoison : S.mem.poison ≠ 0 → S.mem.error ≠ 0)
    (hentry : S.entry.poison ≠ 0 → S.mem.poison ≠ 0) (hb : b < L.grid cfg) (ht : t < cfg.threads)
    (hcur : (S.thread b t).current L.program = some i) (henabled : S.Enabled cfg b t i)
    (hepoch : i = .setEpoch → ∀ b < L.grid cfg, ∀ t < cfg.threads, 0 < (S.thread b t).pc) :
    LaunchInv cfg (S.exec cfg L b t ok i) L := by
  have hthread := hinv.threads b hb t ht
  have hpc : (S.thread b t).pc ≤ ((S.thread b t).exec cfg L S.mem b t ok i).pc :=
    hthread.pc_le hcur
  have hguard : (S.thread b t).pc = 2 → (S.thread b t).seq = 0 → S.mem.poison ≠ 0 := by
    intro h2 hseq
    have hi : i = .wrapSync := by
      cases htodo : (S.thread b t).todo with
      | some j =>
        obtain ⟨h, hh, hc⟩ := hthread.todo j htodo
        rw [h2] at hh
        cases Option.some.inj hh
        cases hc
      | none =>
        rw [Thread.current, htodo, h2] at hcur
        exact (Option.some.inj hcur).symm
    subst hi
    have h0 := hinv.threads b hb 0 cfg.threads_pos
    obtain hs | hpass := henabled hseq
    · exact (hthread.skipped hs).1
    · obtain hs | hle := hpass 0 cfg.threads_pos
      · exact (h0.skipped hs).1
      · refine h0.wrapped rfl (by omega) ?_
        rw [h0.seq (by omega), ← hthread.seq (by omega), hseq]
  have hnew : ThreadInv L S.entry (S.mem.exec t (S.thread b t).seq i) t
      ((S.thread b t).exec cfg L S.mem b t ok i) :=
    hthread.exec hcur hpoison hentry (fun h0 => hinv.epoch.resolve_right fun h =>
      (h b hb t ht).ne' h0) hguard
  refine ⟨hinv.valid, fun b' hb' t' ht' => ?_, fun b' hb' t' ht' => ?_,
    fun b' hb' t' ht' u hu hs hsu k hk hlt => ?_, fun e he hn => ?_, fun ctr => ?_, ?_⟩
  · by_cases h : b' = b ∧ t' = t
    · obtain ⟨rfl, rfl⟩ := h
      rw [exec_thread_self]
      exact hnew
    · rw [exec_thread_ne S h]
      exact (hinv.threads b' hb' t' ht').frame (hthread.poison_ne hcur) (hthread.error_ne hcur)
  · by_cases h : b' = b ∧ t' = t
    · obtain ⟨rfl, rfl⟩ := h
      rw [exec_thread_self]
      exact (hinv.logs b' hb' t' ht').exec hthread hcur
    · rw [exec_thread_ne S h]
      exact (hinv.logs b' hb' t' ht').frame (fun he => h ⟨he.2.1.symm, he.2.2.symm⟩)
        (hthread.poison_ne hcur)
  · have hskip : ∀ v, ((S.exec cfg L b t ok i).thread b' v).skipped = false →
        (S.thread b' v).skipped = false := by
      intro v hv
      by_cases h : b' = b ∧ v = t
      · obtain ⟨rfl, rfl⟩ := h
        rw [exec_thread_self] at hv
        exact (Thread.skipped_of_exec hv).1
      · rwa [exec_thread_ne S h] at hv
    have hle : (S.thread b' u).pc ≤ ((S.exec cfg L b t ok i).thread b' u).pc := by
      by_cases h : b' = b ∧ u = t
      · obtain ⟨rfl, rfl⟩ := h
        rw [exec_thread_self]
        exact hpc
      · rw [exec_thread_ne S h]
    refine le_trans ?_ hle
    by_cases hold : k < (S.thread b' t').pc
    · exact hinv.barrier b' hb' t' ht' u hu (hskip t' hs) (hskip u hsu) k hk hold
    · have h : b' = b ∧ t' = t := by
        by_contra h
        rw [exec_thread_ne S h] at hlt
        exact hold hlt
      obtain ⟨rfl, rfl⟩ := h
      rw [exec_thread_self] at hs hlt
      have hk' : k = (S.thread b' t').pc :=
        le_antisymm (Nat.lt_succ_iff.mp (hlt.trans_le (Thread.skipped_of_exec hs).2))
          (Nat.not_lt.mp hold)
      -- the thread leaves the barrier
      have hi : i = .sync := by
        cases htodo : (S.thread b' t').todo with
        | some j =>
          obtain ⟨h, hh, hc⟩ := hthread.todo j htodo
          rw [← hk', hk] at hh
          cases Option.some.inj hh
          cases hc
        | none =>
          rw [Thread.current, htodo, ← hk', hk] at hcur
          exact (Option.some.inj hcur).symm
      subst hi
      obtain hs' | hpass := henabled
      · exact absurd (Thread.skipped_of_exec hs).1 (by simp [hs'])
      · obtain hu' | hle' := hpass u hu
        · exact absurd (hskip u hsu) (by simp [hu'])
        · exact hk' ▸ hle'
  · obtain rfl | he := List.mem_cons.mp he
    · exact ⟨hb, ht, hnew.seq (hthread.pc_pos hcur)⟩
    · exact hinv.owner e he hn
  · by_cases hctr : t = 0 ∧ i = .arrive ctr
    · obtain ⟨rfl, rfl⟩ := hctr
      obtain ⟨htodo, hi⟩ := hthread.program_of_current (fun h hc => by cases hc) hcur
      refine (exec_arrivals_self S ctr).symm ▸ ?_
      exact List.nodup_cons.mpr ⟨hinv.not_arrived hb ht htodo hi, hinv.nodup ctr⟩
    · exact (exec_arrivals_ne S hctr).symm ▸ hinv.nodup ctr
  · have hpos : (∀ b < L.grid cfg, ∀ t < cfg.threads, 0 < (S.thread b t).pc) →
        ∀ b' < L.grid cfg, ∀ t' < cfg.threads,
          0 < ((S.exec cfg L b t ok i).thread b' t').pc := by
      intro h b' hb' t' ht'
      by_cases hbt : b' = b ∧ t' = t
      · obtain ⟨rfl, rfl⟩ := hbt
        rw [exec_thread_self]
        exact hthread.pc_pos hcur
      · rw [exec_thread_ne S hbt]
        exact h b' hb' t' ht'
    by_cases hi : i = .setEpoch
    · exact .inr (hpos (hepoch hi))
    · exact hinv.epoch.imp (fun h => (exec_epoch hi).trans h) hpos

end LaunchInv

/-! ## The counters -/

/-- The counters agree with the arrivals of the launch up to a multiple of their
grid. -/
def State.Counts (cfg : Setting) (S : State) : Prop :=
  ∀ ctr : Counter, (S.mem.counter ctr).toNat % 2 ^ ctr.gridLog cfg =
    (arrivals S.begun ctr S.trace).length % 2 ^ ctr.gridLog cfg

theorem Counts.exec (hinv : LaunchInv cfg S L) (hcounts : S.Counts cfg) (hb : b < L.grid cfg)
    (ht : t < cfg.threads) (hcur : (S.thread b t).current L.program = some i) :
    (S.exec cfg L b t ok i).Counts cfg := by
  intro ctr
  show ((S.mem.exec t (S.thread b t).seq i).counter ctr).toNat % _ =
    (arrivals S.begun ctr (S.exec cfg L b t ok i).trace).length % _
  by_cases harrive : t = 0 ∧ i = .arrive ctr
  · obtain ⟨rfl, rfl⟩ := harrive
    obtain ⟨-, hi⟩ := (hinv.threads b hb 0 ht).program_of_current (fun h hc => by cases hc) hcur
    have hlog : ctr.gridLog cfg < 32 := by
      rw [Launch.gridLog_of_arrive hi]
      exact Launch.gridLog_lt hinv.valid
    rw [exec_arrivals_self, List.length_cons, Nat.add_mod, ← hcounts ctr, ← Nat.add_mod]
    show (Function.update S.mem.counter ctr (S.mem.counter ctr + 1) ctr).toNat % _ = _
    rw [Function.update_self, UInt32.toNat_add]
    exact Nat.mod_mod_of_dvd _ (Nat.pow_dvd_pow 2 hlog.le)
  · rw [exec_arrivals_ne S harrive, ← hcounts ctr]
    by_cases hi : ∃ ctr', i = .arrive ctr'
    · obtain ⟨ctr', rfl⟩ := hi
      by_cases h0 : t = 0
      · subst h0
        show (Function.update S.mem.counter ctr' (S.mem.counter ctr' + 1) ctr).toNat % _ = _
        rw [Function.update_of_ne fun h => harrive ⟨rfl, congrArg Instr.arrive h.symm⟩]
      · rw [Memory.exec, if_neg h0]
    · rw [exec_counter fun ctr' h => hi ⟨ctr', h⟩]

/-- The block that finds itself the last is the last. -/
theorem last_arrival (hinv : LaunchInv cfg S L) (hcounts : S.Counts cfg) {ctr : Counter}
    (hb : b < L.grid cfg) (htodo : (S.thread b 0).todo = none)
    (hi : L.program[(S.thread b 0).pc]? = some (.arrive ctr)) :
    (S.mem.counter ctr + 1) % UInt32.ofNat (L.grid cfg) = 0 ↔
      (arrivals S.begun ctr S.trace).length + 1 = L.grid cfg := by
  have hle : (arrivals S.begun ctr S.trace).length + 1 ≤ L.grid cfg := by
    have hsub : b :: arrivals S.begun ctr S.trace ⊆ List.range (L.grid cfg) :=
      List.cons_subset.mpr ⟨List.mem_range.mpr hb, hinv.arrivals_subset ctr⟩
    have hnodup := List.nodup_cons.mpr
      ⟨hinv.not_arrived hb cfg.threads_pos htodo hi, hinv.nodup ctr⟩
    have hlength := (hnodup.subperm hsub).length_le
    rwa [List.length_range] at hlength
  have hcount := hcounts ctr
  rw [Launch.gridLog_of_arrive hi] at hcount
  show _ % UInt32.ofNat (2 ^ L.gridLog cfg) = 0 ↔ _ = 2 ^ L.gridLog cfg
  rw [last_iff (Launch.gridLog_lt hinv.valid), Nat.add_mod, hcount, ← Nat.add_mod]
  constructor
  · intro h
    exact le_antisymm hle (Nat.le_of_dvd (Nat.succ_pos _) (Nat.dvd_of_mod_eq_zero h))
  · intro h
    rw [h, Nat.mod_self]

/-! ## The tail -/

/-- The thread has arrived at the tail counter as the last, and is not done. -/
def State.InTail (S : State) (L : Launch) (b t : ℕ) : Prop :=
  (S.thread b t).pc = L.body.length + 5 ∧ (S.thread b t).todo.isSome

/-- How often the epoch has been advanced in launch `n`. -/
def advances (n : ℕ) (trace : List Entry) : ℕ :=
  trace.countP fun e => e.launch = n ∧ e.op = .setEpoch

/-- How far the launch has come, while the error word is zero. -/
inductive Tail (cfg : Setting) (S : State) (L : Launch) : Prop
  | before (hlength : (arrivals S.begun L.tail S.trace).length < L.grid cfg)
      (hepoch : S.mem.epoch = S.entry.epoch) (hadvances : advances S.begun S.trace = 0)
      (hnone : ∀ b < L.grid cfg, ∀ t < cfg.threads, ¬S.InTail L b t)
  | last (hlength : (arrivals S.begun L.tail S.trace).length = L.grid cfg)
      (hepoch : S.mem.epoch = S.entry.epoch) (hadvances : advances S.begun S.trace = 0)
      (b t : ℕ) (hb : b < L.grid cfg) (ht : t < cfg.threads) (hin : S.InTail L b t)
      (hone : ∀ b' < L.grid cfg, ∀ t' < cfg.threads, S.InTail L b' t' → b' = b ∧ t' = t)
  | after (hlength : (arrivals S.begun L.tail S.trace).length = L.grid cfg)
      (hepoch : S.mem.epoch = S.entry.epoch + 1) (hadvances : advances S.begun S.trace = 1)
      (hnone : ∀ b < L.grid cfg, ∀ t < cfg.threads, ¬S.InTail L b t)

/-- Once every block has arrived at the tail, the threads have reached the barrier
before it. -/
theorem LaunchInv.tail_reached (hinv : LaunchInv cfg S L)
    (hskip : ∀ b < L.grid cfg, ∀ t < cfg.threads, (S.thread b t).skipped = false)
    (hlength : (arrivals S.begun L.tail S.trace).length = L.grid cfg) (hb : b < L.grid cfg)
    (ht : t < cfg.threads) : L.body.length + 4 ≤ (S.thread b t).pc :=
  hinv.reached hskip (hinv.arrived_of_length hlength hb) hb ht L.program_arrive L.program_sync
    (Nat.lt_succ_self _)

/-- What a thread past the last barrier still has to do is the tail. -/
theorem LaunchInv.inTail_of_todo (hinv : LaunchInv cfg S L) (hb : b < L.grid cfg)
    (ht : t < cfg.threads) (hpc : L.body.length + 4 ≤ (S.thread b t).pc)
    (htodo : (S.thread b t).todo = some i) : S.InTail L b t := by
  refine ⟨?_, htodo ▸ rfl⟩
  obtain ⟨h, hh, hc⟩ := (hinv.threads b hb t ht).todo i htodo
  generalize (S.thread b t).pc = k at hh hpc
  cases Launch.at_of_program hh with
  | arrive => rfl
  | sync => cases hc
  | @body j _ hj =>
    have := (List.getElem?_eq_some_iff.mp hj).1
    omega
  | loadEpoch | wrapGuard | wrapSync | branch => omega

/-- Only the tail advances the epoch. -/
theorem LaunchInv.inTail_of_setEpoch (hinv : LaunchInv cfg S L) (hb : b < L.grid cfg)
    (ht : t < cfg.threads) (hi : i = .setEpoch ∨ i = .awaitRelease)
    (htodo : (S.thread b t).todo = some i) : S.InTail L b t := by
  obtain ⟨h, hh, hc⟩ := (hinv.threads b hb t ht).todo i htodo
  refine hinv.inTail_of_todo hb ht ?_ htodo
  generalize (S.thread b t).pc = k at hh
  have htail : ∃ ctr : Counter, ctr.IsTail ∧ h = .arrive ctr := by
    obtain rfl | rfl := hi <;> cases hc
    exacts [⟨.tail _, trivial, rfl⟩, ⟨.pipeTail, trivial, rfl⟩, ⟨.pipeTail, trivial, rfl⟩]
  obtain ⟨ctr, htail, rfl⟩ := htail
  cases Launch.at_of_program hh with
  | arrive => omega
  | body hj =>
    cases Launch.inBody (List.mem_of_getElem? hj) with
    | arrive hbody => exact absurd htail hbody

section Tail

theorem exec_inTail_ne (h : ¬(b' = b ∧ t' = t)) :
    (S.exec cfg L b t ok i).InTail L b' t' ↔ S.InTail L b' t' := by
  unfold State.InTail
  rw [exec_thread_ne S h]

/-- A thread that is in the tail after a step was in it, or has arrived. -/
theorem exec_inTail_self :
    (S.exec cfg L b t ok i).InTail L b t ↔
      ((S.thread b t).exec cfg L S.mem b t ok i).pc = L.body.length + 5 ∧
        ((S.thread b t).exec cfg L S.mem b t ok i).todo.isSome := by
  unfold State.InTail
  rw [exec_thread_self]

theorem exec_advances (S : State) (h : i ≠ .setEpoch) :
    advances S.begun (S.exec cfg L b t ok i).trace = advances S.begun S.trace := by
  refine List.countP_cons_of_neg fun h' => h ?_
  exact (of_decide_eq_true h').2

/-- Only thread 0 arrives. -/
theorem of_follow_arrive {M : Memory} {seq : UInt32} {ctr : Counter} {j : Instr}
    (hf : Instr.follow cfg L M b t seq ok (.arrive ctr) = some j) : t = 0 := by
  cases follows_of_follow hf with
  | arrive ht => exact ht

/-- Where the thread goes on, when it does not skip the body. -/
theorem exec_thread_none (hbranch : i ≠ .branch)
    (hf : i.follow cfg L S.mem b t (S.thread b t).seq ok = none) :
    ((S.thread b t).exec cfg L S.mem b t ok i).todo = none := by
  obtain ⟨h, -⟩ | ⟨seq, -, hth⟩ := Thread.exec_cases cfg L S.mem b t ok (S.thread b t) i
  · exact absurd h hbranch
  · rw [hth, hf]
    rfl

theorem exec_thread_some {j : Instr} (hbranch : i ≠ .branch)
    (hf : i.follow cfg L S.mem b t (S.thread b t).seq ok = some j) :
    ((S.thread b t).exec cfg L S.mem b t ok i).pc = (S.thread b t).pc ∧
      ((S.thread b t).exec cfg L S.mem b t ok i).todo = some j := by
  obtain ⟨h, -⟩ | ⟨seq, -, hth⟩ := Thread.exec_cases cfg L S.mem b t ok (S.thread b t) i
  · exact absurd h hbranch
  · rw [hth, hf]
    exact ⟨rfl, rfl⟩

/-- A step that is no part of the tail. -/
theorem Tail.frame (htail : Tail cfg S L) (hset : i ≠ .setEpoch)
    (harrive : ¬(t = 0 ∧ i = .arrive L.tail))
    (hin : (S.exec cfg L b t ok i).InTail L b t ↔ S.InTail L b t) :
    Tail cfg (S.exec cfg L b t ok i) L := by
  have hall : ∀ b' t', (S.exec cfg L b t ok i).InTail L b' t' ↔ S.InTail L b' t' := by
    intro b' t'
    by_cases h : b' = b ∧ t' = t
    · obtain ⟨rfl, rfl⟩ := h
      exact hin
    · exact exec_inTail_ne h
  have harrivals : arrivals S.begun L.tail (S.exec cfg L b t ok i).trace =
      arrivals S.begun L.tail S.trace := exec_arrivals_ne S harrive
  cases htail with
  | before hlength hepoch hadvances hnone =>
    exact .before (harrivals.symm ▸ hlength) ((exec_epoch hset).trans hepoch)
      ((exec_advances S hset).trans hadvances)
      fun b' hb' t' ht' h => hnone b' hb' t' ht' ((hall b' t').mp h)
  | last hlength hepoch hadvances b' t' hb' ht' hin hone =>
    exact .last (harrivals.symm ▸ hlength) ((exec_epoch hset).trans hepoch)
      ((exec_advances S hset).trans hadvances) b' t' hb' ht' ((hall b' t').mpr hin)
      fun b'' hb'' t'' ht'' h => hone b'' hb'' t'' ht'' ((hall b'' t'').mp h)
  | after hlength hepoch hadvances hnone =>
    exact .after (harrivals.symm ▸ hlength) ((exec_epoch hset).trans hepoch)
      ((exec_advances S hset).trans hadvances)
      fun b' hb' t' ht' h => hnone b' hb' t' ht' ((hall b' t').mp h)

/-- A block arrives at the tail counter. -/
theorem Tail.arrive (hinv : LaunchInv cfg S L) (hcounts : S.Counts cfg) (htail : Tail cfg S L)
    (hb : b < L.grid cfg) (htodo : (S.thread b 0).todo = none)
    (hi : L.program[(S.thread b 0).pc]? = some (.arrive L.tail)) :
    Tail cfg (S.exec cfg L b 0 ok (.arrive L.tail)) L := by
  have h0 := cfg.threads_pos
  have hlast := last_arrival hinv hcounts hb htodo hi
  have hnot := hinv.not_arrived hb h0 htodo hi
  have hpc : (S.thread b 0).pc = L.body.length + 5 := Launch.arrive_unique hi L.program_arrive
  have harrivals : arrivals S.begun L.tail (S.exec cfg L b 0 ok (.arrive L.tail)).trace =
      b :: arrivals S.begun L.tail S.trace := exec_arrivals_self S L.tail
  have hfull : ∀ {P : Prop}, (arrivals S.begun L.tail S.trace).length = L.grid cfg → P :=
    fun {_} h => absurd (mem_arrivals.mpr (hinv.arrived_of_length h hb)) hnot
  cases htail with
  | last hlength => exact hfull hlength
  | after hlength => exact hfull hlength
  | before hlength hepoch hadvances hnone =>
    have hothers : ∀ b' < L.grid cfg, ∀ t' < cfg.threads,
        (S.exec cfg L b 0 ok (.arrive L.tail)).InTail L b' t' → b' = b ∧ t' = 0 := by
      intro b' hb' t' ht' h
      by_contra hne
      exact hnone b' hb' t' ht' ((exec_inTail_ne hne).mp h)
    have hepoch' : (S.exec cfg L b 0 ok (.arrive L.tail)).mem.epoch = S.entry.epoch :=
      (exec_epoch (by simp)).trans hepoch
    have hadvances' : advances S.begun (S.exec cfg L b 0 ok (.arrive L.tail)).trace = 0 :=
      (exec_advances S (by simp)).trans hadvances
    by_cases hgrid : (arrivals S.begun L.tail S.trace).length + 1 = L.grid cfg
    · have hf : Instr.follow cfg L S.mem b 0 (S.thread b 0).seq ok (.arrive L.tail) =
          some L.tail.onLast := if_pos ⟨rfl, hlast.mpr hgrid⟩
      obtain ⟨hpc', htodo'⟩ := exec_thread_some (by simp) hf
      refine .last ?_ hepoch' hadvances' b 0 hb h0 (exec_inTail_self.mpr ⟨hpc'.trans hpc, ?_⟩)
        hothers
      · rw [← hgrid]
        exact congrArg List.length harrivals
      · rw [htodo']
        rfl
    · have hf : Instr.follow cfg L S.mem b 0 (S.thread b 0).seq ok (.arrive L.tail) = none :=
        if_neg fun h => hgrid (hlast.mp h.2)
      refine .before ?_ hepoch' hadvances' fun b' hb' t' ht' h => ?_
      · refine lt_of_eq_of_lt (congrArg List.length harrivals) ?_
        exact lt_of_le_of_ne hlength hgrid
      · obtain ⟨rfl, rfl⟩ := hothers b' hb' t' ht' h
        have hsome := (exec_inTail_self.mp h).2
        rw [exec_thread_none (by simp) hf] at hsome
        cases hsome

theorem Launch.tail_isTail (L : Launch) : L.tail.IsTail := by
  cases L <;> trivial

/-- What the last block does in the tail. -/
theorem Continues.tail_cases {ctr : Counter} (hctr : ctr.IsTail) (hc : Continues (.arrive ctr) i) :
    i = .setEpoch ∨ i = .checkEpoch ∨ i = .checkRelease ∨ i = .awaitRelease ∨
      ∃ ws, i = .stores ws := by
  cases hc with
  | setEpoch | release => exact .inl rfl
  | checkEpoch => exact .inr (.inl rfl)
  | checkRelease => exact .inr (.inr (.inl rfl))
  | awaitRelease => exact .inr (.inr (.inr (.inl rfl)))
  | stores ws => exact .inr (.inr (.inr (.inr ⟨ws, rfl⟩)))
  | ring | checkRs | publishRs | checkAg | publishAg => exact absurd hctr id

/-- The record of a failure ends after the error word is set. -/
theorem Stores.error_of_follow {e seq : UInt32} {ws : List (Word × UInt32)} {M : Memory}
    (h : Stores e ws) (hf : Instr.follow cfg L M b t seq ok (.stores ws) = none) : e ≠ 0 := by
  match ws, h with
  | [(.peer, _)], h => exact absurd h id
  | [(.hca, _)], h => exact absurd h id
  | [(.error, _)], h => exact absurd h.2 id
  | [(.poison, _)], h => exact h.2.1
  | _ :: _ :: _, _ => cases hf

/-- The last block goes on. -/
theorem Tail.exec_inTail (hinv : LaunchInv cfg S L) (htail : Tail cfg S L)
    (herror : S.mem.error = 0) (hb : b < L.grid cfg) (ht : t < cfg.threads)
    (hin : S.InTail L b t) (htodo : (S.thread b t).todo = some i)
    (hc : Continues (.arrive L.tail) i) : Tail cfg (S.exec cfg L b t ok i) L := by
  have hcases := hc.tail_cases L.tail_isTail
  have hbranch : i ≠ .branch := by
    rintro rfl
    simp at hcases
  have harrive : ∀ ctr, i ≠ .arrive ctr := by
    rintro ctr rfl
    simp at hcases
  have hnotset : ∀ j, i.follow cfg L S.mem b t (S.thread b t).seq ok = some j →
      i ≠ .setEpoch → Tail cfg (S.exec cfg L b t ok i) L := by
    intro j hf hset
    obtain ⟨hpc', htodo'⟩ := exec_thread_some hbranch hf
    refine htail.frame hset (fun h => harrive _ h.2) ⟨fun _ => hin, fun _ => ?_⟩
    exact exec_inTail_self.mpr ⟨hpc'.trans hin.1, htodo' ▸ rfl⟩
  by_cases hset : i = .setEpoch
  · subst hset
    cases htail with
    | before _ _ _ hnone => exact absurd hin (hnone b hb t ht)
    | after _ _ _ hnone => exact absurd hin (hnone b hb t ht)
    | last hlength hepoch hadvances b₀ t₀ hb₀ ht₀ hin₀ hone =>
      refine .after ?_ ?_ ?_ fun b' hb' t' ht' h => ?_
      · rw [← hlength]
        exact congrArg List.length (exec_arrivals_ne S (by simp))
      · exact (hinv.threads b hb t ht).seq (by rw [hin.1]; omega)
      · rw [← Nat.zero_add 1, ← hadvances]
        exact List.countP_cons_of_pos (decide_eq_true ⟨rfl, rfl⟩)
      · by_cases hbt : b' = b ∧ t' = t
        · obtain ⟨rfl, rfl⟩ := hbt
          have hsome := (exec_inTail_self.mp h).2
          rw [exec_thread_none (by simp) rfl] at hsome
          cases hsome
        · have h' := hone b' hb' t' ht' ((exec_inTail_ne hbt).mp h)
          have h := hone b hb t ht hin
          exact hbt ⟨h'.1.trans h.1.symm, h'.2.trans h.2.symm⟩
  · cases hf : i.follow cfg L S.mem b t (S.thread b t).seq ok with
    | some j => exact hnotset j hf hset
    | none =>
      exfalso
      obtain rfl | rfl | rfl | rfl | ⟨ws, rfl⟩ := hcases
      · exact hset rfl
      · rw [Instr.follow, if_pos herror] at hf
        cases hf
      · rw [Instr.follow, if_pos herror] at hf
        cases hf
      · rw [Instr.follow] at hf
        split at hf <;> cases hf
      · exact ((hinv.threads b hb t ht).stores ws htodo).error_of_follow hf herror

/-- **The tail keeps its phases.** -/
theorem Tail.exec (hinv : LaunchInv cfg S L) (hcounts : S.Counts cfg) (htail : Tail cfg S L)
    (herror : S.mem.error = 0) (hb : b < L.grid cfg) (ht : t < cfg.threads)
    (hcur : (S.thread b t).current L.program = some i) : Tail cfg (S.exec cfg L b t ok i) L := by
  have hthread := hinv.threads b hb t ht
  cases htodo : (S.thread b t).todo with
  | some j =>
    have hcur' := hcur
    rw [Thread.current, htodo] at hcur'
    obtain rfl := Option.some.inj hcur'
    obtain ⟨h, hh, hc⟩ := hthread.todo j htodo
    by_cases hin : S.InTail L b t
    · rw [hin.1, L.program_arrive] at hh
      exact htail.exec_inTail hinv herror hb ht hin htodo (Option.some.inj hh ▸ hc)
    · refine htail.frame ?_ ?_ ⟨fun h => ?_, fun h => absurd h hin⟩
      · rintro rfl
        exact hin (hinv.inTail_of_setEpoch hb ht (.inl rfl) htodo)
      · rintro ⟨-, rfl⟩
        cases hc
      · obtain ⟨hpc, hsome⟩ := exec_inTail_self.mp h
        cases hf : j.follow cfg L S.mem b t (S.thread b t).seq ok with
        | none =>
          rw [exec_thread_none (by rintro rfl; cases hc) hf] at hsome
          cases hsome
        | some j' =>
          have hpc' := (exec_thread_some (by rintro rfl; cases hc) hf).1
          exact ⟨hpc'.symm.trans hpc, htodo ▸ rfl⟩
  | none =>
    have hi := hcur
    rw [Thread.current, htodo] at hi
    by_cases harrive : t = 0 ∧ i = .arrive L.tail
    · obtain ⟨rfl, rfl⟩ := harrive
      exact htail.arrive hinv hcounts hb htodo hi
    · refine htail.frame ?_ harrive ⟨fun h => ?_, fun h => ?_⟩
      · rintro rfl
        exact absurd (Continues.setEpoch 0) (not_continues hi)
      · obtain ⟨hpc, hsome⟩ := exec_inTail_self.mp h
        by_cases hbranch : i = .branch
        · subst hbranch
          obtain ⟨-, -, hth⟩ | ⟨seq, -, hth⟩ :=
            Thread.exec_cases cfg L S.mem b t ok (S.thread b t) .branch
          · rw [hth] at hsome
            exact absurd (show (S.thread b t).todo.isSome from hsome) (by rw [htodo]; simp)
          · rw [hth] at hsome
            cases hsome
        cases hf : i.follow cfg L S.mem b t (S.thread b t).seq ok with
        | none =>
          rw [exec_thread_none hbranch hf] at hsome
          cases hsome
        | some j =>
          have hpc' := (exec_thread_some hbranch hf).1
          rw [← hpc', hpc, L.program_arrive] at hi
          obtain rfl := Option.some.inj hi
          exact absurd ⟨(of_follow_arrive hf), rfl⟩ harrive
      · rw [State.InTail, htodo] at h
        cases h.2

end Tail

end Exec

end PoisonGuard
