import SparkTP4.IdlePark
import SparkTP4.IdleParkHooks
import Mathlib.Data.Nat.Basic
import Mathlib.Tactic.Common

/-!
# No wakeup of the idle park is lost

A bump separates the loads of the generation before it from those after it. A
proxy that blocks has loaded the newest generation, so a call that has bumped it
before cannot have been missed (`Inv.blocked`); a call that bumps it later
follows with a `FUTEX_WAKE`. Where the proxy has to leave, it is followed step by
step with a rank of its position (`leavesWithin_of_rank`).
-/

namespace IdlePark

/-- The proxy has found `allow` set with the generation it has loaded last. -/
def Pc.PastAllow : Pc → Prop
  | doorbell | gen1 | running | wait | blocked => True
  | _ => False

/-- The proxy has found `running` set with the generation it has loaded last. -/
def Pc.PastRunning : Pc → Prop
  | wait | blocked => True
  | _ => False

/-- What a call in progress knows. Its `allow` is still clear if no
`roce_park_allow` came after it. -/
def State.CallInv (S : State) : Call → Prop
  | .none => True
  | .clear start => start ≤ S.gen
  | .exchange start => start ≤ S.gen
  | .bump stop start allows => start ≤ S.gen ∧ allows ≤ S.allows ∧
      (stop = true → S.running = false) ∧ (stop = false → allows = S.allows → S.allow = false)
  | .wake stop start allows bump => start < bump ∧ bump ≤ S.gen ∧ allows ≤ S.allows ∧
      (stop = true → S.running = false ∧ (S.pc.PastRunning → S.g < bump)) ∧
      (stop = false → allows = S.allows → S.allow = false ∧ (S.pc.PastAllow → S.g < bump))
  | .join start bump => start < bump ∧ bump ≤ S.gen ∧ S.running = false ∧ S.pc ≠ .blocked ∧
      (S.pc.PastRunning → S.g < bump)

/-- What a call that has returned has left. -/
def State.ReturnInv (S : State) (c : Return) : Prop :=
  c.allows ≤ S.allows ∧ (c.stop = false → c.bump.isSome) ∧
    ∀ k, c.bump = some k → c.start < k ∧ k ≤ S.gen ∧
    (S.pc = .blocked → k ≤ S.g) ∧
    (c.stop = true → S.pc = .exited true ∨ S.pc = .exited false) ∧
    (c.stop = false → c.allows = S.allows →
      S.allow = false ∧ S.pc ≠ .blocked ∧ (S.pc.PastAllow → S.g < k))

structure Inv (S : State) : Prop where
  g_le : S.g ≤ S.gen
  writes : S.pc.InPark → S.writes = 0
  call : ∀ t, S.CallInv (S.call t)
  returned : ∀ c ∈ S.returned, S.ReturnInv c

theorem Inv.start : Inv .start where
  g_le := Nat.le_refl 0
  writes h := absurd h id
  call _ := trivial
  returned _ h := absurd h List.not_mem_nil

section Step

variable {S S' : State} {now : UInt64} {ok : Bool} {n : ℕ}

/-- A load of the generation that is not the newest does not block. -/
theorem word_ne {n m : ℕ} (hlt : m < n) (h : n < m + 2 ^ 32) : word n ≠ word m := by
  unfold word
  omega

/-- What a step of the proxy can do. -/
structure ProxyStep (S S' : State) : Prop where
  allow : S'.allow = S.allow
  gen : S'.gen = S.gen
  running : S'.running = S.running
  seq : S'.seq = S.seq
  call : S'.call = S.call
  allows : S'.allows = S.allows
  returned : S'.returned = S.returned
  g_le : S.g ≤ S.gen → S'.g ≤ S'.gen
  writes : (S.pc.InPark → S.writes = 0) → S'.pc.InPark → S'.writes = 0
  alive : ∀ failed, S.pc ≠ .exited failed
  pastAllow : S'.pc.PastAllow → S.allow = true ∨ S.pc.PastAllow ∧ S'.g = S.g
  pastRunning : S'.pc.PastRunning → S.running = true ∨ S.pc.PastRunning ∧ S'.g = S.g
  blocked : S'.pc = .blocked → S.pc = .wait ∧ word S.gen = word S.g ∧ S'.g = S.g
  returns : S.returns ≤ S'.returns

theorem Pc.PastRunning.pastAllow {pc : Pc} (h : pc.PastRunning) : pc.PastAllow := by
  cases pc <;> trivial

theorem Pc.PastAllow.inPark {pc : Pc} (h : pc.PastAllow) : pc.InPark := by
  cases pc <;> trivial

/-- A step that ends outside of `roce_park_block`. -/
theorem ProxyStep.outside {pc : Pc} {idle writes parks wakes timeouts late returns : ℕ}
    {since : UInt64} {seen lastSeq : UInt32} (halive : ∀ failed, S.pc ≠ .exited failed)
    (hpc : ¬pc.InPark) (hreturns : S.returns ≤ returns) :
    ProxyStep S { S with
      pc := pc, idle := idle, since := since, seen := seen, lastSeq := lastSeq, writes := writes
      parks := parks, wakes := wakes, timeouts := timeouts, late := late, returns := returns } where
  allow := rfl
  gen := rfl
  running := rfl
  seq := rfl
  call := rfl
  allows := rfl
  returned := rfl
  g_le := id
  writes _ h := absurd h hpc
  alive := halive
  pastAllow h := absurd h.inPark hpc
  pastRunning h := absurd h.pastAllow.inPark hpc
  blocked h := absurd ((show pc = .blocked from h) ▸ trivial) hpc
  returns := hreturns

/-- A step in `roce_park_block`, or into it. -/
theorem ProxyStep.inside {pc : Pc} {g0 g writes parks timeouts : ℕ}
    (halive : ∀ failed, S.pc ≠ .exited failed)
    (hwrites : (S.pc.InPark → S.writes = 0) → writes = 0) (hg : S.g ≤ S.gen → g ≤ S.gen)
    (hallow : pc.PastAllow → S.allow = true ∨ S.pc.PastAllow ∧ g = S.g)
    (hrunning : pc.PastRunning → S.running = true ∨ S.pc.PastRunning ∧ g = S.g)
    (hblocked : pc = .blocked → S.pc = .wait ∧ word S.gen = word S.g ∧ g = S.g) :
    ProxyStep S { S with
      pc := pc, g0 := g0, g := g, writes := writes, parks := parks, timeouts := timeouts } where
  allow := rfl
  gen := rfl
  running := rfl
  seq := rfl
  call := rfl
  allows := rfl
  returned := rfl
  g_le := hg
  writes h _ := hwrites h
  alive := halive
  pastAllow := hallow
  pastRunning := hrunning
  blocked := hblocked
  returns := Nat.le_refl _

theorem proxyStep (h : S.proxy now ok n = some S') : ProxyStep S S' := by
  have halive : ∀ {pc : Pc}, S.pc = pc → (∀ failed, pc ≠ .exited failed) →
      ∀ failed, S.pc ≠ .exited failed := fun {_} h hpc => h ▸ hpc
  unfold State.proxy at h
  split at h <;> rename_i hpc
  · obtain rfl := Option.some.inj h
    refine .outside (halive hpc (by simp)) ?_ (Nat.le_refl _)
    split <;> exact id
  · split at h
    · obtain rfl := Option.some.inj h
      refine .outside (halive hpc (by simp)) ?_ (Nat.le_refl _)
      split <;> exact id
    · obtain rfl := Option.some.inj h
      exact .outside (halive hpc (by simp)) id (Nat.le_refl _)
  · split at h
    · obtain rfl := Option.some.inj h
      exact .outside (halive hpc (by simp)) id (Nat.le_refl _)
    · obtain rfl := Option.some.inj h
      exact .outside (halive hpc (by simp)) id (Nat.le_refl _)
  · obtain rfl := Option.some.inj h
    refine .outside (halive hpc (by simp)) ?_ (Nat.le_refl _)
    split <;> exact id
  · obtain rfl := Option.some.inj h
    by_cases hwrites : S.writes = 0
    · rw [if_pos hwrites]
      exact .inside (halive hpc (by simp)) (fun _ => hwrites) id (fun h => absurd h id)
        (fun h => absurd h id) (fun h => by cases h)
    · rw [if_neg hwrites]
      exact .outside (halive hpc (by simp)) id (Nat.le_refl _)
  · split at h
    · obtain rfl := Option.some.inj h
      exact .outside (halive hpc (by simp)) id (Nat.le_refl _)
    · obtain rfl := Option.some.inj h
      exact .outside (halive hpc (by simp)) id (Nat.le_refl _)
  · obtain rfl := Option.some.inj h
    exact .inside (halive hpc (by simp)) (fun h => h (hpc ▸ trivial)) id (fun h => absurd h id)
      (fun h => absurd h id) (fun h => by cases h)
  · obtain rfl := Option.some.inj h
    exact .inside (halive hpc (by simp)) (fun h => h (hpc ▸ trivial)) id (fun h => absurd h id)
      (fun h => absurd h id) (fun h => by cases h)
  · obtain rfl := Option.some.inj h
    exact .inside (halive hpc (by simp)) (fun h => h (hpc ▸ trivial)) (fun _ => Nat.le_refl _)
      (fun h => absurd h id) (fun h => absurd h id) (fun h => by cases h)
  · obtain rfl := Option.some.inj h
    refine .inside (halive hpc (by simp)) (fun h => h (hpc ▸ trivial)) id (fun h => .inl ?_) ?_ ?_
    · by_contra hallow
      rw [if_neg hallow] at h
      exact h
    · split <;> exact fun h => absurd h id
    · split <;> exact fun h => by cases h
  · obtain rfl := Option.some.inj h
    refine .inside (halive hpc (by simp)) (fun h => h (hpc ▸ trivial)) id
      (fun _ => .inr ⟨hpc ▸ trivial, rfl⟩) ?_ ?_
    · split <;> exact fun h => absurd h id
    · split <;> exact fun h => by cases h
  · obtain rfl := Option.some.inj h
    refine .inside (halive hpc (by simp)) (fun h => h (hpc ▸ trivial)) id
      (fun _ => .inr ⟨hpc ▸ trivial, rfl⟩) ?_ ?_
    · split <;> exact fun h => absurd h id
    · split <;> exact fun h => by cases h
  · obtain rfl := Option.some.inj h
    refine .inside (halive hpc (by simp)) (fun h => h (hpc ▸ trivial)) id
      (fun _ => .inr ⟨hpc ▸ trivial, rfl⟩) (fun h => .inl ?_) ?_
    · by_contra hrunning
      rw [if_neg hrunning] at h
      exact h
    · split <;> exact fun h => by cases h
  · obtain rfl := Option.some.inj h
    refine .inside (halive hpc (by simp)) (fun h => h (hpc ▸ trivial)) id
      (fun _ => .inr ⟨hpc ▸ trivial, rfl⟩) (fun _ => .inr ⟨hpc ▸ trivial, rfl⟩) fun h => ?_
    by_cases hword : word S.gen = word S.g
    · exact ⟨hpc, hword, rfl⟩
    · rw [if_neg hword] at h
      cases h
  · cases h
  · split at h
    · obtain rfl := Option.some.inj h
      refine .inside (halive hpc (by simp)) (fun h => ?_) id (fun h => absurd h id)
        (fun h => absurd h id) (fun h => by cases h)
      rw [show S.writes = 0 from h (hpc ▸ trivial), Nat.zero_sub]
    · obtain rfl := Option.some.inj h
      exact .outside (halive hpc (by simp)) id (Nat.le_succ _)
  · split at h <;> obtain rfl := Option.some.inj h <;>
      exact .outside (halive hpc (by simp)) id (Nat.le_succ _)
  · cases h

/-! ## The invariant -/

/-- A step of the proxy. -/
theorem Inv.proxy (hinv : Inv S) (hstep : ProxyStep S S')
    (htime : S.pc = .wait → S.gen < S.g + 2 ^ 32) : Inv S' := by
  -- the proxy does not block with a generation older than the newest
  have hnew : ∀ k, k ≤ S.gen → (S.pc.PastRunning → S.g < k) → S'.pc ≠ .blocked := by
    intro k hk hold hblocked
    obtain ⟨hwait, hword, -⟩ := hstep.blocked hblocked
    exact word_ne (lt_of_lt_of_le (hold (hwait ▸ trivial)) hk) (htime hwait) hword
  refine ⟨hstep.g_le hinv.g_le, hstep.writes hinv.writes, fun t => ?_, fun c hc => ?_⟩
  · have hcall := hinv.call t
    rw [hstep.call]
    cases hct : S.call t with
    | none => trivial
    | clear start =>
      rw [hct] at hcall
      exact le_trans hcall (Nat.le_of_eq hstep.gen.symm)
    | exchange start =>
      rw [hct] at hcall
      exact le_trans hcall (Nat.le_of_eq hstep.gen.symm)
    | bump stop start allows =>
      rw [hct] at hcall
      unfold State.CallInv
      rw [hstep.gen, hstep.allows, hstep.running, hstep.allow]
      exact hcall
    | wake stop start allows bump =>
      rw [hct] at hcall
      obtain ⟨hstart, hbump, hallows, hstop, hwake⟩ := hcall
      unfold State.CallInv
      rw [hstep.gen, hstep.allows, hstep.running, hstep.allow]
      refine ⟨hstart, hbump, hallows, fun h => ⟨(hstop h).1, fun hpast => ?_⟩,
        fun h heq => ⟨(hwake h heq).1, fun hpast => ?_⟩⟩
      · obtain hrunning | ⟨hpast, hg⟩ := hstep.pastRunning hpast
        · exact absurd hrunning (by rw [(hstop h).1]; simp)
        · exact hg ▸ (hstop h).2 hpast
      · obtain hallow | ⟨hpast, hg⟩ := hstep.pastAllow hpast
        · exact absurd hallow (by rw [(hwake h heq).1]; simp)
        · exact hg ▸ (hwake h heq).2 hpast
    | join start bump =>
      rw [hct] at hcall
      obtain ⟨hstart, hbump, hrunning, -, hpast⟩ := hcall
      unfold State.CallInv
      rw [hstep.gen, hstep.running]
      refine ⟨hstart, hbump, hrunning, hnew bump hbump hpast, fun h => ?_⟩
      obtain hr | ⟨h, hg⟩ := hstep.pastRunning h
      · exact absurd hr (by rw [hrunning]; simp)
      · exact hg ▸ hpast h
  · rw [hstep.returned] at hc
    obtain ⟨hallows, hbump, hreturned⟩ := hinv.returned c hc
    refine ⟨hstep.allows.symm ▸ hallows, hbump, fun k hk => ?_⟩
    obtain ⟨hstart, hgen, -, hstop, hwake⟩ := hreturned k hk
    rw [hstep.gen, hstep.allow, hstep.allows]
    refine ⟨hstart, hgen, fun hblocked => ?_, fun h => ?_, fun h heq => ?_⟩
    · obtain ⟨hwait, hword, hg⟩ := hstep.blocked hblocked
      rw [hg]
      refine le_trans hgen (not_lt.mp fun hlt => ?_)
      exact word_ne hlt (htime hwait) hword
    · exact (hstop h).elim (fun h => absurd h (hstep.alive true))
        fun h => absurd h (hstep.alive false)
    · obtain ⟨hallow, -, hpast⟩ := hwake h heq
      refine ⟨hallow, hnew k hgen fun h => hpast h.pastAllow, fun h => ?_⟩
      obtain ha | ⟨h, hg⟩ := hstep.pastAllow h
      · exact absurd ha (by rw [hallow]; simp)
      · exact hg ▸ hpast h

/-- What the other steps can do to the words and to the proxy. -/
structure HostStep (S S' : State) : Prop where
  gen : S.gen ≤ S'.gen
  allows : S.allows ≤ S'.allows
  allow : S'.allows = S.allows → S.allow = false → S'.allow = false
  running : S.running = false → S'.running = false
  g : S'.g = S.g
  writes : S'.writes = S.writes
  pc : S'.pc = S.pc ∨ S.pc = .blocked ∧ (S'.pc = .gen ∨ S'.pc = .timedOut)

namespace HostStep

theorem inPark (hstep : HostStep S S') (h : S.pc.InPark) : S'.pc.InPark := by
  obtain hpc | ⟨-, hpc | hpc⟩ := hstep.pc <;> rw [hpc]
  · exact h
  · trivial
  · trivial

theorem pastAllow (hstep : HostStep S S') (h : S'.pc.PastAllow) : S.pc.PastAllow := by
  obtain hpc | ⟨-, hpc | hpc⟩ := hstep.pc <;> rw [hpc] at h
  · exact h
  · exact absurd h id
  · exact absurd h id

theorem pastRunning (hstep : HostStep S S') (h : S'.pc.PastRunning) : S.pc.PastRunning := by
  obtain hpc | ⟨-, hpc | hpc⟩ := hstep.pc <;> rw [hpc] at h
  · exact h
  · exact absurd h id
  · exact absurd h id

theorem blocked (hstep : HostStep S S') (h : S'.pc = .blocked) : S.pc = .blocked := by
  obtain hpc | ⟨-, hpc | hpc⟩ := hstep.pc <;> rw [hpc] at h
  · exact h
  · cases h
  · cases h

theorem callInv (hstep : HostStep S S') {c : Call} (h : S.CallInv c) : S'.CallInv c := by
  cases c with
  | none => trivial
  | clear start => exact le_trans h hstep.gen
  | exchange start => exact le_trans h hstep.gen
  | bump stop start allows =>
    obtain ⟨hstart, hallows, hstop, hwake⟩ := h
    refine ⟨le_trans hstart hstep.gen, le_trans hallows hstep.allows,
      fun h => hstep.running (hstop h), fun h heq => ?_⟩
    have hsame := le_antisymm (heq ▸ hallows) hstep.allows
    exact hstep.allow hsame (hwake h (heq.trans hsame))
  | wake stop start allows bump =>
    obtain ⟨hstart, hbump, hallows, hstop, hwake⟩ := h
    refine ⟨hstart, le_trans hbump hstep.gen, le_trans hallows hstep.allows,
      fun h => ⟨hstep.running (hstop h).1, fun hpast => ?_⟩, fun h heq => ?_⟩
    · exact hstep.g.symm ▸ (hstop h).2 (hstep.pastRunning hpast)
    · have hsame := le_antisymm (heq ▸ hallows) hstep.allows
      obtain ⟨hallow, hold⟩ := hwake h (heq.trans hsame)
      exact ⟨hstep.allow hsame hallow, fun hpast => hstep.g.symm ▸ hold (hstep.pastAllow hpast)⟩
  | join start bump =>
    obtain ⟨hstart, hbump, hrunning, hblocked, hpast⟩ := h
    exact ⟨hstart, le_trans hbump hstep.gen, hstep.running hrunning,
      fun h => hblocked (hstep.blocked h),
      fun h => hstep.g.symm ▸ hpast (hstep.pastRunning h)⟩

theorem returnInv (hstep : HostStep S S') {c : Return} (h : S.ReturnInv c) : S'.ReturnInv c := by
  obtain ⟨hallows, hbump, hreturned⟩ := h
  refine ⟨le_trans hallows hstep.allows, hbump, fun k hk => ?_⟩
  obtain ⟨hstart, hgen, hblocked, hstop, hwake⟩ := hreturned k hk
  refine ⟨hstart, le_trans hgen hstep.gen, fun h => hstep.g.symm ▸ hblocked (hstep.blocked h),
    fun h => ?_, fun h heq => ?_⟩
  · obtain hpc | ⟨hpc, -⟩ := hstep.pc
    · exact hpc ▸ hstop h
    · exact absurd (hstop h) (by simp [hpc])
  · have hsame := le_antisymm (heq ▸ hallows) hstep.allows
    obtain ⟨hallow, hb, hpast⟩ := hwake h (heq.trans hsame)
    exact ⟨hstep.allow hsame hallow, fun h => hb (hstep.blocked h),
      fun h => hstep.g.symm ▸ hpast (hstep.pastAllow h)⟩

/-- A step of the engine or of its surroundings keeps the invariant, if what it
changes in a call or returns does. -/
theorem inv (hstep : HostStep S S') (hinv : Inv S)
    (hcall : ∀ t, S'.call t = S.call t ∨ S'.CallInv (S'.call t))
    (hreturned : ∀ c ∈ S'.returned, c ∈ S.returned ∨ S'.ReturnInv c) : Inv S' := by
  refine ⟨?_, fun h => ?_, fun t => ?_, fun c hc => ?_⟩
  · rw [hstep.g]
    exact le_trans hinv.g_le hstep.gen
  · rw [hstep.writes]
    refine hinv.writes ?_
    obtain hpc | ⟨hpc, -⟩ := hstep.pc
    · exact hpc ▸ h
    · exact hpc ▸ trivial
  · obtain h | h := hcall t
    · exact h ▸ hstep.callInv (hinv.call t)
    · exact h
  · exact (hreturned c hc).elim (fun h => hstep.returnInv (hinv.returned c h)) id

end HostStep

/-- A thread changes only its own call. -/
theorem call_update {t : ℕ} {c : Call} (h : S'.CallInv c)
    (hcall : S'.call = Function.update S.call t c) (u : ℕ) :
    S'.call u = S.call u ∨ S'.CallInv (S'.call u) := by
  rw [hcall]
  by_cases hu : u = t
  · subst hu
    rw [Function.update_self]
    exact .inr h
  · exact .inl (Function.update_of_ne hu ..)

theorem wakeup_pc (pc : Pc) : pc.wakeup = pc ∨ pc = .blocked ∧ (pc.wakeup = .gen ∨
    pc.wakeup = .timedOut) := by
  cases pc <;> first | exact .inl rfl | exact .inr ⟨rfl, .inl rfl⟩

theorem wakeup_ne (pc : Pc) : pc.wakeup ≠ .blocked := by
  cases pc <;> simp [Pc.wakeup]

theorem wakeup_pastAllow {pc : Pc} (h : pc.wakeup.PastAllow) : pc.PastAllow := by
  cases pc <;> first | exact h | exact absurd h id

theorem wakeup_pastRunning {pc : Pc} (h : pc.wakeup.PastRunning) : pc.PastRunning := by
  cases pc <;> first | exact h | exact absurd h id

/-- A step of a call of the engine. -/
theorem Inv.engine (hinv : Inv S) {t : ℕ} (h : S.engine t = some S') :
    HostStep S S' ∧ Inv S' := by
  have hcall := hinv.call t
  unfold State.engine at h
  split at h <;> rename_i hct <;> rw [hct] at hcall
  · cases h
  · rename_i start
    obtain rfl := Option.some.inj h
    have hstep : HostStep S { S with
        allow := false, call := Function.update S.call t (.bump false start S.allows) } :=
      ⟨le_rfl, le_rfl, fun _ _ => rfl, id, rfl, rfl, .inl rfl⟩
    refine ⟨hstep, hstep.inv hinv (call_update (t := t) ?_ rfl) fun c hc => .inl hc⟩
    exact ⟨hcall, le_rfl, fun h => Bool.noConfusion h, fun _ _ => rfl⟩
  · rename_i start
    split at h
    · obtain rfl := Option.some.inj h
      have hstep : HostStep S { S with
          running := false, call := Function.update S.call t (.bump true start S.allows) } :=
        ⟨le_rfl, le_rfl, fun _ => id, fun _ => rfl, rfl, rfl, .inl rfl⟩
      refine ⟨hstep, hstep.inv hinv (call_update (t := t) ?_ rfl) fun c hc => .inl hc⟩
      exact ⟨hcall, le_rfl, fun _ => rfl, fun h => Bool.noConfusion h⟩
    · obtain rfl := Option.some.inj h
      have hstep : HostStep S { S with
          call := Function.update S.call t .none
          returned := ⟨true, start, S.allows, none⟩ :: S.returned } :=
        ⟨le_rfl, le_rfl, fun _ => id, id, rfl, rfl, .inl rfl⟩
      refine ⟨hstep, hstep.inv hinv (call_update (t := t) (c := .none) trivial rfl) fun c hc => ?_⟩
      obtain rfl | hc := List.mem_cons.mp hc
      · exact .inr ⟨le_rfl, fun h => Bool.noConfusion h, fun k hk => by cases hk⟩
      · exact .inl hc
  · rename_i stop start allows
    obtain rfl := Option.some.inj h
    obtain ⟨hstart, hallows, hstop, hwake⟩ := hcall
    have hstep : HostStep S { S with
        gen := S.gen + 1, call := Function.update S.call t (.wake stop start allows (S.gen + 1)) } :=
      ⟨Nat.le_succ _, le_rfl, fun _ => id, id, rfl, rfl, .inl rfl⟩
    refine ⟨hstep, hstep.inv hinv (call_update (t := t) ?_ rfl) fun c hc => .inl hc⟩
    have hg : S.g < S.gen + 1 := Nat.lt_succ_of_le hinv.g_le
    exact ⟨Nat.lt_succ_of_le hstart, le_rfl, hallows, fun h => ⟨hstop h, fun _ => hg⟩,
      fun h heq => ⟨hwake h heq, fun _ => hg⟩⟩
  · rename_i stop start allows bump
    obtain ⟨hstart, hbump, hallows, hstop, hwake⟩ := hcall
    split at h
    · rename_i hs
      obtain rfl := Option.some.inj h
      have hstep : HostStep S { S with
          pc := S.pc.wakeup, call := Function.update S.call t (.join start bump) } :=
        ⟨le_rfl, le_rfl, fun _ => id, id, rfl, rfl, wakeup_pc S.pc⟩
      refine ⟨hstep, hstep.inv hinv (call_update (t := t) ?_ rfl) fun c hc => .inl hc⟩
      exact ⟨hstart, hbump, (hstop hs).1, wakeup_ne S.pc,
        fun h => (hstop hs).2 (wakeup_pastRunning h)⟩
    · rename_i hs
      obtain rfl := Option.some.inj h
      have hstep : HostStep S { S with
          pc := S.pc.wakeup
          call := Function.update S.call t .none
          returned := ⟨false, start, allows, some bump⟩ :: S.returned } :=
        ⟨le_rfl, le_rfl, fun _ => id, id, rfl, rfl, wakeup_pc S.pc⟩
      refine ⟨hstep, hstep.inv hinv (call_update (t := t) (c := .none) trivial rfl) fun c hc => ?_⟩
      obtain rfl | hc := List.mem_cons.mp hc
      · refine .inr ⟨hallows, fun _ => rfl, fun k hk => ?_⟩
        obtain rfl := Option.some.inj hk
        refine ⟨hstart, hbump, fun h => absurd h (wakeup_ne S.pc), fun h => Bool.noConfusion h,
          fun _ heq => ?_⟩
        obtain ⟨hallow, hpast⟩ := hwake (Bool.eq_false_iff.mpr hs) heq
        exact ⟨hallow, wakeup_ne S.pc, fun h => hpast (wakeup_pastAllow h)⟩
      · exact .inl hc
  · rename_i start bump
    obtain ⟨hstart, hbump, -⟩ := hcall
    obtain ⟨hexited, h⟩ := Option.ite_none_right_eq_some.mp h
    obtain rfl := Option.some.inj h
    have hstep : HostStep S { S with
        call := Function.update S.call t .none
        returned := ⟨true, start, S.allows, some bump⟩ :: S.returned } :=
      ⟨le_rfl, le_rfl, fun _ => id, id, rfl, rfl, .inl rfl⟩
    refine ⟨hstep, hstep.inv hinv (call_update (t := t) (c := .none) trivial rfl) fun c hc => ?_⟩
    obtain rfl | hc := List.mem_cons.mp hc
    · refine .inr ⟨le_rfl, fun _ => rfl, fun k hk => ?_⟩
      obtain rfl := Option.some.inj hk
      refine ⟨hstart, hbump, fun h => ?_, fun _ => hexited, fun h => Bool.noConfusion h⟩
      exact absurd hexited (by simp [show S.pc = .blocked from h])
    · exact .inl hc

/-- A step that changes no call. -/
theorem HostStep.inv_same (hstep : HostStep S S') (hinv : Inv S) (hcall : S'.call = S.call)
    (hreturned : S'.returned = S.returned) : Inv S' :=
  hstep.inv hinv (fun t => .inl (congrFun hcall t)) fun _ hc => .inl (hreturned ▸ hc)

/-- **The steps**: one of the proxy, or one of the others. -/
theorem step_cases {a : Action} (hinv : Inv S) (h : step S a = some S') :
    (∃ now ok n, a = .proxy now ok n ∧ S.proxy now ok n = some S') ∨
      ¬a.IsProxy ∧ HostStep S S' ∧ Inv S' ∧ S'.returns = S.returns ∧
        (S'.seq = S.seq ∨ S'.seq ≠ S.lastSeq) ∧ S'.lastSeq = S.lastSeq ∧
          (a ≠ .allow → S'.allows = S.allows) := by
  cases a with
  | configure after =>
    obtain rfl := Option.some.inj h
    have hstep : HostStep S { S with after := after } :=
      ⟨le_rfl, le_rfl, fun _ => id, id, rfl, rfl, .inl rfl⟩
    exact .inr ⟨id, hstep, hstep.inv_same hinv rfl rfl, rfl, .inl rfl, rfl, fun _ => rfl⟩
  | allow =>
    obtain rfl := Option.some.inj h
    have hstep : HostStep S { S with allow := true, allows := S.allows + 1 } :=
      ⟨le_rfl, Nat.le_succ _, fun h => absurd h (Nat.succ_ne_self _), id, rfl, rfl, .inl rfl⟩
    exact .inr ⟨id, hstep, hstep.inv_same hinv rfl rfl, rfl, .inl rfl, rfl, fun h => absurd rfl h⟩
  | callWake t =>
    simp only [step] at h
    split at h
    · obtain rfl := Option.some.inj h
      have hstep : HostStep S { S with call := Function.update S.call t (.clear S.gen) } :=
        ⟨le_rfl, le_rfl, fun _ => id, id, rfl, rfl, .inl rfl⟩
      have hcall : State.CallInv { S with call := Function.update S.call t (.clear S.gen) }
          (.clear S.gen) := le_refl S.gen
      exact .inr ⟨id, hstep, hstep.inv hinv (call_update (t := t) hcall rfl)
        fun c hc => .inl hc, rfl, .inl rfl, rfl, fun _ => rfl⟩
    · cases h
  | callStop t =>
    simp only [step] at h
    split at h
    · obtain rfl := Option.some.inj h
      have hstep : HostStep S { S with call := Function.update S.call t (.exchange S.gen) } :=
        ⟨le_rfl, le_rfl, fun _ => id, id, rfl, rfl, .inl rfl⟩
      have hcall : State.CallInv { S with call := Function.update S.call t (.exchange S.gen) }
          (.exchange S.gen) := le_refl S.gen
      exact .inr ⟨id, hstep, hstep.inv hinv (call_update (t := t) hcall rfl)
        fun c hc => .inl hc, rfl, .inl rfl, rfl, fun _ => rfl⟩
    · cases h
  | engine t =>
    obtain ⟨hstep, hinv'⟩ := hinv.engine h
    refine .inr ⟨id, hstep, hinv', ?_⟩
    replace h : S.engine t = some S' := h
    unfold State.engine at h
    split at h
    · cases h
    · obtain rfl := Option.some.inj h
      exact ⟨rfl, .inl rfl, rfl, fun _ => rfl⟩
    · split at h <;> obtain rfl := Option.some.inj h <;> exact ⟨rfl, .inl rfl, rfl, fun _ => rfl⟩
    · obtain rfl := Option.some.inj h
      exact ⟨rfl, .inl rfl, rfl, fun _ => rfl⟩
    · split at h <;> obtain rfl := Option.some.inj h <;> exact ⟨rfl, .inl rfl, rfl, fun _ => rfl⟩
    · obtain ⟨-, h⟩ := Option.ite_none_right_eq_some.mp h
      obtain rfl := Option.some.inj h
      exact ⟨rfl, .inl rfl, rfl, fun _ => rfl⟩
  | ring =>
    obtain ⟨hne, h⟩ := Option.ite_none_right_eq_some.mp h
    obtain rfl := Option.some.inj h
    have hstep : HostStep S { S with seq := S.seq + 1 } :=
      ⟨le_rfl, le_rfl, fun _ => id, id, rfl, rfl, .inl rfl⟩
    exact .inr ⟨id, hstep, hstep.inv_same hinv rfl rfl, rfl, .inr hne, rfl, fun _ => rfl⟩
  | proxy now ok n => exact .inl ⟨now, ok, n, rfl, h⟩
  | timeout =>
    obtain ⟨hpc, h⟩ := Option.ite_none_right_eq_some.mp h
    obtain rfl := Option.some.inj h
    have hstep : HostStep S { S with pc := .timedOut } :=
      ⟨le_rfl, le_rfl, fun _ => id, id, rfl, rfl, .inr ⟨hpc, .inr rfl⟩⟩
    exact .inr ⟨id, hstep, hstep.inv_same hinv rfl rfl, rfl, .inl rfl, rfl, fun _ => rfl⟩
  | signal =>
    obtain ⟨hpc, h⟩ := Option.ite_none_right_eq_some.mp h
    obtain rfl := Option.some.inj h
    have hstep : HostStep S { S with pc := .gen } :=
      ⟨le_rfl, le_rfl, fun _ => id, id, rfl, rfl, .inr ⟨hpc, .inl rfl⟩⟩
    exact .inr ⟨id, hstep, hstep.inv_same hinv rfl rfl, rfl, .inl rfl, rfl, fun _ => rfl⟩

theorem Inv.step {a : Action} (hinv : Inv S) (htime : InTime S a) (h : step S a = some S') :
    Inv S' := by
  obtain ⟨now, ok, n, rfl, hproxy⟩ | ⟨-, -, hinv', -⟩ := step_cases hinv h
  · exact hinv.proxy (proxyStep hproxy) htime
  · exact hinv'

theorem Inv.reachable (hinv : Inv S) (h : Reachable S S') : Inv S' :=
  h.invariant Inv hinv fun _ _ _ hinv htime hstep => hinv.step htime hstep

end Step

/-! ## Leaving -/

section Leave

variable {S : State}

/-- The returns of `roce_park_block` are counted up. -/
theorem returns_le {S' : State} (hinv : Inv S) {as : List Action}
    (hallowed : Transition.AllowedRun step InTime S as)
    (hrun : Transition.run step S as = some S') : S.returns ≤ S'.returns := by
  induction as generalizing S with
  | nil => exact Nat.le_of_eq (congrArg State.returns (Option.some.inj hrun))
  | cons a as ih =>
    obtain ⟨S₁, hS₁, hrun⟩ := Option.bind_eq_some_iff.mp hrun
    refine le_trans ?_ (ih (hinv.step hallowed.1 hS₁) (hallowed.2 S₁ hS₁) hrun)
    obtain ⟨now, ok, n, -, hproxy⟩ | ⟨-, -, -, hreturns, -⟩ := step_cases hinv hS₁
    · exact (proxyStep hproxy).returns
    · exact Nat.le_of_eq hreturns.symm

/-- **The rank rule.** A condition under which the proxy does not block, which the
allowed steps keep until it returns from `roce_park_block`, and under which each of
its own steps lowers the rank of its position, makes it return. -/
theorem leavesWithin_of_rank {ok : Action → Prop} (Q : State → Prop) (rank : Pc → ℕ)
    (hpos : ∀ S, Q S → 0 < rank S.pc ∧ S.pc ≠ .blocked)
    (hstep : ∀ S a S', Inv S → Q S → InTime S a → ok a → step S a = some S' →
      S.returns < S'.returns ∨ S'.returns = S.returns ∧ Q S' ∧
        rank S'.pc + (if a.IsProxy then 1 else 0) ≤ rank S.pc)
    (hinv : Inv S) (hQ : Q S) : LeavesWithin ok (rank S.pc) S := by
  intro as S' hrun hallowed
  induction as generalizing S with
  | nil =>
    obtain rfl := Option.some.inj hrun
    exact .inr ⟨(hpos S hQ).2, (hpos S hQ).1⟩
  | cons a as ih =>
    obtain ⟨S₁, hS₁, hrun⟩ := Option.bind_eq_some_iff.mp hrun
    have hinv₁ := hinv.step hallowed.1.1 hS₁
    obtain hlt | ⟨heq, hQ₁, hrank⟩ := hstep S a S₁ hinv hQ hallowed.1.1 hallowed.1.2 hS₁
    · have hallowed₁ := (hallowed.2 S₁ hS₁).mono fun _ _ h => h.1
      exact .inl (lt_of_lt_of_le hlt (returns_le hinv₁ hallowed₁ hrun))
    · obtain h | ⟨hb, hcount⟩ := ih hinv₁ hQ₁ hrun (hallowed.2 S₁ hS₁)
      · exact .inl (heq ▸ h)
      · refine .inr ⟨hb, ?_⟩
        rw [List.countP_cons]
        simp only [decide_eq_true_eq]
        omega

/-- The steps of the others leave the position of a proxy that is not blocked. -/
theorem HostStep.pc_eq {S' : State} (hstep : HostStep S S') (hpc : S.pc ≠ .blocked) :
    S'.pc = S.pc :=
  hstep.pc.resolve_right fun h => hpc h.1

/-- The steps of the proxy in `roce_park_block` that do not return from it. -/
inductive Edge (S : State) : Pc → Pc → Prop
  | enter : Edge S .enter .gen0
  | gen0 : Edge S .gen0 .gen
  | gen : Edge S .gen .allow
  | allowed (h : S.allow = true) : Edge S .allow .doorbell
  | woken (h : S.allow = false) : Edge S .allow (.leave .woken)
  | quiet (h : S.seq = S.lastSeq) : Edge S .doorbell .running
  | rung (h : S.seq ≠ S.lastSeq) : Edge S .doorbell .gen1
  | gen1 (why : Why) : Edge S .gen1 (.leave why)
  | running (h : S.running = true) : Edge S .running .wait
  | stopped (h : S.running = false) : Edge S .running (.leave .stopped)
  | wait (h : word S.gen = word S.g) : Edge S .wait .blocked
  | again (h : word S.gen ≠ word S.g) : Edge S .wait .gen
  | timedOut : Edge S .timedOut .gen

theorem Edge.inPark {pc pc' : Pc} (h : Edge S pc pc') : pc'.InPark := by
  cases h <;> trivial

/-- **The steps in the park**: the proxy returns, or takes one of the edges. -/
theorem park_cases {S' : State} {now : UInt64} {ok : Bool} {n : ℕ} (hpark : S.pc.InPark)
    (h : S.proxy now ok n = some S') :
    S.returns < S'.returns ∨
      S'.returns = S.returns ∧ S'.lastSeq = S.lastSeq ∧ Edge S S.pc S'.pc := by
  unfold State.proxy at h
  split at h <;> rename_i hpc <;> rw [hpc] at hpark ⊢
  · exact absurd hpark id
  · exact absurd hpark id
  · exact absurd hpark id
  · exact absurd hpark id
  · exact absurd hpark id
  · exact absurd hpark id
  · obtain rfl := Option.some.inj h
    exact .inr ⟨rfl, rfl, .enter⟩
  · obtain rfl := Option.some.inj h
    exact .inr ⟨rfl, rfl, .gen0⟩
  · obtain rfl := Option.some.inj h
    exact .inr ⟨rfl, rfl, .gen⟩
  · obtain rfl := Option.some.inj h
    refine .inr ⟨rfl, rfl, ?_⟩
    split
    · exact .allowed ‹_›
    · exact .woken (Bool.eq_false_iff.mpr ‹_›)
  · obtain rfl := Option.some.inj h
    refine .inr ⟨rfl, rfl, ?_⟩
    split
    · exact .quiet ‹_›
    · exact .rung ‹_›
  · obtain rfl := Option.some.inj h
    refine .inr ⟨rfl, rfl, ?_⟩
    split <;> exact .gen1 _
  · obtain rfl := Option.some.inj h
    refine .inr ⟨rfl, rfl, ?_⟩
    split
    · exact .running ‹_›
    · exact .stopped (Bool.eq_false_iff.mpr ‹_›)
  · obtain rfl := Option.some.inj h
    refine .inr ⟨rfl, rfl, ?_⟩
    split
    · exact .wait ‹_›
    · exact .again ‹_›
  · cases h
  · split at h <;> obtain rfl := Option.some.inj h
    · exact .inr ⟨rfl, rfl, .timedOut⟩
    · exact .inl (Nat.lt_succ_self _)
  · split at h <;> obtain rfl := Option.some.inj h <;> exact .inl (Nat.lt_succ_self _)
  · cases h

/-- How far the proxy is from leaving when `allow` is clear. -/
def wakeRank : Pc → ℕ
  | .doorbell => 6
  | .enter | .running => 5
  | .gen0 | .wait | .timedOut => 4
  | .gen => 3
  | .allow | .gen1 => 2
  | .leave _ => 1
  | _ => 0

/-- How far the proxy is from leaving when it does not come to wait. -/
def leaveRank : Pc → ℕ
  | .enter => 7
  | .gen0 | .wait | .timedOut => 6
  | .gen => 5
  | .allow => 4
  | .doorbell => 3
  | .gen1 | .running => 2
  | .leave _ => 1
  | _ => 0

theorem wakeRank_pos {pc : Pc} (hpc : pc.InPark) (hb : pc ≠ .blocked) : 0 < wakeRank pc := by
  cases pc <;> first | exact absurd hpc id | exact absurd rfl hb | exact Nat.succ_pos _

theorem leaveRank_pos {pc : Pc} (hpc : pc.InPark) (hb : pc ≠ .blocked) : 0 < leaveRank pc := by
  cases pc <;> first | exact absurd hpc id | exact absurd rfl hb | exact Nat.succ_pos _

theorem wakeRank_le {pc : Pc} : wakeRank pc ≤ 6 := by
  cases pc <;> exact Nat.le_of_ble_eq_true rfl

theorem leaveRank_le {pc : Pc} : leaveRank pc ≤ 7 := by
  cases pc <;> exact Nat.le_of_ble_eq_true rfl

theorem Edge.wakeRank {pc pc' : Pc} (h : Edge S pc pc') (hallow : S.allow = false)
    (hb : pc' ≠ .blocked) : wakeRank pc' + 1 ≤ wakeRank pc := by
  cases h with
  | allowed h => exact absurd h (by rw [hallow]; simp)
  | wait h => exact absurd rfl hb
  | gen1 why => exact le_rfl
  | _ => decide

theorem Edge.leaveRank {pc pc' : Pc} (h : Edge S pc pc') (hb : pc' ≠ .blocked)
    (hwait : pc' ≠ .wait) : leaveRank pc' + 1 ≤ leaveRank pc := by
  cases h with
  | running h => exact absurd rfl hwait
  | wait h => exact absurd rfl hb
  | gen1 why => exact le_rfl
  | _ => decide

/-- `allow` is clear, and a generation with which the proxy has found it set is
older than the bump `k`. -/
structure Woken (k : ℕ) (S : State) : Prop where
  park : S.pc.InPark
  notBlocked : S.pc ≠ .blocked
  allow : S.allow = false
  gen : k ≤ S.gen
  past : S.pc.PastAllow → S.g < k

/-- `running` is clear, and a generation with which the proxy has found it set is
older than the bump `k`. -/
structure Stopping (k : ℕ) (S : State) : Prop where
  park : S.pc.InPark
  notBlocked : S.pc ≠ .blocked
  running : S.running = false
  gen : k ≤ S.gen
  past : S.pc.PastRunning → S.g < k

/-- A doorbell has rung that the proxy has still to look for. -/
structure Ringing (S : State) : Prop where
  park : S.pc.InPark
  past : ¬S.pc.PastRunning ∧ S.pc ≠ .running
  seq : S.seq ≠ S.lastSeq

variable {S' : State} {a : Action}

/-- A proxy that has loaded a generation older than the newest does not block. -/
theorem ProxyStep.not_blocked {k : ℕ} (hstep : ProxyStep S S') (hgen : k ≤ S.gen)
    (htime : S.pc = .wait → S.gen < S.g + 2 ^ 32) (hold : S.pc = .wait → S.g < k) :
    S'.pc ≠ .blocked := fun h => by
  obtain ⟨hwait, hword, -⟩ := hstep.blocked h
  exact word_ne (lt_of_lt_of_le (hold hwait) hgen) (htime hwait) hword

theorem Woken.step {k : ℕ} (hinv : Inv S) (hQ : Woken k S) (htime : InTime S a)
    (ha : a ≠ .allow) (h : step S a = some S') :
    S.returns < S'.returns ∨ S'.returns = S.returns ∧ Woken k S' ∧
      wakeRank S'.pc + (if a.IsProxy then 1 else 0) ≤ wakeRank S.pc := by
  obtain ⟨hpark, hb, hallow, hgen, hpast⟩ := hQ
  obtain ⟨now, ok, n, rfl, hproxy⟩ | ⟨hnot, hstep, -, hreturns, -, -, hallows⟩ := step_cases hinv h
  · have hstep := proxyStep hproxy
    obtain hlt | ⟨hreturns, -, hedge⟩ := park_cases hpark hproxy
    · exact .inl hlt
    have hb' : S'.pc ≠ .blocked :=
      hstep.not_blocked hgen htime fun hwait => hpast (hwait ▸ trivial)
    refine .inr ⟨hreturns, ⟨hedge.inPark, hb', hstep.allow.trans hallow,
      le_trans hgen (Nat.le_of_eq hstep.gen.symm), fun h => ?_⟩, hedge.wakeRank hallow hb'⟩
    obtain hset | ⟨hp, hg⟩ := hstep.pastAllow h
    · exact absurd hset (by rw [hallow]; simp)
    · exact hg ▸ hpast hp
  · have hpc := hstep.pc_eq hb
    rw [if_neg hnot]
    refine .inr ⟨hreturns, ⟨hpc ▸ hpark, hpc ▸ hb, hstep.allow (hallows ha) hallow,
      le_trans hgen hstep.gen, fun h => ?_⟩, by rw [hpc]; exact le_rfl⟩
    rw [hstep.g]
    exact hpast (hpc ▸ h)

theorem Stopping.step {k : ℕ} (hinv : Inv S) (hQ : Stopping k S) (htime : InTime S a)
    (h : step S a = some S') :
    S.returns < S'.returns ∨ S'.returns = S.returns ∧ Stopping k S' ∧
      leaveRank S'.pc + (if a.IsProxy then 1 else 0) ≤ leaveRank S.pc := by
  obtain ⟨hpark, hb, hrunning, hgen, hpast⟩ := hQ
  obtain ⟨now, ok, n, rfl, hproxy⟩ | ⟨hnot, hstep, -, hreturns, -⟩ := step_cases hinv h
  · have hstep := proxyStep hproxy
    obtain hlt | ⟨hreturns, -, hedge⟩ := park_cases hpark hproxy
    · exact .inl hlt
    have hb' : S'.pc ≠ .blocked :=
      hstep.not_blocked hgen htime fun hwait => hpast (hwait ▸ trivial)
    have hpast' : S'.pc.PastRunning → S.pc.PastRunning ∧ S'.g = S.g := fun h =>
      (hstep.pastRunning h).resolve_left (by rw [hrunning]; simp)
    have hwait : S'.pc ≠ .wait := fun h => by
      obtain ⟨hp, -⟩ := hpast' (h ▸ trivial)
      rw [h] at hedge
      generalize S.pc = pc at hedge hp
      cases hedge
      exact absurd hp id
    refine .inr ⟨hreturns, ⟨hedge.inPark, hb', hstep.running.trans hrunning,
      le_trans hgen (Nat.le_of_eq hstep.gen.symm), fun h => ?_⟩, hedge.leaveRank hb' hwait⟩
    obtain ⟨hp, hg⟩ := hpast' h
    exact hg ▸ hpast hp
  · have hpc := hstep.pc_eq hb
    rw [if_neg hnot]
    refine .inr ⟨hreturns, ⟨hpc ▸ hpark, hpc ▸ hb, hstep.running hrunning,
      le_trans hgen hstep.gen, fun h => ?_⟩, by rw [hpc]; exact le_rfl⟩
    rw [hstep.g]
    exact hpast (hpc ▸ h)

theorem Edge.ringing {pc pc' : Pc} (h : Edge S pc pc') (hpast : ¬pc.PastRunning ∧ pc ≠ .running)
    (hseq : S.seq ≠ S.lastSeq) : ¬pc'.PastRunning ∧ pc' ≠ .running := by
  cases h with
  | quiet h => exact absurd h hseq
  | running h => exact absurd rfl hpast.2
  | wait h => exact absurd trivial hpast.1
  | _ => exact ⟨id, nofun⟩

theorem Ringing.step (hinv : Inv S) (hQ : Ringing S) (h : step S a = some S') :
    S.returns < S'.returns ∨ S'.returns = S.returns ∧ Ringing S' ∧
      leaveRank S'.pc + (if a.IsProxy then 1 else 0) ≤ leaveRank S.pc := by
  obtain ⟨hpark, hpast, hseq⟩ := hQ
  obtain ⟨now, ok, n, rfl, hproxy⟩ | ⟨hnot, hstep, -, hreturns, hseq', hlast, -⟩ :=
    step_cases hinv h
  · obtain hlt | ⟨hreturns, hlast, hedge⟩ := park_cases hpark hproxy
    · exact .inl hlt
    have hpast' := hedge.ringing hpast hseq
    refine .inr ⟨hreturns, ⟨hedge.inPark, hpast', ?_⟩, hedge.leaveRank
      (fun h => hpast'.1 (h ▸ trivial)) fun h => hpast'.1 (h ▸ trivial)⟩
    rw [(proxyStep hproxy).seq, hlast]
    exact hseq
  · have hpc := hstep.pc_eq fun h => hpast.1 (h ▸ trivial)
    rw [if_neg hnot]
    refine .inr ⟨hreturns, ⟨hpc ▸ hpark, hpc ▸ hpast, ?_⟩, by rw [hpc]; exact le_rfl⟩
    rw [hlast]
    exact hseq'.elim (fun h => h ▸ hseq) id

/-- What the parked proxy has to look for stays until it returns. -/
theorem Rung.step (hinv : Inv S) (hQ : S.pc.InPark ∧ S.seq ≠ S.lastSeq) (h : step S a = some S') :
    S.returns < S'.returns ∨
      S'.returns = S.returns ∧ S'.pc.InPark ∧ S'.seq ≠ S'.lastSeq := by
  obtain ⟨hpark, hseq⟩ := hQ
  obtain ⟨now, ok, n, rfl, hproxy⟩ | ⟨-, hstep, -, hreturns, hseq', hlast, -⟩ := step_cases hinv h
  · obtain hlt | ⟨hreturns, hlast, hedge⟩ := park_cases hpark hproxy
    · exact .inl hlt
    rw [(proxyStep hproxy).seq, hlast]
    exact .inr ⟨hreturns, hedge.inPark, hseq⟩
  · refine .inr ⟨hreturns, hstep.inPark hpark, ?_⟩
    rw [hlast]
    exact hseq'.elim (fun h => h ▸ hseq) id

end Leave

/-! ## The guarantees -/

/-- What holds of the idle park in every state.

A blocked proxy has loaded its generation after every call that has returned from
a bump began. A `roce_park_wake` with no `roce_park_allow` after it has left
`allow` clear, and the proxy either out of the park or on its way out of it; so
has the `roce_stop` that stops the proxy before it waits for its end. A doorbell
that has rung takes the proxy out of the park at the next time limit. -/
structure Guarantees (S : State) : Prop where
  fresh : S.pc = .blocked → ∀ c ∈ S.returned, c.bump.isSome → c.start < S.g
  wake : ∀ c ∈ S.returned, c.stop = false → c.allows = S.allows →
    S.allow = false ∧ S.pc ≠ .blocked ∧ (S.pc.InPark → LeavesWithin (· ≠ .allow) 6 S)
  stop : ∀ t start bump, S.call t = .join start bump →
    S.pc ≠ .blocked ∧ (S.pc.InPark → LeavesWithin (fun _ => True) 7 S)
  stopped : ∀ c ∈ S.returned, c.stop = true → c.bump.isSome →
    S.pc = .exited true ∨ S.pc = .exited false
  doorbell : S.pc.InPark → S.seq ≠ S.lastSeq → ∀ as S', Transition.run step S as = some S' →
    Transition.AllowedRun step InTime S as →
      S.returns < S'.returns ∨ (S'.pc = .timedOut → LeavesWithin (fun _ => True) 6 S')
  writes : S.pc.InPark → S.writes = 0

section Guarantees

variable {S : State}

theorem LeavesWithin.mono {ok : Action → Prop} {n m : ℕ} (h : LeavesWithin ok n S) (hle : n ≤ m) :
    LeavesWithin ok m S := fun as S' hrun hallowed =>
  (h as S' hrun hallowed).imp id fun h => ⟨h.1, lt_of_lt_of_le h.2 hle⟩

theorem Woken.leaves {k : ℕ} (hinv : Inv S) (hQ : Woken k S) : LeavesWithin (· ≠ .allow) 6 S :=
  (leavesWithin_of_rank (Woken k) wakeRank
    (fun _ hQ => ⟨wakeRank_pos hQ.park hQ.notBlocked, hQ.notBlocked⟩)
    (fun _ _ _ hinv hQ htime ha h => hQ.step hinv htime ha h) hinv hQ).mono wakeRank_le

theorem Stopping.leaves {k : ℕ} (hinv : Inv S) (hQ : Stopping k S) :
    LeavesWithin (fun _ => True) 7 S :=
  (leavesWithin_of_rank (Stopping k) leaveRank
    (fun _ hQ => ⟨leaveRank_pos hQ.park hQ.notBlocked, hQ.notBlocked⟩)
    (fun _ _ _ hinv hQ htime _ h => hQ.step hinv htime h) hinv hQ).mono leaveRank_le

theorem Ringing.leaves (hinv : Inv S) (hQ : Ringing S) :
    LeavesWithin (fun _ => True) (leaveRank S.pc) S :=
  leavesWithin_of_rank Ringing leaveRank
    (fun S hQ => by
      have hb : S.pc ≠ .blocked := fun h => hQ.past.1 (h ▸ trivial)
      exact ⟨leaveRank_pos hQ.park hb, hb⟩)
    (fun _ _ _ hinv hQ _ _ h => hQ.step hinv h) hinv hQ

/-- A proxy whose doorbell rang leaves the park at the next time limit. -/
theorem doorbell_leaves (hinv : Inv S) (hpark : S.pc.InPark) (hseq : S.seq ≠ S.lastSeq)
    {as : List Action} {S' : State} (hrun : Transition.run step S as = some S')
    (hallowed : Transition.AllowedRun step InTime S as) :
    S.returns < S'.returns ∨ (S'.pc = .timedOut → LeavesWithin (fun _ => True) 6 S') := by
  have hrung : S.returns < S'.returns ∨ S'.pc.InPark ∧ S'.seq ≠ S'.lastSeq := by
    induction as generalizing S with
    | nil =>
      obtain rfl := Option.some.inj hrun
      exact .inr ⟨hpark, hseq⟩
    | cons a as ih =>
      obtain ⟨S₁, hS₁, hrun⟩ := Option.bind_eq_some_iff.mp hrun
      have hinv₁ := hinv.step hallowed.1 hS₁
      obtain hlt | ⟨heq, hpark, hseq⟩ := Rung.step hinv ⟨hpark, hseq⟩ hS₁
      · exact .inl (lt_of_lt_of_le hlt (returns_le hinv₁ (hallowed.2 S₁ hS₁) hrun))
      · exact heq ▸ ih hinv₁ hpark hseq hrun (hallowed.2 S₁ hS₁)
  refine hrung.imp id fun ⟨hpark, hseq⟩ hpc => ?_
  have hQ : Ringing S' := ⟨hpark, by rw [hpc]; exact ⟨id, nofun⟩, hseq⟩
  have hleaves := hQ.leaves (hinv.reachable (.of_run hrun hallowed))
  rwa [hpc] at hleaves

theorem Inv.guarantees (hinv : Inv S) : Guarantees S where
  fresh hpc c hc hk := by
    obtain ⟨k, hk⟩ := Option.isSome_iff_exists.mp hk
    obtain ⟨hstart, -, hg, -⟩ := (hinv.returned c hc).2.2 k hk
    exact lt_of_lt_of_le hstart (hg hpc)
  wake c hc hstop hallows := by
    obtain ⟨k, hk⟩ : ∃ k, c.bump = some k := Option.isSome_iff_exists.mp ((hinv.returned c hc).2.1 hstop)
    obtain ⟨-, hgen, -, -, hwake⟩ := (hinv.returned c hc).2.2 k hk
    obtain ⟨hallow, hb, hpast⟩ := hwake hstop hallows
    exact ⟨hallow, hb, fun hpark => Woken.leaves hinv ⟨hpark, hb, hallow, hgen, hpast⟩⟩
  stop t start bump hcall := by
    have h := hinv.call t
    rw [hcall] at h
    obtain ⟨-, hgen, hrunning, hb, hpast⟩ := h
    exact ⟨hb, fun hpark => Stopping.leaves hinv ⟨hpark, hb, hrunning, hgen, hpast⟩⟩
  stopped c hc hstop hk := by
    obtain ⟨k, hk⟩ := Option.isSome_iff_exists.mp hk
    exact ((hinv.returned c hc).2.2 k hk).2.2.2.1 hstop
  doorbell hpark hseq as S' hrun hallowed := doorbell_leaves hinv hpark hseq hrun hallowed
  writes := hinv.writes

end Guarantees

/-- **The idle park loses no wakeup**, in any interleaving of the calls of the engine
with the proxy; and the hooks of the scheduler leave no mark when `run_batch` runs. -/
theorem idle_park :
    (∀ S, Reachable .start S → Guarantees S) ∧
      ∀ H, Hooks.Reachable .start H → H.at_ = .running → ∀ r, H.word r ≠ some true :=
  ⟨fun _ h => (Inv.start.reachable h).guarantees, fun _ h hat => Hooks.running_awake h hat⟩

/-- 64 polls, a drain and a `roce_park_due` at the clock value `now`. -/
def quietActions (now : UInt64) : List Action :=
  List.replicate 128 (.proxy 0 true 0) ++ [.proxy 0 true 0, .proxy now true 0]

/-- The proxy parks. -/
def parkActions : List Action :=
  [.configure 1000, .allow] ++ quietActions 1 ++ quietActions 1001 ++
    List.replicate 8 (.proxy 0 true 0)

/-- Two runtimes go idle, one of them is closed, and a batch is run. -/
def hookActions : List Hooks.Action :=
  [.create 0, .install 0, .create 1, .install 1, .idle, .next, .next, .next, .next, .drop 0, .next,
    .next, .next, .runBatch, .next, .next, .next, .next, .next]

/-- The guarantees of a parked proxy that is woken, and of a batch after an idle spell. -/
theorem idle_park_woken :
    (∃ S, Transition.run step .start
        (parkActions ++ [.callWake 0, .engine 0, .engine 0, .engine 0]) = some S ∧
      S.pc = .gen ∧ S.returned.length = 1 ∧ Guarantees S) ∧
    ∃ H, Transition.run Hooks.step .start hookActions = some H ∧ H.at_ = .running ∧
      H.word 1 = some false ∧ ∀ r, H.word r ≠ some true := by
  have hS : (Transition.run step .start
      (parkActions ++ [.callWake 0, .engine 0, .engine 0, .engine 0])).any
        (fun S => S.pc = .gen ∧ S.returned.length = 1) := by decide +kernel
  have hH : (Transition.run Hooks.step .start hookActions).any
      (fun H => H.at_ = .running ∧ H.word 1 = some false) := by decide +kernel
  obtain ⟨S, hrunS, hS⟩ := (Option.any_eq_true _ _).mp hS
  obtain ⟨H, hrunH, hH⟩ := (Option.any_eq_true _ _).mp hH
  obtain ⟨hpc, hlen⟩ := of_decide_eq_true hS
  obtain ⟨hat, hword⟩ := of_decide_eq_true hH
  exact ⟨⟨S, hrunS, hpc, hlen, idle_park.1 S (.of_run hrunS (by decide +kernel))⟩,
    H, hrunH, hat, hword, idle_park.2 H
      (.of_run hrunH (Transition.allowedRun_of_forall (fun _ _ => trivial) _ _)) hat⟩

/-- **A second `roce_stop` returns at once**, while the proxy is blocked with a
generation from before it: the first one has cleared `running` and not yet bumped
the generation. -/
theorem second_stop_returns : ∃ S, Reachable .start S ∧ S.pc = .blocked ∧
    ∃ c ∈ S.returned, S.g ≤ c.start := by
  have h : (Transition.run step .start
      (parkActions ++ [.callStop 0, .engine 0, .callStop 1, .engine 1])).any
        (fun S => S.pc = .blocked ∧ S.returned.any fun c => S.g ≤ c.start) := by decide +kernel
  obtain ⟨S, hrun, h⟩ := (Option.any_eq_true _ _).mp h
  obtain ⟨hpc, h⟩ := of_decide_eq_true h
  obtain ⟨c, hc, hle⟩ := List.any_eq_true.mp h
  exact ⟨S, .of_run hrun (by decide +kernel), hpc, c, hc, of_decide_eq_true hle⟩

end IdlePark
