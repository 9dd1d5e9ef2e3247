import Mathlib.Data.Finset.Card
import Mathlib.Tactic.Common
import SparkTP4.RingArrivals

/-!
# The steps of the ring kernels

What a thread continues with, case by case (`Goes`), and what that does to the words. Some
positions cannot be jumped over: a thread is beyond the staging, a barrier or an arrival exactly
if it has taken that step. What is shown of a step is said of the two thread states around it,
so that the invariants of a launch need not look at the code again.
-/

namespace RingArrivals

variable {cfg : Setting} {L : Launch} {M : Memory} {t k : ℕ} {ok : Bool} {pc pc' : Pc}
  {seq : UInt32}

/-! ## One thread -/

/-- The steps of a thread. -/
inductive Goes (cfg : Setting) (L : Launch) (M : Memory) (t : ℕ) (ok : Bool) : Pc → Pc → Prop
  | load : Goes cfg L M t ok .load .branch
  | enter (h : M.poison = 0) : Goes cfg L M t ok .branch .stage
  | skip (h : M.poison ≠ 0) : Goes cfg L M t ok .branch .skipped
  | stage : Goes cfg L M t ok .stage .stageSync
  | stageSync : Goes cfg L M t ok .stageSync .arriveStage
  | lastStage (ht : t = 0) (h : (M.stage + L.arrivalStep) % L.modulus = 0) :
      Goes cfg L M t ok .arriveStage .ringBytes
  | arriveStage (h : ¬(t = 0 ∧ (M.stage + L.arrivalStep) % L.modulus = 0)) :
      Goes cfg L M t ok .arriveStage (.wait (cfg.waits t))
  | ringBytes : Goes cfg L M t ok .ringBytes .ring
  | ring : Goes cfg L M t ok .ring (.wait (cfg.waits t))
  | waited : Goes cfg L M t ok (.wait []) .waitSync
  | saw (f : ℕ × ℕ) (flags : List (ℕ × ℕ)) (h : ok = true) :
      Goes cfg L M t ok (.wait (f :: flags)) (.wait flags)
  | timedOut (f : ℕ × ℕ) (flags : List (ℕ × ℕ)) (h : ok = false) :
      Goes cfg L M t ok (.wait (f :: flags)) (.record 0 f.1 flags)
  | record (k peer : ℕ) (flags : List (ℕ × ℕ)) (h : k < 3) :
      Goes cfg L M t ok (.record k peer flags) (.record (k + 1) peer flags)
  | recorded (k peer : ℕ) (flags : List (ℕ × ℕ)) (h : ¬k < 3) :
      Goes cfg L M t ok (.record k peer flags) (.wait flags)
  | waitSync : Goes cfg L M t ok .waitSync .check
  | healthy (h : M.poison = 0) : Goes cfg L M t ok .check .data
  | failed (h : M.poison ≠ 0) : Goes cfg L M t ok .check .dataSync
  | data : Goes cfg L M t ok .data .dataSync
  | dataSync : Goes cfg L M t ok .dataSync .arriveTail
  | lastTail (ht : t = 0) (h : (M.tail + L.arrivalStep) % L.modulus = 0) :
      Goes cfg L M t ok .arriveTail .checkFlag
  | arriveTail (h : ¬(t = 0 ∧ (M.tail + L.arrivalStep) % L.modulus = 0)) :
      Goes cfg L M t ok .arriveTail .exit
  | unflagged (h : M.flag = 0) : Goes cfg L M t ok .checkFlag .advance
  | flagged (h : M.flag ≠ 0) : Goes cfg L M t ok .checkFlag .exit
  | advance : Goes cfg L M t ok .advance .exit

/-- **These are all the steps.** -/
theorem goes_next (h : ¬pc.Left) : Goes cfg L M t ok pc (pc.next cfg L M t ok) := by
  cases pc with
  | load => exact .load
  | branch =>
    show Goes cfg L M t ok .branch (if M.poison = 0 then .stage else .skipped)
    split_ifs with hp
    exacts [.enter hp, .skip hp]
  | stage => exact .stage
  | stageSync => exact .stageSync
  | arriveStage =>
    show Goes cfg L M t ok .arriveStage
      (if t = 0 ∧ (M.stage + L.arrivalStep) % L.modulus = 0 then .ringBytes else .wait (cfg.waits t))
    split_ifs with hlast
    exacts [.lastStage hlast.1 hlast.2, .arriveStage hlast]
  | ringBytes => exact .ringBytes
  | ring => exact .ring
  | wait flags =>
    cases flags with
    | nil => exact .waited
    | cons f flags =>
      cases ok with
      | true => exact .saw f flags rfl
      | false => exact .timedOut f flags rfl
  | record k peer flags =>
    show Goes cfg L M t ok (.record k peer flags)
      (if k < 3 then .record (k + 1) peer flags else .wait flags)
    split_ifs with hk
    exacts [.record k peer flags hk, .recorded k peer flags hk]
  | waitSync => exact .waitSync
  | check =>
    show Goes cfg L M t ok .check (if M.poison = 0 then .data else .dataSync)
    split_ifs with hp
    exacts [.healthy hp, .failed hp]
  | data => exact .data
  | dataSync => exact .dataSync
  | arriveTail =>
    show Goes cfg L M t ok .arriveTail
      (if t = 0 ∧ (M.tail + L.arrivalStep) % L.modulus = 0 then .checkFlag else .exit)
    split_ifs with hlast
    exacts [.lastTail hlast.1 hlast.2, .arriveTail hlast]
  | checkFlag =>
    show Goes cfg L M t ok .checkFlag (if M.flag = 0 then .advance else .exit)
    split_ifs with hf
    exacts [.unflagged hf, .flagged hf]
  | advance => exact .advance
  | exit => exact absurd (.inl rfl) h
  | skipped => exact absurd (.inr rfl) h

/-- A position that no step jumps over: the staging, a barrier, or an arrival. -/
def Solid (k : ℕ) : Prop := k = 2 ∨ k = 3 ∨ k = 4 ∨ k = 8 ∨ k = 11 ∨ k = 12

/-- **A thread is beyond a solid position** exactly if it has been there. -/
theorem Goes.lt_pos_iff (h : Goes cfg L M t ok pc pc') (hk : Solid k) :
    k < pc'.pos ↔ k ≤ pc.pos := by
  unfold Solid at hk
  cases h <;> simp only [Pc.pos] <;> omega

/-- Positions do not decrease, except that a thread may skip the body. -/
theorem Goes.pos_le (h : Goes cfg L M t ok pc pc') : pc' = .skipped ∨ pc.pos ≤ pc'.pos := by
  cases h
  case skip => exact .inl rfl
  all_goals exact .inr (by simp only [Pc.pos]; omega)

theorem Goes.not_left (h : Goes cfg L M t ok pc pc') : ¬pc.Left := by
  cases h <;> exact fun hleft => hleft.elim Pc.noConfusion Pc.noConfusion

/-- Only a poisoned runtime is left without the body. -/
theorem Goes.skipped (h : Goes cfg L M t ok pc .skipped) : pc.pos ≤ 1 ∧ M.poison ≠ 0 := by
  cases h with
  | skip h => exact ⟨Nat.le_refl 1, h⟩

/-- The body is entered only while the runtime is not poisoned. -/
theorem Goes.entered (h : Goes cfg L M t ok pc pc') (hpos : pc.pos ≤ 1) :
    pc'.pos ≤ 1 ∨ M.poison = 0 := by
  cases h <;> simp only [Pc.pos] at hpos ⊢ <;> first | omega | exact .inr ‹_›

/-- A thread that is to leave the data phase behind has stored its share, or found the runtime
poisoned. -/
theorem Goes.reduced (h : Goes cfg L M t ok pc pc') (hpos : 10 < pc'.pos) :
    pc = .data ∨ M.poison ≠ 0 ∨ 10 < pc.pos := by
  cases h with
  | data => exact .inl rfl
  | failed h => exact .inr (.inl h)
  | _ => simp [Pc.pos] at hpos ⊢

/-- Only thread positions of their own are these. -/
theorem pos_eq_iff : (pc.pos = 2 ↔ pc = .stage) ∧ (pc.pos = 4 ↔ pc = .arriveStage) ∧
    (pc.pos = 12 ↔ pc = .arriveTail) ∧
    (pc.pos = 3 ∨ pc.pos = 8 ∨ pc.pos = 11 → pc = .stageSync ∨ pc = .waitSync ∨ pc = .dataSync) := by
  cases pc <;> simp [Pc.pos]

/-- The threads at these positions are those of the block that arrived last. -/
def Pc.Leads (pc : Pc) : Prop := pc = ringBytes ∨ pc = ring ∨ pc = checkFlag ∨ pc = advance

theorem Goes.leads (h : Goes cfg L M t ok pc pc') (hlead : pc'.Leads) : pc.Leads ∨ t = 0 := by
  unfold Pc.Leads at hlead ⊢
  cases h <;> first | exact .inr ‹_› | simp at hlead ⊢

/-- What a thread at a time-out comes from. -/
theorem Goes.to_record {peer : ℕ} {flags : List (ℕ × ℕ)}
    (h : Goes cfg L M t ok pc (.record k peer flags)) :
    (k = 0 ∧ ok = false ∧ ∃ path, pc = .wait ((peer, path) :: flags)) ∨
      ∃ j, k = j + 1 ∧ j < 3 ∧ pc = .record j peer flags := by
  cases h with
  | timedOut f flags h => exact .inl ⟨rfl, h, f.2, rfl⟩
  | record k peer flags h => exact .inr ⟨k, rfl, h, rfl⟩

/-- Where a thread with a time-out goes. -/
theorem Goes.of_wait {f : ℕ × ℕ} {flags : List (ℕ × ℕ)}
    (h : Goes cfg L M t false (.wait (f :: flags)) pc') : pc' = .record 0 f.1 flags := by
  generalize hok : false = ok at h
  cases h with
  | saw f flags h => exact absurd (hok.trans h) Bool.false_ne_true
  | timedOut f flags h => rfl

/-! ## The words -/

theorem exec_epoch : (M.exec L t seq pc).epoch = if pc = .advance then seq else M.epoch := by
  cases pc with
  | record k peer flags => rcases k with _ | _ | _ | k <;> rfl
  | arriveStage => by_cases ht : t = 0 <;> simp [Memory.exec, ht]
  | arriveTail => by_cases ht : t = 0 <;> simp [Memory.exec, ht]
  | _ => simp [Memory.exec]

theorem exec_stage : (M.exec L t seq pc).stage =
    if t = 0 ∧ pc = .arriveStage then M.stage + L.arrivalStep else M.stage := by
  cases pc with
  | record k peer flags => rcases k with _ | _ | _ | k <;> simp [Memory.exec]
  | arriveStage => by_cases ht : t = 0 <;> simp [Memory.exec, ht]
  | arriveTail => by_cases ht : t = 0 <;> simp [Memory.exec, ht]
  | _ => simp [Memory.exec]

theorem exec_tail : (M.exec L t seq pc).tail =
    if t = 0 ∧ pc = .arriveTail then M.tail + L.arrivalStep else M.tail := by
  cases pc with
  | record k peer flags => rcases k with _ | _ | _ | k <;> simp [Memory.exec]
  | arriveStage => by_cases ht : t = 0 <;> simp [Memory.exec, ht]
  | arriveTail => by_cases ht : t = 0 <;> simp [Memory.exec, ht]
  | _ => simp [Memory.exec]

/-- The words of the failure record: a step is no store of a time-out and leaves them, or it is
one of the four stores. -/
theorem exec_failure (L : Launch) (M : Memory) (t : ℕ) (seq : UInt32) (pc : Pc) :
    ((∀ k peer flags, pc ≠ .record k peer flags) ∧ (M.exec L t seq pc).peer = M.peer ∧
      (M.exec L t seq pc).error = M.error ∧ (M.exec L t seq pc).flag = M.flag ∧
      (M.exec L t seq pc).poison = M.poison) ∨
    ∃ k peer flags, pc = .record k peer flags ∧
      (M.exec L t seq pc).peer = (if k = 0 then .ofNat peer else M.peer) ∧
      (M.exec L t seq pc).error = (if k = 1 then seq else M.error) ∧
      (M.exec L t seq pc).flag = (if k = 2 then 1 else M.flag) ∧
      (M.exec L t seq pc).poison = (if k < 3 then M.poison else 1) := by
  cases pc with
  | record k peer flags =>
    refine .inr ⟨k, peer, flags, rfl, ?_⟩
    rcases k with _ | _ | _ | k <;> simp [Memory.exec]
  | arriveStage => by_cases ht : t = 0 <;> simp [Memory.exec, ht]
  | arriveTail => by_cases ht : t = 0 <;> simp [Memory.exec, ht]
  | _ => simp [Memory.exec]

/-- A set poison word stays set. -/
theorem exec_poison (h : M.poison ≠ 0) : (M.exec L t seq pc).poison ≠ 0 := by
  obtain ⟨-, -, -, -, hp⟩ | ⟨k, -, -, -, -, -, -, hp⟩ := exec_failure L M t seq pc
  · rwa [hp]
  · rw [hp]
    split_ifs
    exacts [h, by decide]

/-- A set flag stays set. -/
theorem exec_flag (h : M.flag ≠ 0) : (M.exec L t seq pc).flag ≠ 0 := by
  obtain ⟨-, -, -, hf, -⟩ | ⟨k, -, -, -, -, -, hf, -⟩ := exec_failure L M t seq pc
  · rwa [hf]
  · rw [hf]
    split_ifs
    exacts [by decide, h]

end RingArrivals
