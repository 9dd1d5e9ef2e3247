import SparkTP4.PoisonGuard
import Mathlib.Tactic.Common

/-!
# The steps of one thread

What a thread of a launch may have done at each position of the program, as an
invariant of the thread (`ThreadInv`). The words other threads store enter only
through the facts that the poison word and the error word stay set
(`ThreadInv.frame`). The instructions a step continues with are tied to the
instruction of the program they belong to (`Continues`), and the stores that
record a failure to what the error word holds after them (`Stores`).
-/

namespace PoisonGuard

/-! ## The programs -/

namespace Launch

variable {L : Launch}

/-- The instructions of the program by position. -/
inductive At (L : Launch) : ℕ → Instr → Prop
  | loadEpoch : At L 0 .loadEpoch
  | wrapGuard : At L 1 .wrapGuard
  | wrapSync : At L 2 .wrapSync
  | branch : At L 3 .branch
  | body {j : ℕ} {i : Instr} (h : L.body[j]? = some i) : At L (j + 4) i
  | sync : At L (L.body.length + 4) .sync
  | arrive : At L (L.body.length + 5) (.arrive L.tail)

theorem program_length (L : Launch) : L.program.length = L.body.length + 6 := by
  unfold program entryCode
  simp only [List.length_append, List.length_cons, List.length_nil]
  omega

theorem program_body (j : ℕ) (hj : j < L.body.length) : L.program[j + 4]? = L.body[j]? := by
  unfold program entryCode
  rw [List.append_assoc, List.getElem?_append_right (by simp), List.getElem?_append_left (by simpa)]
  simp

theorem program_tail (L : Launch) (j : ℕ) :
    L.program[L.body.length + 4 + j]? = [Instr.sync, .arrive L.tail][j]? := by
  have hlength : (entryCode ++ L.body).length = L.body.length + 4 := by
    rw [List.length_append, Nat.add_comm]
    rfl
  unfold program
  rw [List.getElem?_append_right (by omega), hlength, Nat.add_sub_cancel_left]

theorem program_sync (L : Launch) : L.program[L.body.length + 4]? = some .sync :=
  L.program_tail 0

theorem program_arrive (L : Launch) : L.program[L.body.length + 5]? = some (.arrive L.tail) :=
  L.program_tail 1

/-- A poisoned runtime skips the whole body. -/
theorem exit_bounds (L : Launch) : L.body.length + 4 ≤ L.exit ∧ L.exit ≤ L.program.length := by
  have hlength := L.program_length
  have hentry : entryCode.length = 4 := rfl
  unfold exit
  split <;> omega

theorem at_of_program {k : ℕ} {i : Instr} (h : L.program[k]? = some i) : At L k i := by
  have hk : k < L.program.length := (List.getElem?_eq_some_iff.mp h).1
  rw [program_length] at hk
  match k, h with
  | 0, h => exact Option.some.inj h ▸ .loadEpoch
  | 1, h => exact Option.some.inj h ▸ .wrapGuard
  | 2, h => exact Option.some.inj h ▸ .wrapSync
  | 3, h => exact Option.some.inj h ▸ .branch
  | j + 4, h =>
    rcases Nat.lt_trichotomy j L.body.length with hj | rfl | hj
    · exact .body (program_body j hj ▸ h)
    · rw [program_sync] at h
      exact Option.some.inj h ▸ .sync
    · obtain rfl : j = L.body.length + 1 := by omega
      rw [program_arrive] at h
      exact Option.some.inj h ▸ .arrive

end Launch

/-- The grid that uses the counter. -/
def Counter.gridLog (cfg : Setting) : Counter → ℕ
  | stage k | tail k => k
  | pipeStage _ | pipeReduce _ | pipeTail => cfg.pipeLog

def Counter.IsTail : Counter → Prop
  | tail _ | pipeTail => True
  | _ => False

/-- The instructions of the bodies. -/
inductive InBody (L : Launch) : Instr → Prop
  | sync : InBody L .sync
  | stage (c : ℕ) : InBody L (.stage c)
  | arrive {ctr : Counter} (htail : ¬ctr.IsTail)
      (hgrid : ∀ cfg, ctr.gridLog cfg = L.gridLog cfg) : InBody L (.arrive ctr)
  | record : InBody L .record
  | waitFlags (part : Part) : InBody L (.waitFlags part)
  | waitChunk (part : Part) : InBody L (.waitChunk part)
  | data (part : Part) : InBody L (.data part)

theorem Launch.inBody {L : Launch} {i : Instr} (h : i ∈ L.body) : InBody L i := by
  have slot : ∀ k, (∀ cfg, k = L.gridLog cfg) → i ∈ slotBody k → InBody L i := by
    intro k hk hi
    simp only [slotBody, List.mem_cons, List.not_mem_nil, or_false] at hi
    rcases hi with rfl | rfl | rfl | rfl | rfl | rfl
    exacts [.stage 0, .sync, .arrive id hk, .waitFlags .one, .sync, .data .one]
  cases L with
  | oneshot k => exact slot k (fun _ => rfl) h
  | allGather k => exact slot k (fun _ => rfl) h
  | allGatherColumns k => exact slot k (fun _ => rfl) h
  | twoshot chunks =>
    simp only [Launch.body, twoshotBody, List.mem_cons, List.mem_append, List.mem_flatMap,
      stageChunk, reduceChunk, gatherChunk, List.not_mem_nil, or_false] at h
    rcases h with ((rfl | ⟨c, -, h⟩) | ⟨c, -, h⟩) | ⟨c, -, h⟩
    · exact .record
    · rcases h with rfl | rfl | rfl
      exacts [.stage c, .sync, .arrive id fun _ => rfl]
    · rcases h with rfl | rfl | rfl | rfl | rfl
      exacts [.waitChunk _, .sync, .data _, .sync, .arrive id fun _ => rfl]
    · rcases h with rfl | rfl | rfl
      exacts [.waitChunk _, .sync, .data _]

/-! ## What a step continues with -/

/-- What the instruction `h` of a program continues with. -/
inductive Continues : Instr → Instr → Prop
  | wrapGuard (ws : List (Word × UInt32)) : Continues .wrapGuard (.stores ws)
  | record : Continues .record .ring
  | ring (k : ℕ) : Continues (.arrive (.stage k)) .ring
  | spinFlags (part : Part) (peer hca : ℕ) : Continues (.waitFlags part) (.spin part peer hca)
  | spinChunk (part : Part) (peer hca : ℕ) : Continues (.waitChunk part) (.spin part peer hca)
  | waitFlags (part : Part) (ws : List (Word × UInt32)) :
      Continues (.waitFlags part) (.stores ws)
  | waitChunk (part : Part) (ws : List (Word × UInt32)) :
      Continues (.waitChunk part) (.stores ws)
  | data (part : Part) : Continues (.data part) (.read part)
  | checkRs (c : ℕ) : Continues (.arrive (.pipeStage c)) (.checkReady (.rs c))
  | publishRs (c : ℕ) : Continues (.arrive (.pipeStage c)) (.publish (.rs c))
  | checkAg (c : ℕ) : Continues (.arrive (.pipeReduce c)) (.checkReady (.ag c))
  | publishAg (c : ℕ) : Continues (.arrive (.pipeReduce c)) (.publish (.ag c))
  | checkEpoch (k : ℕ) : Continues (.arrive (.tail k)) .checkEpoch
  | setEpoch (k : ℕ) : Continues (.arrive (.tail k)) .setEpoch
  | checkRelease : Continues (.arrive .pipeTail) .checkRelease
  | awaitRelease : Continues (.arrive .pipeTail) .awaitRelease
  | release : Continues (.arrive .pipeTail) .setEpoch
  | stores (ws : List (Word × UInt32)) : Continues (.arrive .pipeTail) (.stores ws)

/-- The continuations of `Instr.follow`, each with its condition. -/
inductive Follows (cfg : Setting) (L : Launch) (M : Memory) (b t : ℕ) (seq : UInt32) (ok : Bool) :
    Instr → Instr → Prop
  | wrapGuard (hseq : seq = 0) (ht : t = 0) : Follows cfg L M b t seq ok .wrapGuard
      (.stores wrapStores)
  | arrive {ctr : Counter} {j : Instr} (ht : t = 0)
      (hlast : (M.counter ctr + 1) % UInt32.ofNat (L.grid cfg) = 0) (hj : j = ctr.onLast) :
      Follows cfg L M b t seq ok (.arrive ctr) j
  | record (hb : b = 0) (ht : t = 0) : Follows cfg L M b t seq ok .record .ring
  | waitFlags (part : Part) (peer hca : ℕ) : Follows cfg L M b t seq ok (.waitFlags part)
      (.spin part peer hca)
  | waitChunk (part : Part) (peer hca : ℕ) (hp : M.poison = 0) : Follows cfg L M b t seq ok
      (.waitChunk part) (.spin part peer hca)
  | data (part : Part) (hp : M.poison = 0) : Follows cfg L M b t seq ok (.data part) (.read part)
  | spin (part : Part) (peer hca : ℕ) (hok : ok = false) : Follows cfg L M b t seq ok
      (.spin part peer hca) (.stores (waitStores peer hca seq))
  | stores (x y : Word × UInt32) (ws : List (Word × UInt32)) : Follows cfg L M b t seq ok
      (.stores (x :: y :: ws)) (.stores (y :: ws))
  | checkReady (part : Part) (he : M.error = 0) : Follows cfg L M b t seq ok (.checkReady part)
      (.publish part)
  | checkEpoch (he : M.error = 0) : Follows cfg L M b t seq ok .checkEpoch .setEpoch
  | checkRelease (he : M.error = 0) : Follows cfg L M b t seq ok .checkRelease .awaitRelease
  | release (hok : ok = true) : Follows cfg L M b t seq ok .awaitRelease .setEpoch
  | releaseStores (hok : ok = false) : Follows cfg L M b t seq ok .awaitRelease
      (.stores (releaseStores cfg.rank seq))

section Follow

variable {cfg : Setting} {L : Launch} {M : Memory} {b t : ℕ} {seq : UInt32} {ok : Bool}
  {h i j : Instr}

theorem wait_eq_some {part : Part} (hw : cfg.wait t part = some i) :
    ∃ peer hca, i = .spin part peer hca := by
  unfold Setting.wait at hw
  split at hw
  · exact ⟨_, _, (Option.some.inj hw).symm⟩
  · cases hw

/-- **What a step continues with.** -/
theorem follows_of_follow (hf : i.follow cfg L M b t seq ok = some j) :
    Follows cfg L M b t seq ok i j := by
  unfold Instr.follow at hf
  split at hf
  · obtain ⟨⟨hseq, ht⟩, hj⟩ := Option.ite_none_right_eq_some.mp hf
    exact Option.some.inj hj ▸ .wrapGuard hseq ht
  · obtain ⟨⟨ht, hlast⟩, hj⟩ := Option.ite_none_right_eq_some.mp hf
    exact .arrive ht hlast (Option.some.inj hj).symm
  · obtain ⟨⟨hb, ht⟩, hj⟩ := Option.ite_none_right_eq_some.mp hf
    exact Option.some.inj hj ▸ .record hb ht
  · obtain ⟨peer, hca, rfl⟩ := wait_eq_some hf
    exact .waitFlags _ peer hca
  · obtain ⟨hp, hw⟩ := Option.ite_none_right_eq_some.mp hf
    obtain ⟨peer, hca, rfl⟩ := wait_eq_some hw
    exact .waitChunk _ peer hca hp
  · obtain ⟨hp, hj⟩ := Option.ite_none_right_eq_some.mp hf
    exact Option.some.inj hj ▸ .data _ hp
  · obtain ⟨hok, hj⟩ := Option.ite_none_left_eq_some.mp hf
    exact Option.some.inj hj ▸ .spin _ _ _ (Bool.eq_false_iff.mpr hok)
  · exact Option.some.inj hf ▸ .stores _ _ _
  · obtain ⟨he, hj⟩ := Option.ite_none_right_eq_some.mp hf
    exact Option.some.inj hj ▸ .checkReady _ he
  · obtain ⟨he, hj⟩ := Option.ite_none_right_eq_some.mp hf
    exact Option.some.inj hj ▸ .checkEpoch he
  · obtain ⟨he, hj⟩ := Option.ite_none_right_eq_some.mp hf
    exact Option.some.inj hj ▸ .checkRelease he
  · split at hf
    · rename_i hok
      exact Option.some.inj hf ▸ .release hok
    · rename_i hok
      exact Option.some.inj hf ▸ .releaseStores (Bool.eq_false_iff.mpr hok)
  · cases hf

/-- What a step continues with still belongs to the same instruction. -/
theorem Continues.follow (hc : Continues h i) (hf : i.follow cfg L M b t seq ok = some j) :
    Continues h j := by
  cases follows_of_follow hf <;> cases hc
  exacts [.waitFlags _ _, .waitChunk _ _, .wrapGuard _, .waitFlags _ _, .waitChunk _ _, .stores _,
    .publishRs _, .publishAg _, .setEpoch _, .awaitRelease, .release, .stores _]

/-- What an instruction of the program continues with. -/
theorem continues_of_follow {k : ℕ} (hk : L.program[k]? = some h)
    (hf : h.follow cfg L M b t seq ok = some j) : Continues h j := by
  have arrive : ∀ ctr : Counter, Continues (.arrive ctr) ctr.onLast := by
    rintro (k | k | c | c | _)
    exacts [.ring _, .checkEpoch _, .checkRs _, .checkAg _, .checkRelease]
  cases Launch.at_of_program hk with
  | loadEpoch | wrapSync | branch | sync => cases hf
  | wrapGuard =>
    cases follows_of_follow hf
    exact .wrapGuard _
  | arrive =>
    cases follows_of_follow hf with
    | arrive _ _ hj => exact hj ▸ arrive _
  | body hj =>
    cases Launch.inBody (List.mem_of_getElem? hj) with
    | sync | stage c => cases hf
    | arrive =>
      cases follows_of_follow hf with
      | arrive _ _ hj => exact hj ▸ arrive _
    | record =>
      cases follows_of_follow hf
      exact .record
    | waitFlags part =>
      cases follows_of_follow hf
      exact .spinFlags part _ _
    | waitChunk part =>
      cases follows_of_follow hf
      exact .spinChunk part _ _
    | data part =>
      cases follows_of_follow hf
      exact .data part

/-- An instruction of the program is not what another one continues with. -/
theorem not_continues {k : ℕ} (hk : L.program[k]? = some j) : ¬Continues h j := by
  intro hc
  cases Launch.at_of_program hk with
  | loadEpoch | wrapGuard | wrapSync | branch | sync | arrive => cases hc
  | body hj => cases Launch.inBody (List.mem_of_getElem? hj) <;> cases hc

end Follow
/-! ## The words a step changes -/

section Words

variable {M : Memory} {t : ℕ} {seq : UInt32} {i : Instr}

theorem exec_epoch (hi : i ≠ .setEpoch) : (M.exec t seq i).epoch = M.epoch := by
  unfold Memory.exec
  split
  · split <;> rfl
  · rename_i w v ws
    cases w <;> rfl
  · rfl
  · rfl
  · exact absurd rfl hi
  · rfl

theorem exec_error (hi : ∀ ws, i ≠ .stores ws) : (M.exec t seq i).error = M.error := by
  unfold Memory.exec
  split
  · split <;> rfl
  · exact absurd rfl (hi _)
  all_goals rfl

theorem exec_poison (hi : ∀ ws, i ≠ .stores ws) : (M.exec t seq i).poison = M.poison := by
  unfold Memory.exec
  split
  · split <;> rfl
  · exact absurd rfl (hi _)
  all_goals rfl

theorem exec_counter (hi : ∀ ctr, i ≠ .arrive ctr) : (M.exec t seq i).counter = M.counter := by
  unfold Memory.exec
  split
  · exact absurd rfl (hi _)
  · rename_i w v ws
    cases w <;> rfl
  all_goals rfl

theorem exec_doorbell (hi : i ≠ .ring) : (M.exec t seq i).doorbell = M.doorbell := by
  unfold Memory.exec
  split
  · split <;> rfl
  · rename_i w v ws
    cases w <;> rfl
  · exact absurd rfl hi
  all_goals rfl

theorem exec_ready (hi : ∀ part, i ≠ .publish part) : (M.exec t seq i).ready = M.ready := by
  unfold Memory.exec
  split
  · split <;> rfl
  · rename_i w v ws
    cases w <;> rfl
  · rfl
  · exact absurd rfl (hi _)
  all_goals rfl

end Words

/-- The stores record a failure, given what the error word holds: a value that
is not zero, the error word first, and the poison word last. -/
def Stores : UInt32 → List (Word × UInt32) → Prop
  | _, [] => False
  | e, (.peer, _) :: ws => Stores e ws
  | e, (.hca, _) :: ws => Stores e ws
  | _, (.error, v) :: ws => v ≠ 0 ∧ Stores v ws
  | e, (.poison, v) :: ws => v ≠ 0 ∧ e ≠ 0 ∧ ws = []

namespace Stores

variable {e e' : UInt32} {ws : List (Word × UInt32)} {x : Word × UInt32}

theorem mono (he : e ≠ 0 → e' ≠ 0) (h : Stores e ws) : Stores e' ws := by
  fun_induction Stores e ws with
  | case1 => exact h
  | case2 e _ ws ih => exact ih he h
  | case3 e _ ws ih => exact ih he h
  | case4 => exact h
  | case5 => exact ⟨h.1, he h.2.1, h.2.2⟩

theorem wrap : Stores e wrapStores := by
  show wrapSentinel ≠ 0 ∧ wrapSentinel ≠ 0 ∧ wrapSentinel ≠ 0 ∧ [] = []
  decide

theorem wait (peer hca : ℕ) {seq : UInt32} (hseq : seq ≠ 0) : Stores e (waitStores peer hca seq) :=
  ⟨hseq, hseq, hseq, rfl⟩

theorem release (rank : ℕ) {seq : UInt32} (hseq : seq ≠ 0) : Stores e (releaseStores rank seq) :=
  ⟨hseq, hseq, hseq, rfl⟩

variable {M : Memory} {t : ℕ} {seq : UInt32}

/-- The rest of the stores, after the first. -/
theorem tail (h : Stores M.error (x :: ws)) (hws : ws ≠ []) :
    Stores (M.exec t seq (.stores (x :: ws))).error ws := by
  match x, h with
  | (.peer, _), h => exact h
  | (.hca, _), h => exact h
  | (.error, _), h => exact h.2
  | (.poison, _), h => exact absurd h.2.2 hws

/-- The last of the stores sets the poison word. -/
theorem poison_of_last (h : Stores M.error [x]) :
    (M.exec t seq (.stores [x])).poison ≠ 0 := by
  match x, h with
  | (.poison, _), h => exact h.1

theorem error_ne (h : Stores M.error ws) (he : M.error ≠ 0) :
    (M.exec t seq (.stores ws)).error ≠ 0 := by
  match ws, h with
  | (.peer, _) :: _, _ => exact he
  | (.hca, _) :: _, _ => exact he
  | (.error, _) :: _, h => exact h.1
  | (.poison, _) :: _, _ => exact he

theorem poison_ne (h : Stores M.error ws) (hp : M.poison ≠ 0) :
    (M.exec t seq (.stores ws)).poison ≠ 0 := by
  match ws, h with
  | (.peer, _) :: _, _ => exact hp
  | (.hca, _) :: _, _ => exact hp
  | (.error, _) :: _, _ => exact hp
  | (.poison, _) :: _, h => exact h.1

/-- The poison word is set after the error word. -/
theorem error_of_poison (h : Stores M.error ws) (hM : M.poison ≠ 0 → M.error ≠ 0)
    (hp : (M.exec t seq (.stores ws)).poison ≠ 0) : (M.exec t seq (.stores ws)).error ≠ 0 := by
  match ws, h with
  | (.peer, _) :: _, _ => exact hM hp
  | (.hca, _) :: _, _ => exact hM hp
  | (.error, _) :: _, h => exact h.1
  | (.poison, _) :: _, h => exact h.2.1

end Stores

/-! ## The invariant of a thread -/

/-- A thread of a launch that began with the words `entry`, when the words are
`M`. -/
structure ThreadInv (L : Launch) (entry M : Memory) (t : ℕ) (th : Thread) : Prop where
  bound : th.pc ≤ L.program.length
  early : th.pc ≤ 3 → th.skipped = false
  /-- every thread loads the epoch the launch began with -/
  seq : 0 < th.pc → th.seq = entry.epoch + 1
  wrapped : t = 0 → 1 < th.pc → th.seq = 0 → M.poison ≠ 0
  guarded : 2 < th.pc → th.seq = 0 → M.poison ≠ 0
  body : 3 < th.pc → th.skipped = false → th.seq ≠ 0 ∧ entry.poison = 0
  skipped : th.skipped = true → M.poison ≠ 0 ∧ L.exit ≤ th.pc
  todo : ∀ i, th.todo = some i → ∃ h, L.program[th.pc]? = some h ∧ Continues h i
  stores : ∀ ws, th.todo = some (.stores ws) → Stores M.error ws
  skippedTodo : th.skipped = true → ∀ i, th.todo = some i → i = .checkRelease

namespace ThreadInv

variable {cfg : Setting} {L : Launch} {entry M M' : Memory} {b t : ℕ} {th : Thread} {ok : Bool}
  {i h : Instr}

theorem start : ThreadInv L entry M t .start where
  bound := Nat.zero_le _
  early _ := rfl
  seq h := absurd h (Nat.lt_irrefl 0)
  wrapped _ h := absurd h (by decide)
  guarded h := absurd h (by decide)
  body h := absurd h (by decide)
  skipped h := by cases h
  todo _ h := by cases h
  stores _ h := by cases h
  skippedTodo h := by cases h

/-- What the other threads store does not matter, as long as the poison word and
the error word stay set. -/
theorem frame (hinv : ThreadInv L entry M t th) (hpoison : M.poison ≠ 0 → M'.poison ≠ 0)
    (herror : M.error ≠ 0 → M'.error ≠ 0) : ThreadInv L entry M' t th :=
  { hinv with
    wrapped := fun ht hpc hseq => hpoison (hinv.wrapped ht hpc hseq)
    guarded := fun hpc hseq => hpoison (hinv.guarded hpc hseq)
    skipped := fun hs => ⟨hpoison (hinv.skipped hs).1, (hinv.skipped hs).2⟩
    stores := fun ws hws => (hinv.stores ws hws).mono herror }

/-- A thread that is past the entry code and has not skipped the body is in it,
or in the tail; one that has is in the tail of a two-shot kernel. -/
theorem tail_of_skipped (hinv : ThreadInv L entry M t th) (hs : th.skipped = true)
    (hh : L.program[th.pc]? = some h) : h = .sync ∨ h = .arrive .pipeTail := by
  have hexit := (hinv.skipped hs).2
  have hpc := (List.getElem?_eq_some_iff.mp hh).1
  cases L with
  | oneshot k => exact absurd hpc (Nat.not_lt.mpr hexit)
  | allGather k => exact absurd hpc (Nat.not_lt.mpr hexit)
  | allGatherColumns k => exact absurd hpc (Nat.not_lt.mpr hexit)
  | twoshot chunks =>
    replace hexit : 4 + (Launch.twoshot chunks).body.length ≤ th.pc := hexit
    generalize th.pc = k at hh hexit
    cases Launch.at_of_program hh with
    | sync => exact .inl rfl
    | arrive => exact .inr rfl
    | @body j _ hj =>
      have := (List.getElem?_eq_some_iff.mp hj).1
      omega
    | loadEpoch | wrapGuard | wrapSync | branch => omega

/-- The instruction `h` of the program is not over: it continues with `i`. -/
theorem resume (hinv : ThreadInv L entry M t th) (hh : L.program[th.pc]? = some h)
    (hc : Continues h i) (hstores : ∀ ws, i = .stores ws → Stores M.error ws)
    (hskipped : th.skipped = true → i = .checkRelease) :
    ThreadInv L entry M t (th.proceed (some i)) :=
  { hinv with
    todo := fun _ hj => ⟨h, hh, Option.some.inj hj ▸ hc⟩
    stores := fun ws hws => hstores ws (Option.some.inj hws)
    skippedTodo := fun hs _ hj => Option.some.inj hj ▸ hskipped hs }

/-- The instruction of the program is over. -/
theorem advance (hinv : ThreadInv L entry M t th) (hh : L.program[th.pc]? = some h)
    (hload : 0 < th.pc) (hwrap : t = 0 → th.pc = 1 → th.seq = 0 → M.poison ≠ 0)
    (hguard : th.pc = 2 → th.seq = 0 → M.poison ≠ 0)
    (hbranch : th.pc = 3 → th.seq ≠ 0 ∧ entry.poison = 0) :
    ThreadInv L entry M t (th.proceed none) where
  bound := (List.getElem?_eq_some_iff.mp hh).1
  early hpc := hinv.early (Nat.le_of_succ_le hpc)
  seq _ := hinv.seq hload
  wrapped ht hpc hseq := by
    rcases Nat.lt_or_ge 1 th.pc with h1 | h1
    · exact hinv.wrapped ht h1 hseq
    · exact hwrap ht (Nat.le_antisymm h1 (Nat.lt_succ_iff.mp hpc)) hseq
  guarded hpc hseq := by
    rcases Nat.lt_or_ge 2 th.pc with h2 | h2
    · exact hinv.guarded h2 hseq
    · exact hguard (Nat.le_antisymm h2 (Nat.lt_succ_iff.mp hpc)) hseq
  body hpc hs := by
    rcases Nat.lt_or_ge 3 th.pc with h3 | h3
    · exact hinv.body h3 hs
    · exact hbranch (Nat.le_antisymm h3 (Nat.lt_succ_iff.mp hpc))
  skipped hs := ⟨(hinv.skipped hs).1, Nat.le_succ_of_le (hinv.skipped hs).2⟩
  todo _ hj := by cases hj
  stores _ hws := by cases hws
  skippedTodo _ _ hj := by cases hj

/-- The instructions of the program that are not in the entry code. -/
theorem pos_of_ne {k : ℕ} (hh : L.program[k]? = some h) (hload : h ≠ .loadEpoch)
    (hguard : h ≠ .wrapGuard) (hsync : h ≠ .wrapSync) (hbranch : h ≠ .branch) : 3 < k := by
  cases Launch.at_of_program hh with
  | loadEpoch => exact absurd rfl hload
  | wrapGuard => exact absurd rfl hguard
  | wrapSync => exact absurd rfl hsync
  | branch => exact absurd rfl hbranch
  | body | sync | arrive => omega

/-- The thread is in the body: what follows is only reached with a sequence
number that is not zero, in a launch that began healthy. -/
theorem healthy (hinv : ThreadInv L entry M t th) (hh : L.program[th.pc]? = some h)
    (hload : h ≠ .loadEpoch) (hguard : h ≠ .wrapGuard) (hsync : h ≠ .wrapSync)
    (hbranch : h ≠ .branch) (hs : th.skipped = false) : th.seq ≠ 0 ∧ entry.poison = 0 :=
  hinv.body (pos_of_ne hh hload hguard hsync hbranch) hs

/-- What is not in a program is the rest of an instruction. -/
theorem todo_of_current (hc : ∃ h, Continues h i) (hcur : th.current L.program = some i) :
    th.todo = some i := by
  obtain ⟨h, hc⟩ := hc
  unfold Thread.current at hcur
  split at hcur
  · rename_i j hj
    exact hj.trans hcur
  · exact absurd hc (not_continues hcur)

/-- No program stores a ready word without a check, or checks without an arrival. -/
theorem todo_of_ready {part : Part} (hi : i = .checkReady part ∨ i = .publish part)
    (hcur : th.current L.program = some i) : th.todo = some i := by
  unfold Thread.current at hcur
  split at hcur
  · rename_i j hj
    exact hj.trans hcur
  · exfalso
    generalize th.pc = k at hcur
    obtain rfl | rfl := hi <;> cases Launch.at_of_program hcur with
      | body hj => cases Launch.inBody (List.mem_of_getElem? hj)

/-- What is in a program is not the rest of an instruction. -/
theorem program_of_current (hinv : ThreadInv L entry M t th) (hc : ∀ h, ¬Continues h i)
    (hcur : th.current L.program = some i) : th.todo = none ∧ L.program[th.pc]? = some i := by
  unfold Thread.current at hcur
  split at hcur
  · rename_i j hj
    obtain rfl := Option.some.inj hcur
    obtain ⟨h, -, hh⟩ := hinv.todo j hj
    exact absurd hh (hc h)
  · rename_i hj
    exact ⟨hj, hcur⟩

/-- Only a rest of an instruction stores the record of a failure. -/
theorem stores_of_current (hinv : ThreadInv L entry M t th) {ws : List (Word × UInt32)}
    (hcur : th.current L.program = some (.stores ws)) : Stores M.error ws :=
  hinv.stores ws (todo_of_current ⟨_, .wrapGuard ws⟩ hcur)

/-- The poison word stays set. -/
theorem poison_ne (hinv : ThreadInv L entry M t th) (hcur : th.current L.program = some i)
    {seq : UInt32} (hp : M.poison ≠ 0) : (M.exec t seq i).poison ≠ 0 := by
  by_cases hi : ∃ ws, i = .stores ws
  · obtain ⟨ws, rfl⟩ := hi
    exact (hinv.stores_of_current hcur).poison_ne hp
  · rw [exec_poison (fun ws hws => hi ⟨ws, hws⟩)]
    exact hp

/-- The error word stays set. -/
theorem error_ne (hinv : ThreadInv L entry M t th) (hcur : th.current L.program = some i)
    {seq : UInt32} (he : M.error ≠ 0) : (M.exec t seq i).error ≠ 0 := by
  by_cases hi : ∃ ws, i = .stores ws
  · obtain ⟨ws, rfl⟩ := hi
    exact (hinv.stores_of_current hcur).error_ne he
  · rw [exec_error (fun ws hws => hi ⟨ws, hws⟩)]
    exact he

/-- The poison word is not set before the error word. -/
theorem error_of_poison (hinv : ThreadInv L entry M t th) (hcur : th.current L.program = some i)
    {seq : UInt32} (hM : M.poison ≠ 0 → M.error ≠ 0) (hp : (M.exec t seq i).poison ≠ 0) :
    (M.exec t seq i).error ≠ 0 := by
  by_cases hi : ∃ ws, i = .stores ws
  · obtain ⟨ws, rfl⟩ := hi
    exact (hinv.stores_of_current hcur).error_of_poison hM hp
  · rw [exec_poison (fun ws hws => hi ⟨ws, hws⟩)] at hp
    rw [exec_error (fun ws hws => hi ⟨ws, hws⟩)]
    exact hM hp

end ThreadInv

/-- Neither the load of the epoch nor the branch. -/
theorem Thread.exec_eq {cfg : Setting} {L : Launch} {M : Memory} {b t : ℕ} {ok : Bool}
    {th : Thread} {i : Instr} (hload : i ≠ .loadEpoch) (hbranch : i ≠ .branch) :
    th.exec cfg L M b t ok i = th.proceed (i.follow cfg L M b t th.seq ok) := by
  unfold Thread.exec
  split
  · exact absurd rfl hload
  · exact absurd rfl hbranch
  · rfl

namespace ThreadInv

variable {cfg : Setting} {L : Launch} {entry M : Memory} {b t : ℕ} {th : Thread} {ok : Bool}
  {i : Instr}

/-- A thread executes an instruction of the program. -/
theorem exec_program (hinv : ThreadInv L entry M t th) (htodo : th.todo = none)
    (hi : L.program[th.pc]? = some i) (hentry : entry.poison ≠ 0 → M.poison ≠ 0)
    (hepoch : th.pc = 0 → M.epoch = entry.epoch)
    (hguard : th.pc = 2 → th.seq = 0 → M.poison ≠ 0)
    (hinv' : ThreadInv L entry (M.exec t th.seq i) t th) :
    ThreadInv L entry (M.exec t th.seq i) t (th.exec cfg L M b t ok i) := by
  have hlength : th.pc < L.program.length := (List.getElem?_eq_some_iff.mp hi).1
  by_cases hload : i = .loadEpoch
  · subst hload
    have hpc : th.pc = 0 := by
      generalize th.pc = k at hi
      cases Launch.at_of_program hi with
      | loadEpoch => rfl
      | body hj => cases Launch.inBody (List.mem_of_getElem? hj)
    have hs : th.skipped = false := hinv.early (by omega)
    exact
      { bound := hlength
        early := fun _ => hs
        seq := fun _ => by
          show M.epoch + 1 = entry.epoch + 1
          rw [hepoch hpc]
        wrapped := fun _ h => absurd (show 1 < th.pc + 1 from h) (by omega)
        guarded := fun h => absurd (show 2 < th.pc + 1 from h) (by omega)
        body := fun h => absurd (show 3 < th.pc + 1 from h) (by omega)
        skipped := fun h => Bool.noConfusion (hs.symm.trans h)
        todo := fun _ h => by cases h
        stores := fun _ h => by cases h
        skippedTodo := fun _ _ h => by cases h }
  have hpos : 0 < th.pc := by
    refine Nat.pos_of_ne_zero fun h0 => hload ?_
    rw [h0] at hi
    exact (Option.some.inj hi).symm
  by_cases hbranch : i = .branch
  · subst hbranch
    have hpc : th.pc = 3 := by
      generalize th.pc = k at hi
      cases Launch.at_of_program hi with
      | branch => rfl
      | body hj => cases Launch.inBody (List.mem_of_getElem? hj)
    have hexit := L.exit_bounds
    show ThreadInv L entry M t (if M.poison = 0 then _ else _)
    split
    · rename_i hp
      refine hinv.advance hi hpos (fun _ h1 => by omega) hguard fun _ => ⟨?_, ?_⟩
      · exact fun hseq => hinv.guarded (by omega) hseq hp
      · exact not_not.mp fun h => hentry h hp
    · rename_i hp
      exact
        { bound := hexit.2
          early := fun h => absurd (show L.exit ≤ 3 from h) (by omega)
          seq := fun _ => hinv.seq hpos
          wrapped := fun _ _ _ => hp
          guarded := fun _ _ => hp
          body := fun _ h => Bool.noConfusion h
          skipped := fun _ => ⟨hp, Nat.le_refl _⟩
          todo := fun _ h => by cases htodo.symm.trans h
          stores := fun _ h => by cases htodo.symm.trans h
          skippedTodo := fun _ _ h => by cases htodo.symm.trans h }
  rw [Thread.exec_eq hload hbranch]
  cases hf : i.follow cfg L M b t th.seq ok with
  | none =>
    refine hinv'.advance hi hpos (fun ht h1 hseq => ?_) (fun h2 hseq => ?_) fun h3 => ?_
    · rw [h1] at hi
      obtain rfl := Option.some.inj hi
      rw [Instr.follow, if_pos ⟨hseq, ht⟩] at hf
      cases hf
    · rw [h2] at hi
      obtain rfl := Option.some.inj hi
      exact hguard h2 hseq
    · rw [h3] at hi
      exact absurd (Option.some.inj hi).symm hbranch
  | some j =>
    refine hinv'.resume hi (continues_of_follow hi hf) (fun ws hws => ?_) fun hs => ?_
    · subst hws
      cases follows_of_follow hf with
      | wrapGuard => exact .wrap
      | @arrive ctr _ _ _ hj => cases ctr <;> cases hj
      | spin part peer hca => exact absurd (Continues.spinFlags part peer hca) (not_continues hi)
      | releaseStores => exact absurd Continues.awaitRelease (not_continues hi)
      | stores => exact absurd (Continues.wrapGuard _) (not_continues hi)
    · obtain rfl | rfl := hinv.tail_of_skipped hs hi
      · cases hf
      · simp only [Instr.follow, Option.ite_none_right_eq_some] at hf
        exact (Option.some.inj hf.2).symm

/-- A thread executes the rest of an instruction. -/
theorem exec_todo (hinv : ThreadInv L entry M t th) (htodo : th.todo = some i)
    (herror : M.poison ≠ 0 → M.error ≠ 0)
    (hinv' : ThreadInv L entry (M.exec t th.seq i) t th) :
    ThreadInv L entry (M.exec t th.seq i) t (th.exec cfg L M b t ok i) := by
  obtain ⟨h, hh, hc⟩ := hinv.todo i htodo
  rw [Thread.exec_eq (by rintro rfl; cases hc) (by rintro rfl; cases hc)]
  cases hf : i.follow cfg L M b t th.seq ok with
  | none =>
    refine hinv'.advance hh (Nat.pos_of_ne_zero fun h0 => ?_) (fun ht h1 hseq => ?_)
      (fun h2 => ?_) fun h3 => ?_
    · rw [h0] at hh
      obtain rfl := Option.some.inj hh
      cases hc
    · rw [h1] at hh
      obtain rfl := Option.some.inj hh
      cases hc with
      | wrapGuard ws =>
        have hstores := hinv.stores ws htodo
        match ws, hf with
        | [], _ => exact absurd hstores id
        | [x], _ => exact hstores.poison_of_last
    · rw [h2] at hh
      obtain rfl := Option.some.inj hh
      cases hc
    · rw [h3] at hh
      obtain rfl := Option.some.inj hh
      cases hc
  | some j =>
    refine hinv'.resume hh (hc.follow hf) (fun ws hws => ?_) fun hs => ?_
    · subst hws
      have hs : i ≠ .checkRelease → th.skipped = false := fun hi =>
        Bool.eq_false_iff.mpr fun hs => hi (hinv.skippedTodo hs i htodo)
      cases follows_of_follow hf with
      | wrapGuard => cases hc
      | arrive => cases hc
      | spin part peer hca =>
        refine .wait peer hca (hinv.healthy hh ?_ ?_ ?_ ?_ (hs (by simp))).1 <;>
          · rintro rfl
            cases hc
      | releaseStores =>
        refine .release cfg.rank (hinv.healthy hh ?_ ?_ ?_ ?_ (hs (by simp))).1 <;>
          · rintro rfl
            cases hc
      | stores x y ws => exact (hinv.stores _ htodo).tail (List.cons_ne_nil y ws)
    · obtain rfl := hinv.skippedTodo hs _ htodo
      simp only [Instr.follow, Option.ite_none_right_eq_some] at hf
      exact absurd hf.1 (herror (hinv.skipped hs).1)

/-- **The step of a thread.** -/
theorem exec (hinv : ThreadInv L entry M t th) (hcur : th.current L.program = some i)
    (herror : M.poison ≠ 0 → M.error ≠ 0) (hentry : entry.poison ≠ 0 → M.poison ≠ 0)
    (hepoch : th.pc = 0 → M.epoch = entry.epoch)
    (hguard : th.pc = 2 → th.seq = 0 → M.poison ≠ 0) :
    ThreadInv L entry (M.exec t th.seq i) t (th.exec cfg L M b t ok i) := by
  have hinv' : ThreadInv L entry (M.exec t th.seq i) t th :=
    hinv.frame (hinv.poison_ne hcur) (hinv.error_ne hcur)
  cases htodo : th.todo with
  | none =>
    rw [Thread.current, htodo] at hcur
    exact hinv.exec_program htodo hcur hentry hepoch hguard hinv'
  | some j =>
    rw [Thread.current, htodo] at hcur
    obtain rfl := Option.some.inj hcur
    exact hinv.exec_todo htodo herror hinv'

end ThreadInv

/-! ## What a thread has done -/

/-- The instruction at `k` has been executed, if perhaps not all of what it
continues with. -/
def Thread.Done (th : Thread) (k : ℕ) : Prop := k < th.pc ∨ k = th.pc ∧ th.todo.isSome

theorem Thread.exec_cases (cfg : Setting) (L : Launch) (M : Memory) (b t : ℕ) (ok : Bool)
    (th : Thread) (i : Instr) :
    (i = .branch ∧ M.poison ≠ 0 ∧
        th.exec cfg L M b t ok i = { th with pc := L.exit, skipped := true }) ∨
      ∃ seq, (i ≠ .loadEpoch → seq = th.seq) ∧ th.exec cfg L M b t ok i =
        { th.proceed (i.follow cfg L M b t th.seq ok) with seq := seq } := by
  by_cases hload : i = .loadEpoch
  · subst hload
    exact .inr ⟨M.epoch + 1, fun h => absurd rfl h, rfl⟩
  by_cases hbranch : i = .branch
  · subst hbranch
    by_cases hp : M.poison = 0
    · exact .inr ⟨th.seq, fun _ => rfl, if_pos hp⟩
    · exact .inl ⟨rfl, hp, if_neg hp⟩
  · refine .inr ⟨th.seq, fun _ => rfl, ?_⟩
    rw [Thread.exec_eq hload hbranch]
    cases i.follow cfg L M b t th.seq ok <;> rfl

theorem Logged.cons {trace : List Entry} {n b t : ℕ} {op : Instr} (h : Logged trace n b t op)
    (e : Entry) : Logged (e :: trace) n b t op := by
  obtain ⟨f, hf, hop⟩ := h
  exact ⟨f, List.mem_cons_of_mem _ hf, hop⟩

/-- The steps that thread `t` of block `b` has taken in launch `n`. -/
structure LogInv (L : Launch) (n : ℕ) (trace : List Entry) (M : Memory) (b t : ℕ)
    (th : Thread) : Prop where
  logged : th.skipped = false → ∀ k h, L.program[k]? = some h → th.Done k → Logged trace n b t h
  reads : th.skipped = false → ∀ k part, L.program[k]? = some (.data part) → k < th.pc →
    Logged trace n b t (.read part) ∨ M.poison ≠ 0
  arrived : ∀ ctr, Logged trace n b t (.arrive ctr) →
    ∃ k, L.program[k]? = some (.arrive ctr) ∧ th.Done k
  checked : ∀ part, th.todo = some (.publish part) → ∃ e ∈ trace,
    e.launch = n ∧ e.block = b ∧ e.thread = t ∧ e.op = .checkReady part ∧ e.error = 0
  failed : ∀ ws, th.todo = some (.stores ws) → ∃ e ∈ trace, e.launch = n ∧ e.Failed

/-- The barriers a thread is at, or has passed. -/
theorem ThreadInv.pc_le {cfg : Setting} {L : Launch} {entry M : Memory} {b t : ℕ} {th : Thread}
    {ok : Bool} {i : Instr} (hinv : ThreadInv L entry M t th)
    (hcur : th.current L.program = some i) : th.pc ≤ (th.exec cfg L M b t ok i).pc := by
  obtain ⟨rfl, -, hth⟩ | ⟨seq, -, hth⟩ := Thread.exec_cases cfg L M b t ok th i
  · obtain ⟨-, hcur⟩ := hinv.program_of_current (fun h hc => by cases hc) hcur
    rw [hth]
    have hexit := L.exit_bounds
    show th.pc ≤ L.exit
    generalize th.pc = k at hcur
    cases Launch.at_of_program hcur with
    | branch => omega
    | body hj => cases Launch.inBody (List.mem_of_getElem? hj)
  · rw [hth]
    cases i.follow cfg L M b t th.seq ok with
    | none => exact Nat.le_succ _
    | some j => exact Nat.le_refl _

/-- A thread that has taken a step has loaded the epoch. -/
theorem ThreadInv.pc_pos {cfg : Setting} {L : Launch} {entry M : Memory} {b t : ℕ} {th : Thread}
    {ok : Bool} {i : Instr} (hinv : ThreadInv L entry M t th)
    (hcur : th.current L.program = some i) : 0 < (th.exec cfg L M b t ok i).pc := by
  rcases Nat.eq_zero_or_pos th.pc with h0 | hpos
  · cases htodo : th.todo with
    | some j =>
      obtain ⟨h, hh, hc⟩ := hinv.todo j htodo
      rw [h0] at hh
      cases Option.some.inj hh
      cases hc
    | none =>
      rw [Thread.current, htodo, h0] at hcur
      cases Option.some.inj hcur
      exact Nat.succ_pos _
  · exact Nat.lt_of_lt_of_le hpos (hinv.pc_le hcur)

theorem Thread.skipped_of_exec {cfg : Setting} {L : Launch} {M : Memory} {b t : ℕ} {th : Thread}
    {ok : Bool} {i : Instr} (hs : (th.exec cfg L M b t ok i).skipped = false) :
    th.skipped = false ∧ (th.exec cfg L M b t ok i).pc ≤ th.pc + 1 := by
  obtain ⟨rfl, -, hth⟩ | ⟨seq, -, hth⟩ := Thread.exec_cases cfg L M b t ok th i
  · rw [hth] at hs
    cases hs
  · rw [hth] at hs ⊢
    cases hf : i.follow cfg L M b t th.seq ok with
    | none =>
      rw [hf] at hs
      exact ⟨hs, Nat.le_refl _⟩
    | some j =>
      rw [hf] at hs
      exact ⟨hs, Nat.le_succ _⟩

namespace LogInv

variable {cfg : Setting} {L : Launch} {n : ℕ} {trace : List Entry} {entry M M' : Memory}
  {b t : ℕ} {th : Thread} {ok : Bool} {i : Instr}

theorem start (htrace : ∀ e ∈ trace, e.launch ≠ n) : LogInv L n trace M b t .start where
  logged _ k _ _ hk := by
    obtain hk | ⟨-, hk⟩ := hk
    · exact absurd hk (Nat.not_lt_zero k)
    · cases hk
  reads _ k _ _ hk := absurd hk (Nat.not_lt_zero k)
  arrived ctr h := by
    obtain ⟨e, he, hn, -⟩ := h
    exact absurd hn (htrace e he)
  checked _ h := by cases h
  failed _ h := by cases h

/-- Steps of the other threads. -/
theorem frame (hlog : LogInv L n trace M b t th) {e : Entry}
    (he : ¬(e.launch = n ∧ e.block = b ∧ e.thread = t)) (hpoison : M.poison ≠ 0 → M'.poison ≠ 0) :
    LogInv L n (e :: trace) M' b t th where
  logged hs k h hk hdone := (hlog.logged hs k h hk hdone).cons e
  reads hs k part hk hdone := (hlog.reads hs k part hk hdone).imp (fun h => h.cons e) hpoison
  arrived ctr h := by
    obtain ⟨f, hf, hn, hb, ht, hop⟩ := h
    obtain rfl | hf := List.mem_cons.mp hf
    · exact absurd ⟨hn, hb, ht⟩ he
    · exact hlog.arrived ctr ⟨f, hf, hn, hb, ht, hop⟩
  checked part h := by
    obtain ⟨f, hf, hop⟩ := hlog.checked part h
    exact ⟨f, List.mem_cons_of_mem _ hf, hop⟩
  failed ws h := by
    obtain ⟨f, hf, hop⟩ := hlog.failed ws h
    exact ⟨f, List.mem_cons_of_mem _ hf, hop⟩

/-- The thread skips the body. -/
theorem skip (hlog : LogInv L n trace M b t th) (hpc : th.pc = 3) (htodo : th.todo = none)
    {e : Entry} (he : e.op = .branch) :
    LogInv L n (e :: trace) M' b t { th with pc := L.exit, skipped := true } where
  logged hs := by cases hs
  reads hs := by cases hs
  arrived ctr h := by
    obtain ⟨f, hf, hn, hb, ht, hop⟩ := h
    obtain rfl | hf := List.mem_cons.mp hf
    · cases he.symm.trans hop
    · obtain ⟨k, hk, hdone | ⟨-, hdone⟩⟩ := hlog.arrived ctr ⟨f, hf, hn, hb, ht, hop⟩
      · have hexit := L.exit_bounds
        exact ⟨k, hk, .inl (show k < L.exit by omega)⟩
      · rw [htodo] at hdone
        cases hdone
  checked _ h := by cases htodo.symm.trans h
  failed _ h := by cases htodo.symm.trans h

theorem done_proceed {k : ℕ} {o : Option Instr} {seq : UInt32} (h : th.Done k) :
    Thread.Done { th.proceed o with seq := seq } k := by
  cases o with
  | none =>
    refine .inl (Nat.lt_succ_of_le ?_)
    exact h.elim Nat.le_of_lt fun h => Nat.le_of_eq h.1
  | some j =>
    obtain h | ⟨h, -⟩ := h
    · exact .inl h
    · exact .inr ⟨h, rfl⟩

theorem of_done_proceed {k : ℕ} {o : Option Instr} {seq : UInt32}
    (h : Thread.Done { th.proceed o with seq := seq } k) (hk : ¬th.Done k) :
    k = th.pc ∧ th.todo = none := by
  have hpc : k = th.pc := by
    cases o with
    | none =>
      obtain h | ⟨-, h⟩ := h
      · exact (Nat.lt_succ_iff_lt_or_eq.mp h).resolve_left fun h => hk (.inl h)
      · cases h
    | some j => exact (h.resolve_left fun h => hk (.inl h)).1
  refine ⟨hpc, ?_⟩
  cases htodo : th.todo with
  | none => rfl
  | some j => exact absurd (.inr ⟨hpc, htodo ▸ rfl⟩) hk

/-- **The step of a thread**, in the log. -/
theorem exec (hinv : ThreadInv L entry M t th) (hlog : LogInv L n trace M b t th)
    (hcur : th.current L.program = some i) :
    LogInv L n (⟨n, b, t, i, ok, (th.exec cfg L M b t ok i).seq, M.error⟩ :: trace)
      (M.exec t th.seq i) b t (th.exec cfg L M b t ok i) := by
  have hnew : ∀ {seq}, Logged (⟨n, b, t, i, ok, seq, M.error⟩ :: trace) n b t i :=
    fun {_} => ⟨_, List.mem_cons_self, rfl, rfl, rfl, rfl⟩
  obtain ⟨rfl, -, hth⟩ | ⟨seq, hseq, hth⟩ := Thread.exec_cases cfg L M b t ok th i
  · obtain ⟨htodo, hcur⟩ := hinv.program_of_current (fun h hc => by cases hc) hcur
    have hpc : th.pc = 3 := by
      generalize th.pc = k at hcur
      cases Launch.at_of_program hcur with
      | branch => rfl
      | body hj => cases Launch.inBody (List.mem_of_getElem? hj)
    rw [hth]
    exact hlog.skip hpc htodo rfl
  rw [hth]
  have hskip : Thread.skipped { th.proceed (i.follow cfg L M b t th.seq ok) with seq := seq } =
      th.skipped := by
    cases i.follow cfg L M b t th.seq ok <;> rfl
  refine ⟨fun hs k h hk hdone => ?_, fun hs k part hk hlt => ?_, fun ctr h => ?_,
    fun part hpublish => ?_, fun ws hstores => ?_⟩
  · by_cases hold : th.Done k
    · exact (hlog.logged (hskip ▸ hs) k h hk hold).cons _
    · obtain ⟨rfl, htodo⟩ := of_done_proceed hdone hold
      rw [Thread.current, htodo, hk] at hcur
      exact Option.some.inj hcur ▸ hnew
  · by_cases hold : k < th.pc
    · exact (hlog.reads (hskip ▸ hs) k part hk hold).imp (fun h => h.cons _)
        (hinv.poison_ne hcur)
    · cases hf : i.follow cfg L M b t th.seq ok with
      | some j =>
        rw [hf] at hlt
        exact absurd hlt hold
      | none =>
        rw [hf] at hlt
        obtain rfl : k = th.pc := Nat.le_antisymm (Nat.lt_succ_iff.mp hlt) (Nat.not_lt.mp hold)
        cases htodo : th.todo with
        | none =>
          rw [Thread.current, htodo, hk] at hcur
          obtain rfl := Option.some.inj hcur
          refine .inr fun hp => ?_
          rw [exec_poison (by simp)] at hp
          rw [Instr.follow, if_pos hp] at hf
          cases hf
        | some j =>
          rw [Thread.current, htodo] at hcur
          obtain ⟨h, hh, hc⟩ := hinv.todo j htodo
          cases hk.symm.trans hh
          cases hc
          exact .inl (Option.some.inj hcur ▸ hnew)
  · obtain ⟨f, hf, hn, hb, ht, hop⟩ := h
    obtain rfl | hf := List.mem_cons.mp hf
    · obtain rfl : i = .arrive ctr := hop
      obtain ⟨-, hk⟩ := hinv.program_of_current (fun h hc => by cases hc) hcur
      refine ⟨th.pc, hk, ?_⟩
      cases Instr.follow cfg L M b t th.seq ok (.arrive ctr) with
      | none => exact .inl (Nat.lt_succ_self _)
      | some j => exact .inr ⟨rfl, rfl⟩
    · obtain ⟨k, hk, hdone⟩ := hlog.arrived ctr ⟨f, hf, hn, hb, ht, hop⟩
      exact ⟨k, hk, done_proceed hdone⟩
  · cases hf : i.follow cfg L M b t th.seq ok with
    | none =>
      rw [hf] at hpublish
      cases hpublish
    | some j =>
      rw [hf] at hpublish
      obtain rfl := Option.some.inj hpublish
      cases follows_of_follow hf with
      | @arrive ctr _ _ _ hj => cases ctr <;> cases hj
      | checkReady part he => exact ⟨_, List.mem_cons_self, rfl, rfl, rfl, rfl, he⟩
  · cases hf : i.follow cfg L M b t th.seq ok with
    | none =>
      rw [hf] at hstores
      cases hstores
    | some j =>
      rw [hf] at hstores
      obtain rfl := Option.some.inj hstores
      cases follows_of_follow hf with
      | @arrive ctr _ _ _ hj => cases ctr <;> cases hj
      | wrapGuard hzero => exact ⟨_, List.mem_cons_self, rfl, .inr ((hseq (by simp)).trans hzero)⟩
      | spin _ _ _ hok => exact ⟨_, List.mem_cons_self, rfl, .inl ⟨hok, trivial⟩⟩
      | releaseStores hok => exact ⟨_, List.mem_cons_self, rfl, .inl ⟨hok, trivial⟩⟩
      | stores x y ws =>
        obtain ⟨f, hf, hfail⟩ :=
          hlog.failed _ (ThreadInv.todo_of_current ⟨_, .wrapGuard _⟩ hcur)
        exact ⟨f, List.mem_cons_of_mem _ hf, hfail⟩

end LogInv

end PoisonGuard
