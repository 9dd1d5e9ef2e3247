import Mathlib.Data.List.Nodup
import SparkTP4.RoceTransport

/-!
# The RoCE transport: the invariants of one rank

A step of the system is a step of one rank that its peers do not see, a posted
write, a pack that lands, or a flag that lands (`Moves`). This module has the
invariants that speak about one rank only (`RankInv`): what its kernel has run
and written (`KernelInv`), where its proxy is (`ProxyInv`), and the records the
proxy has yet to read. They are kept by every step of the rank, the last one
as long as the kernel is at most two operations ahead of the proxy.
-/

namespace RoceTransport

open Striping

variable {W H : ℕ} {V : Type} {cfg : Setting W H V} {S S' : State W H V} {r : Fin W}

/-! ## The steps of the system -/

/-- A step of rank `r` that leaves the queues as they are, and the rank after it. -/
inductive RankStep (cfg : Setting W H V) (S : State W H V) (r : Fin W) : Rank W H V → Prop
  | exec (t : Task W H) (hnew : t ∉ (S.rank r).done)
      (hneeds : Needs cfg r (S.rank r).op (S.rank r).done t) (hguard : Guard S r t) :
      RankStep cfg S r ((S.rank r).exec cfg r (S.inbox r) t)
  | timeout : RankStep cfg S r { S.rank r with error := true }
  | finish (hall : AllDone cfg r (S.rank r).op (S.rank r).done)
      (hpipe : (cfg.op (S.rank r).op).kind = .twoshot → (S.rank r).pipeDone = (S.rank r).op) :
      RankStep cfg S r { S.rank r with op := (S.rank r).op + 1, done := [] }
  | stay : RankStep cfg S r (S.rank r)
  | fail : RankStep cfg S r { S.rank r with failed := true }
  | poll (hidle : (S.rank r).proxy = .idle) (hne : (S.rank r).seq ≠ (S.rank r).lastSeq) :
      RankStep cfg S r { S.rank r with proxy := .fetch (S.rank r).seq 0 .empty }
  | fetch {upto k : ℕ} {rc : Record} {proxy : Proxy W H}
      (hproxy : (S.rank r).proxy = .fetch upto k rc)
      (hnext : fetchNext cfg ((S.rank r).record (slotOf ((S.rank r).lastSeq + 1))) r upto k rc
        = some proxy) : RankStep cfg S r { S.rank r with proxy := proxy }
  | commit {upto rs ag : ℕ} {rc : Record} {part : Part}
      (hproxy : (S.rank r).proxy = .post upto rc rs ag part []) (hkind : rc.kind = .oneshot) :
      RankStep cfg S r { S.rank r with
        lastSeq := (S.rank r).lastSeq + 1, proxy := nextOp upto ((S.rank r).lastSeq + 1) }
  | chooseRs {upto rs ag : ℕ} {rc : Record} {part : Part}
      (hproxy : (S.rank r).proxy = .post upto rc rs ag part []) (hkind : rc.kind = .twoshot)
      (hrs : rs < rc.chunks) (hready : (S.rank r).ready (.rs rs) = (S.rank r).lastSeq + 1) :
      RankStep cfg S r { S.rank r with
        proxy := .post upto rc (rs + 1) ag (.rs rs) (targets r) }
  | chooseAg {upto rs ag : ℕ} {rc : Record} {part : Part}
      (hproxy : (S.rank r).proxy = .post upto rc rs ag part []) (hkind : rc.kind = .twoshot)
      (hag : ag < rc.chunks) (hready : (S.rank r).ready (.ag ag) = (S.rank r).lastSeq + 1) :
      RankStep cfg S r { S.rank r with
        proxy := .post upto rc rs (ag + 1) (.ag ag) (targets r) }
  | release {upto rs ag : ℕ} {rc : Record} {part : Part}
      (hproxy : (S.rank r).proxy = .post upto rc rs ag part []) (hkind : rc.kind = .twoshot)
      (hrs : rc.chunks ≤ rs) (hag : rc.chunks ≤ ag) (hdrained : ∀ q h, S.queue r q h = []) :
      RankStep cfg S r { S.rank r with
        pipeDone := (S.rank r).lastSeq + 1, lastSeq := (S.rank r).lastSeq + 1
        proxy := nextOp upto ((S.rank r).lastSeq + 1) }

/-- A step of the system, and the state after it. -/
inductive Moves (cfg : Setting W H V) (S : State W H V) : State W H V → Prop
  | rank (r : Fin W) {R : Rank W H V} (hstep : RankStep cfg S r R) : Moves cfg S (S.setRank r R)
  | post (r : Fin W) {upto rs ag : ℕ} {rc : Record} {part : Part} {q : Fin W} {h : Fin H}
      {todo : List (Fin W × Fin H)}
      (hproxy : (S.rank r).proxy = .post upto rc rs ag part ((q, h) :: todo)) :
      Moves cfg S { S.setRank r { S.rank r with proxy := .post upto rc rs ag part todo } with
        queue := write S.queue r q h
          (S.queue r q h ++ [rc.msg ((S.rank r).lastSeq + 1) part r q h]) }
  | pack (p q : Fin W) (h : Fin H) {m : Msg} {rest : List Msg} {i : ℕ}
      (hqueue : S.queue p q h = m :: rest) (hi : i ∈ m.todo) :
      Moves cfg S { S with
        recv := write S.recv (q, p) (regionOf m.op m.part) (i - m.base)
          ((S.rank p).send (sourceOf m.op m.part) i)
        queue := write S.queue p q h ({ m with todo := m.todo.filter (· ≠ i) } :: rest) }
  | flag (p q : Fin W) (h : Fin H) {m : Msg} {rest : List Msg}
      (hqueue : S.queue p q h = m :: rest) (htodo : m.todo = []) :
      Moves cfg S { S with
        flag := write S.flag (q, p) (cellOf m.op m.part) h m.op
        queue := write S.queue p q h rest }

theorem rankStep_poll {R : Rank W H V} (h : (S.rank r).poll = some R) : RankStep cfg S r R := by
  unfold Rank.poll at h
  split at h
  case h_1 hproxy =>
    split_ifs at h with heq hlt
    · exact Option.some.inj h ▸ .stay
    · exact Option.some.inj h ▸ .fail
    · exact Option.some.inj h ▸ .poll hproxy heq
  case h_2 => exact absurd h.symm (Option.some_ne_none R)

theorem rankStep_fetch {R : Rank W H V} (h : (S.rank r).fetch cfg r = some R) :
    RankStep cfg S r R := by
  unfold Rank.fetch at h
  split at h
  case h_1 hproxy =>
    split at h
    case h_1 hnext => exact Option.some.inj h ▸ .fetch hproxy hnext
    case h_2 => exact Option.some.inj h ▸ .fail
  case h_2 => exact absurd h.symm (Option.some_ne_none R)

theorem rankStep_commit {R : Rank W H V} (h : (S.rank r).commit = some R) :
    RankStep cfg S r R := by
  unfold Rank.commit at h
  split at h
  case h_1 hproxy =>
    split_ifs at h with hkind
    exact Option.some.inj h ▸ .commit hproxy hkind
  case h_2 => exact absurd h.symm (Option.some_ne_none R)

theorem rankStep_choose {R : Rank W H V} {gather : Bool}
    (h : (S.rank r).choose r gather = some R) : RankStep cfg S r R := by
  unfold Rank.choose at h
  split at h
  case h_1 hproxy =>
    split_ifs at h with hkind hgather hag hrs
    · exact Option.some.inj h ▸ .chooseAg hproxy hkind hag.1 hag.2
    · exact Option.some.inj h ▸ .chooseRs hproxy hkind hrs.1 hrs.2
  case h_2 => exact absurd h.symm (Option.some_ne_none R)

theorem rankStep_release {R : Rank W H V} (h : (S.rank r).release (S.drained r) = some R) :
    RankStep cfg S r R := by
  unfold Rank.release at h
  split at h
  case h_1 hproxy =>
    split_ifs at h with hcond
    obtain ⟨hkind, hrs, hag, hdrained⟩ := hcond
    have hempty : ∀ (q : Fin W) (h : Fin H), (S.queue r q h).length = 0 :=
      of_decide_eq_true hdrained
    exact Option.some.inj h ▸
      .release hproxy hkind hrs hag (fun q h => List.length_eq_zero_iff.mp (hempty q h))
  case h_2 => exact absurd h.symm (Option.some_ne_none R)

theorem rankStep_abandon {R : Rank W H V} (h : (S.rank r).abandon = some R) :
    RankStep cfg S r R := by
  unfold Rank.abandon at h
  split at h
  case h_1 =>
    split_ifs at h
    exact Option.some.inj h ▸ .fail
  case h_2 => exact absurd h.symm (Option.some_ne_none R)

theorem rankStep_finish {R : Rank W H V} (h : (S.rank r).finish cfg r = some R) :
    RankStep cfg S r R := by
  unfold Rank.finish at h
  split_ifs at h with hcond
  exact Option.some.inj h ▸ .finish hcond.2.1 hcond.2.2

theorem moves_of_byProxy {f : Rank W H V → Option (Rank W H V)}
    (hf : ∀ R, f (S.rank r) = some R → RankStep cfg S r R) (h : S.byProxy r f = some S') :
    Moves cfg S S' := by
  unfold State.byProxy at h
  split_ifs at h
  obtain ⟨R, hR, rfl⟩ := Option.map_eq_some_iff.mp h
  exact .rank r (hf R hR)

theorem moves_of_post (h : S.post r = some S') : Moves cfg S S' := by
  unfold State.post at h
  split_ifs at h
  obtain ⟨⟨R, q, h', m⟩, hwrite, rfl⟩ := Option.map_eq_some_iff.mp h
  unfold Rank.nextWrite at hwrite
  split at hwrite
  case h_1 hproxy =>
    cases Option.some.inj hwrite
    exact .post r hproxy
  case h_2 => exact absurd hwrite.symm (Option.some_ne_none _)

theorem moves_of_deliver {p q : Fin W} {h : Fin H} {i : Option ℕ}
    (hstep : S.deliver p q h i = some S') : Moves cfg S S' := by
  unfold State.deliver at hstep
  split at hstep
  case h_1 => exact absurd hstep.symm (Option.some_ne_none S')
  case h_2 hqueue =>
    split_ifs at hstep with hi
    exact Option.some.inj hstep ▸ .pack p q h hqueue hi
  case h_3 hqueue =>
    split_ifs at hstep with htodo
    exact Option.some.inj hstep ▸ .flag p q h hqueue (List.length_eq_zero_iff.mp htodo)

/-- **What a step can do.** -/
theorem moves_of_step {a : Action W H} (h : step cfg S a = some S') : Moves cfg S S' := by
  cases a with
  | exec r t =>
    simp only [step] at h
    split_ifs at h with hcond
    exact Option.some.inj h ▸ .rank r (.exec t hcond.1 hcond.2.1 hcond.2.2)
  | timeout r => exact Option.some.inj h ▸ .rank r .timeout
  | finish r =>
    obtain ⟨R, hR, rfl⟩ := Option.map_eq_some_iff.mp h
    exact .rank r (rankStep_finish hR)
  | poll r => exact moves_of_byProxy (fun _ => rankStep_poll) h
  | fetch r => exact moves_of_byProxy (fun _ => rankStep_fetch) h
  | post r => exact moves_of_post h
  | commit r => exact moves_of_byProxy (fun _ => rankStep_commit) h
  | choose r gather => exact moves_of_byProxy (fun _ => rankStep_choose) h
  | release r => exact moves_of_byProxy (fun _ => rankStep_release) h
  | abandon r => exact moves_of_byProxy (fun _ => rankStep_abandon) h
  | deliver p q h' i => exact moves_of_deliver h

/-! ## Tasks that have run -/

/-- Task `t` of operation `n` has run, or the kernel has finished the operation. -/
def Rank.Past (R : Rank W H V) (n : ℕ) (t : Task W H) : Prop := n < R.op ∨ n = R.op ∧ t ∈ R.done

/-- Rank `R'` is `R` after some tasks of its kernel. -/
structure Rank.Later (R R' : Rank W H V) : Prop where
  past : ∀ n t, R.Past n t → R'.Past n t
  seq : R.seq ≤ R'.seq

theorem Sees.mono {D D' : List (Task W H)} (hD : ∀ t ∈ D, t ∈ D') {b : ℕ} {part : Part}
    (h : Sees r D b part) : Sees r D' b part :=
  fun p hp k => hD _ (h p hp k)

/-- More tasks that have run allow more tasks. -/
theorem Needs.mono {n : ℕ} {D D' : List (Task W H)} (hD : ∀ t ∈ D, t ∈ D') {t : Task W H}
    (h : Needs cfg r n D t) : Needs cfg r n D' t := by
  match t with
  | .stage _ _ => exact h
  | .setNbytes => exact fun hkind i hi => hD _ (h hkind i hi)
  | .setKind => exact fun hkind i hi => hD _ (h hkind i hi)
  | .setChunkPacks => exact h
  | .setChunks => exact h
  | .ring => exact ⟨hD _ h.1, hD _ h.2.1, fun hkind => (h.2.2 hkind).imp (hD _) (hD _)⟩
  | .publish .one => exact h
  | .publish (.rs c) => exact ⟨h.1, fun j hj i hi => hD _ (h.2 j hj i hi)⟩
  | .publish (.ag c) => exact ⟨h.1, fun b hb => (h.2.1 b hb).mono hD, fun i hi => hD _ (h.2.2 i hi)⟩
  | .see _ _ _ _ => exact ⟨h.1, h.2.1, h.2.2.1, fun hkind i hi hb => hD _ (h.2.2.2 hkind i hi hb)⟩
  | .read _ _ _ => exact ⟨h.1, h.2.1, h.2.2.1, h.2.2.2.mono hD⟩
  | .store _ _ => exact ⟨h.1, h.2.1, fun p hp => hD _ (h.2.2 p hp)⟩

section Exec

variable {inbox : Fin W → Region → ℕ → V} {R : Rank W H V} {t : Task W H}

@[simp] theorem exec_op : (R.exec cfg r inbox t).op = R.op := by cases t <;> rfl

@[simp] theorem exec_done : (R.exec cfg r inbox t).done = t :: R.done := by cases t <;> rfl

@[simp] theorem exec_pipeDone : (R.exec cfg r inbox t).pipeDone = R.pipeDone := by cases t <;> rfl

@[simp] theorem exec_lastSeq : (R.exec cfg r inbox t).lastSeq = R.lastSeq := by cases t <;> rfl

@[simp] theorem exec_proxy : (R.exec cfg r inbox t).proxy = R.proxy := by cases t <;> rfl

theorem exec_seq : (R.exec cfg r inbox t).seq = if t = .ring then R.op else R.seq := by
  cases t <;> rfl

theorem exec_past {n : ℕ} {t' : Task W H} :
    (R.exec cfg r inbox t).Past n t' ↔ R.Past n t' ∨ n = R.op ∧ t' = t := by
  unfold Rank.Past
  rw [exec_op, exec_done, List.mem_cons]
  tauto

/-- Only the other slot of the record is sure to stay. -/
theorem exec_record {k : ℕ} (hk : k ≠ slotOf R.op) :
    (R.exec cfg r inbox t).record k = R.record k := by
  cases t <;> first | rfl | exact Function.update_of_ne hk _ _

theorem exec_ready {part : Part} : (R.exec cfg r inbox t).ready part =
    if t = .publish part then R.op else R.ready part := by
  cases t with
  | publish part' =>
    show Function.update R.ready part' R.op part = _
    by_cases hpart : part = part'
    · rw [hpart, Function.update_self, if_pos rfl]
    · rw [Function.update_of_ne hpart, if_neg (fun h => hpart (Task.publish.inj h).symm)]
  | _ => rfl

end Exec

/-! ## The kernel -/

/-- The word a task writes into the record is the one of the operation. -/
def Written (o : Op) (rc : Record) : Task W H → Prop
  | .setNbytes => rc.nbytes = o.record.nbytes
  | .setKind => rc.kind = o.kind
  | .setChunkPacks => rc.chunkPacks = o.chunkPacks
  | .setChunks => rc.chunks = o.chunks
  | _ => True

/-- **What the kernel of rank `r` has run and written.** -/
structure KernelInv (cfg : Setting W H V) (r : Fin W) (R : Rank W H V) : Prop where
  op_pos : 1 ≤ R.op
  rung : Task.ring ∈ R.done → R.seq = R.op
  unrung : Task.ring ∉ R.done → R.seq + 1 = R.op
  needs : ∀ t ∈ R.done, Needs cfg r R.op R.done t
  words : ∀ t ∈ R.done, Written (cfg.op R.op) (R.record (slotOf R.op)) t
  ready : ∀ part, R.ready part ≠ 0 → R.Past (R.ready part) (.publish part)
  slots : ∀ n i, 1 ≤ n → R.op ≤ n + 1 → (cfg.op n).kind = .oneshot → i < (cfg.op n).packs →
    R.Past n (.stage 0 i) → R.send (.slot (slotOf n)) i = cfg.input r n i
  staged : ∀ c i, (cfg.op R.op).kind = .twoshot → Task.stage c i ∈ R.done →
    R.send .pipe i = cfg.input r R.op i
  stored : ∀ c i, Task.store c i ∈ R.done → R.send .pipe i =
    cfg.combine (fun q => if q = r then cfg.input r R.op i else R.got (.rs c, q) i)

namespace KernelInv

variable {R : Rank W H V}

theorem start : KernelInv cfg r (.start cfg.garbage) where
  op_pos := Nat.le_refl 1
  rung h := absurd h List.not_mem_nil
  unrung _ := rfl
  needs t h := absurd h List.not_mem_nil
  words t h := absurd h List.not_mem_nil
  ready part h := absurd rfl h
  slots n i hn _ _ _ hpast := by
    rcases hpast with hlt | ⟨-, hmem⟩
    · exact absurd hlt (Nat.not_lt.mpr hn)
    · exact absurd hmem List.not_mem_nil
  staged c i _ h := absurd h List.not_mem_nil
  stored c i h := absurd h List.not_mem_nil

/-- The doorbell is rung after the packs of a one-shot operation are staged. -/
theorem staged_of_ring (h : KernelInv cfg r R) (hring : Task.ring ∈ R.done)
    (hkind : (cfg.op R.op).kind = .oneshot) {i : ℕ} (hi : i < (cfg.op R.op).packs) :
    Task.stage 0 i ∈ R.done :=
  h.needs _ (h.needs _ hring).1 hkind i hi

/-- The doorbell is rung after the record is written. -/
theorem record_of_ring (h : KernelInv cfg r R) (hring : Task.ring ∈ R.done) :
    (R.record (slotOf R.op)).nbytes = (cfg.op R.op).record.nbytes ∧
      (R.record (slotOf R.op)).kind = (cfg.op R.op).kind ∧
      ((cfg.op R.op).kind = .twoshot →
        (R.record (slotOf R.op)).chunkPacks = (cfg.op R.op).chunkPacks ∧
        (R.record (slotOf R.op)).chunks = (cfg.op R.op).chunks) := by
  obtain ⟨hnbytes, hkind, htwo⟩ := h.needs _ hring
  exact ⟨h.words _ hnbytes, h.words _ hkind,
    fun h2 => ⟨h.words _ (htwo h2).1, h.words _ (htwo h2).2⟩⟩

/-- A staged pack is none of the own shard. -/
theorem not_own (htwo : (cfg.op R.op).kind = .twoshot) {c i c' : ℕ}
    (hstage : Needs cfg r R.op R.done (.stage c i))
    (hown : i ∈ (cfg.op R.op).chunkOf W r c') : False := by
  unfold Needs at hstage
  rw [htwo] at hstage
  obtain ⟨-, j, hj, hi⟩ := hstage
  exact hj (Fin.ext (shard_unique hi hown))

theorem seq_le (h : KernelInv cfg r R) : R.seq ≤ R.op := by
  by_cases hring : Task.ring ∈ R.done
  · exact Nat.le_of_eq (h.rung hring)
  · exact Nat.le_of_lt (Nat.lt_of_succ_le (Nat.le_of_eq (h.unrung hring)))

theorem op_le_seq (h : KernelInv cfg r R) : R.op ≤ R.seq + 1 := by
  by_cases hring : Task.ring ∈ R.done
  · exact Nat.le_succ_of_le (Nat.le_of_eq (h.rung hring).symm)
  · exact Nat.le_of_eq (h.unrung hring).symm

theorem written_exec (h : KernelInv cfg r R) {inbox : Fin W → Region → ℕ → V} {t t' : Task W H}
    (ht' : t' ∈ t :: R.done) :
    Written (cfg.op R.op) ((R.exec cfg r inbox t).record (slotOf R.op)) t' := by
  have hold : t' ≠ t → Written (cfg.op R.op) (R.record (slotOf R.op)) t' :=
    fun hne => h.words t' ((List.mem_cons.mp ht').resolve_left hne)
  cases t
  -- a written word is right, the others stay
  case setNbytes | setKind | setChunkPacks | setChunks =>
    show Written _ (Function.update R.record (slotOf R.op) _ (slotOf R.op)) t'
    rw [Function.update_self]
    cases t' <;> first | rfl | exact hold (by simp)
  all_goals
    show Written _ (R.record (slotOf R.op)) t'
    cases t' <;> first | trivial | exact hold (by simp)

theorem slots_exec (h : KernelInv cfg r R) {inbox : Fin W → Region → ℕ → V} {t : Task W H}
    {n i : ℕ} (hn : 1 ≤ n) (hle : R.op ≤ n + 1) (hkind : (cfg.op n).kind = .oneshot)
    (hi : i < (cfg.op n).packs) (hpast : (R.exec cfg r inbox t).Past n (.stage 0 i)) :
    (R.exec cfg r inbox t).send (.slot (slotOf n)) i = cfg.input r n i := by
  have hop : n ≤ R.op := by
    rcases hpast with hlt | ⟨heq, -⟩
    · exact Nat.le_of_lt (lt_of_lt_of_eq hlt exec_op)
    · exact Nat.le_of_eq (heq.trans exec_op)
  have hold : (n = R.op → Task.stage 0 i ≠ t) → R.send (.slot (slotOf n)) i = cfg.input r n i := by
    intro hne
    rcases exec_past.mp hpast with hpast | ⟨heq, heqt⟩
    · exact h.slots n i hn hle hkind hi hpast
    · exact absurd heqt (hne heq)
  cases t
  case stage c j =>
    show put R.send ((cfg.op R.op).kind.stageTo R.op) j (cfg.input r R.op j) _ _ = _
    unfold put
    split_ifs with hput
    · obtain ⟨hslot, rfl⟩ := hput
      suffices heq : n = R.op by rw [heq]
      -- the other slot belongs to the operation before
      cases hkind' : (cfg.op R.op).kind
      · rw [hkind'] at hslot
        have hparity : n % 2 = R.op % 2 := Source.slot.inj hslot
        omega
      · rw [hkind'] at hslot
        exact absurd hslot (by simp [Kind.stageTo])
    · refine hold (fun heq hstage => hput ?_)
      obtain ⟨-, rfl⟩ := Task.stage.inj hstage
      rw [← heq, hkind]
      exact ⟨rfl, rfl⟩
  case store c j =>
    show put R.send .pipe j (cfg.combine (fun q => if q = r then cfg.input r R.op j else
      R.got (.rs c, q) j)) (.slot (slotOf n)) i = _
    unfold put
    rw [if_neg (by simp)]
    exact hold (by simp)
  all_goals exact hold (by simp)

theorem staged_exec (h : KernelInv cfg r R) {inbox : Fin W → Region → ℕ → V} {t : Task W H}
    (hneeds : Needs cfg r R.op R.done t) {c i : ℕ} (htwo : (cfg.op R.op).kind = .twoshot)
    (hmem : Task.stage c i ∈ t :: R.done) :
    (R.exec cfg r inbox t).send .pipe i = cfg.input r R.op i := by
  have hold : Task.stage c i ≠ t → R.send .pipe i = cfg.input r R.op i :=
    fun hne => h.staged c i htwo ((List.mem_cons.mp hmem).resolve_left hne)
  cases t
  case stage c' j =>
    show put R.send ((cfg.op R.op).kind.stageTo R.op) j (cfg.input r R.op j) _ _ = _
    unfold put
    split_ifs with hput
    · rw [hput.2]
    · refine hold (fun hstage => hput ?_)
      obtain ⟨-, rfl⟩ := Task.stage.inj hstage
      rw [htwo]
      exact ⟨rfl, rfl⟩
  case store c' j =>
    show put R.send .pipe j (cfg.combine _) _ _ = _
    unfold put
    have hstage : Task.stage c i ∈ R.done := (List.mem_cons.mp hmem).resolve_left (by simp)
    split_ifs with hput
    · exact absurd (hput.2 ▸ hneeds.2.1) (not_own htwo (h.needs _ hstage))
    · exact hold (by simp)
  all_goals exact hold (by simp)

theorem stored_exec (h : KernelInv cfg r R) {inbox : Fin W → Region → ℕ → V} {t : Task W H}
    (hnew : t ∉ R.done) (hneeds : Needs cfg r R.op R.done t) {c i : ℕ}
    (hmem : Task.store c i ∈ t :: R.done) :
    (R.exec cfg r inbox t).send .pipe i = cfg.combine (fun q => if q = r then cfg.input r R.op i
      else (R.exec cfg r inbox t).got (.rs c, q) i) := by
  have hold : Task.store c i ≠ t → Task.store c i ∈ R.done :=
    fun hne => (List.mem_cons.mp hmem).resolve_left hne
  cases t
  case stage c' j =>
    have hstore := h.needs _ (hold (by simp))
    show put R.send ((cfg.op R.op).kind.stageTo R.op) j (cfg.input r R.op j) _ _ = _
    unfold put
    rw [if_neg]
    · exact h.stored c i (hold (by simp))
    · rintro ⟨-, rfl⟩
      exact not_own hstore.1.1 hneeds hstore.2.1
  case store c' j =>
    show put R.send .pipe j (cfg.combine _) _ _ = cfg.combine (fun q => if q = r then _ else R.got _ _)
    unfold put
    split_ifs with hput
    · obtain ⟨-, rfl⟩ := hput
      by_cases heq : (Task.store c i : Task W H) = .store c' i
      · rw [(Task.store.inj heq).1]
      · rw [chunk_unique (h.needs _ (hold heq)).2.1 hneeds.2.1]
    · refine h.stored c i (hold (fun hstore => hput ?_))
      exact ⟨rfl, (Task.store.inj hstore).2⟩
  case read part p j =>
    have hstore := hold (by simp)
    refine (h.stored c i hstore).trans (congrArg cfg.combine (funext (fun q => ?_)))
    by_cases hq : q = r
    · rw [if_pos hq, if_pos hq]
    · rw [if_neg hq, if_neg hq]
      show _ = put R.got (part, p) j _ _ _
      unfold put
      rw [if_neg]
      -- a reduced pack has been read before
      rintro ⟨hpart, rfl⟩
      obtain ⟨rfl, rfl⟩ := Prod.mk.inj hpart
      exact hnew ((h.needs _ hstore).2.2 q hq)
  all_goals exact h.stored c i (hold (by simp))

/-- The kernel invariant is kept by a task. -/
theorem exec (h : KernelInv cfg r R) (inbox : Fin W → Region → ℕ → V) {t : Task W H}
    (hnew : t ∉ R.done) (hneeds : Needs cfg r R.op R.done t) :
    KernelInv cfg r (R.exec cfg r inbox t) where
  op_pos := by
    rw [exec_op]
    exact h.op_pos
  rung hring := by
    rw [exec_seq, exec_op]
    split_ifs with ht
    · rfl
    · rw [exec_done] at hring
      exact h.rung ((List.mem_cons.mp hring).resolve_left (Ne.symm ht))
  unrung hring := by
    rw [exec_done, List.mem_cons, not_or] at hring
    rw [exec_seq, exec_op, if_neg (Ne.symm hring.1)]
    exact h.unrung hring.2
  needs t' ht' := by
    rw [exec_done] at ht'
    rw [exec_op, exec_done]
    refine Needs.mono (fun _ => List.mem_cons_of_mem t) ?_
    rcases List.mem_cons.mp ht' with rfl | hmem
    · exact hneeds
    · exact h.needs t' hmem
  words t' ht' := by
    rw [exec_done] at ht'
    rw [exec_op]
    exact h.written_exec ht'
  ready part hready := by
    rw [exec_past]
    rw [exec_ready] at hready ⊢
    split_ifs at hready ⊢ with ht
    · exact Or.inr ⟨rfl, ht.symm⟩
    · exact Or.inl (h.ready part hready)
  slots n i hn hle hkind hi hpast := by
    rw [exec_op] at hle
    exact h.slots_exec hn hle hkind hi hpast
  staged c i htwo hmem := by
    rw [exec_op] at htwo ⊢
    rw [exec_done] at hmem
    exact h.staged_exec hneeds htwo hmem
  stored c i hmem := by
    rw [exec_done] at hmem
    rw [exec_op]
    exact h.stored_exec hnew hneeds hmem

/-- The kernel invariant is kept when the kernel finishes. -/
theorem finish (h : KernelInv cfg r R) (hall : AllDone cfg r R.op R.done) :
    KernelInv cfg r { R with op := R.op + 1, done := [] } where
  op_pos := Nat.succ_pos R.op
  rung hring := absurd hring List.not_mem_nil
  unrung _ := congrArg (· + 1) (h.rung hall.1)
  needs t ht := absurd ht List.not_mem_nil
  words t ht := absurd ht List.not_mem_nil
  ready part hready := by
    refine Or.inl (Nat.lt_succ_of_le ?_)
    rcases h.ready part hready with hlt | ⟨heq, -⟩
    · exact Nat.le_of_lt hlt
    · exact Nat.le_of_eq heq
  slots n i hn hle hkind hi hpast := by
    obtain rfl : n = R.op := by
      rcases hpast with hlt | ⟨-, hmem⟩
      · exact Nat.le_antisymm (Nat.le_of_lt_succ hlt) (Nat.le_of_succ_le_succ hle)
      · exact absurd hmem List.not_mem_nil
    exact h.slots R.op i hn (Nat.le_succ R.op) hkind hi
      (Or.inr ⟨rfl, h.staged_of_ring hall.1 hkind hi⟩)
  staged c i _ hmem := absurd hmem List.not_mem_nil
  stored c i hmem := absurd hmem List.not_mem_nil

end KernelInv

/-! ## The proxy -/

/-- The parts of the next operation the proxy has taken up. -/
def Proxy.Taken : Proxy W H → Part → Prop
  | .post _ _ _ _ cur _, .one => cur = .one
  | .post _ _ rs _ _ _, .rs c => c < rs
  | .post _ _ _ ag _ _, .ag c => c < ag
  | _, _ => False

/-- The writes of these parts that the proxy has yet to post. -/
def Proxy.ToPost : Proxy W H → Part → Fin W → Fin H → Prop
  | .post _ _ _ _ cur todo, part, q, h => cur = part ∧ (q, h) ∈ todo
  | _, _, _, _ => False

/-- The doorbell values the proxy is between. -/
def Proxy.Within (last seq : ℕ) : Proxy W H → Prop
  | .idle => last ≤ seq
  | .fetch upto _ _ => last < upto ∧ upto ≤ seq
  | .post upto _ _ _ _ _ => last < upto ∧ upto ≤ seq

/-- The record of an operation. A one-shot kernel leaves the chunk words as they are. -/
def RecordOf (o : Op) (rc : Record) : Prop :=
  rc.nbytes = o.record.nbytes ∧ rc.kind = o.kind ∧
    (o.kind = .twoshot → rc.chunkPacks = o.chunkPacks ∧ rc.chunks = o.chunks)

/-- The words the proxy has read are the words of the operation. -/
def Proxy.Holds (o : Op) : Proxy W H → Prop
  | .idle => True
  | .fetch _ k rc => k ≤ 3 ∧ (1 ≤ k → rc.nbytes = o.record.nbytes) ∧
      (2 ≤ k → rc.kind = o.kind ∧ o.kind = .twoshot) ∧ (3 ≤ k → rc.chunkPacks = o.chunkPacks)
  | .post _ rc _ _ cur todo => RecordOf o rc ∧ todo.Nodup ∧ (o.kind = .oneshot → cur = .one)

/-- `part` is a part of operation `n`. -/
def Setting.Has (cfg : Setting W H V) (n : ℕ) (part : Part) : Prop :=
  1 ≤ n ∧ HasPart (cfg.op n).kind (cfg.op n).chunks part

/-- The proxy of rank `p` has posted the write for `part` of operation `n` to
rank `q` on HCA `h`. -/
def Rank.Posted (cfg : Setting W H V) (p : Fin W) (R : Rank W H V) (q : Fin W) (h : Fin H) (n : ℕ)
    (part : Part) : Prop :=
  cfg.Has n part ∧ q ≠ p ∧
    (n ≤ R.lastSeq ∨ n = R.lastSeq + 1 ∧ R.proxy.Taken part ∧ ¬ R.proxy.ToPost part q h)

/-- The newest operation whose record the proxy has read. -/
def Rank.front (R : Rank W H V) : ℕ :=
  match R.proxy with
  | .post _ _ _ _ _ _ => R.lastSeq + 1
  | _ => R.lastSeq

theorem Setting.exists_has (cfg : Setting W H V) {n : ℕ} (hn : 1 ≤ n) : ∃ part, cfg.Has n part := by
  have haccepted := cfg.op_accepted n
  unfold Accepted Op.record at haccepted
  cases hkind : (cfg.op n).kind with
  | oneshot => exact ⟨.one, hn, hkind⟩
  | twoshot =>
    rw [hkind] at haccepted
    exact ⟨.rs 0, hn, hkind, Nat.pos_of_ne_zero haccepted.2.2.2.1⟩

theorem mem_targets {q : Fin W} {h : Fin H} : (q, h) ∈ targets r ↔ q ≠ r := by
  simp [targets]

theorem nodup_targets : (targets r : List (Fin W × Fin H)).Nodup := by
  unfold targets
  rw [List.nodup_flatMap]
  refine ⟨fun q _ => (List.nodup_finRange H).map (fun _ _ h => (Prod.mk.inj h).2), ?_⟩
  refine ((List.nodup_finRange W).filter _).imp (fun hne => ?_)
  intro x hx hx'
  obtain ⟨_, -, rfl⟩ := List.mem_map.mp hx
  obtain ⟨_, -, heq⟩ := List.mem_map.mp hx'
  exact hne (Prod.mk.inj heq).1.symm

/-- **Where the proxy of rank `r` is.** -/
structure ProxyInv (cfg : Setting W H V) (r : Fin W) (R : Rank W H V) : Prop where
  pipeDone_le : R.pipeDone ≤ R.lastSeq
  within : R.proxy.Within R.lastSeq R.seq
  holds : R.proxy.Holds (cfg.op (R.lastSeq + 1))
  taken : ∀ part, R.proxy.Taken part → cfg.Has (R.lastSeq + 1) part
  toPost : ∀ part q h, R.proxy.ToPost part q h → R.proxy.Taken part ∧ q ≠ r
  published : ∀ n part, cfg.Has n part → part ≠ .one →
    (n ≤ R.lastSeq ∨ n = R.lastSeq + 1 ∧ R.proxy.Taken part) → R.Past n (.publish part)

namespace ProxyInv

variable {R R' : Rank W H V} {upto rs ag k : ℕ} {rc cur : Record} {part : Part}
  {todo : List (Fin W × Fin H)} {proxy : Proxy W H}

theorem start : ProxyInv cfg r (.start cfg.garbage) where
  pipeDone_le := Nat.le_refl 0
  within := Nat.le_refl 0
  holds := trivial
  taken _ h := h.elim
  toPost _ _ _ h := h.elim
  published n part hpart _ h := by
    rcases h with hle | ⟨-, htaken⟩
    · exact absurd (Nat.le_trans hpart.1 hle) (Nat.not_succ_le_zero 0)
    · exact htaken.elim

theorem last_le (h : ProxyInv cfg r R) : R.lastSeq ≤ R.seq := by
  have hwithin := h.within
  cases hproxy : R.proxy with
  | idle => rwa [hproxy] at hwithin
  | fetch =>
    rw [hproxy] at hwithin
    exact Nat.le_trans (Nat.le_of_lt hwithin.1) hwithin.2
  | post =>
    rw [hproxy] at hwithin
    exact Nat.le_trans (Nat.le_of_lt hwithin.1) hwithin.2

theorem front_le (h : ProxyInv cfg r R) : R.front ≤ R.seq := by
  have hwithin := h.within
  unfold Rank.front
  split
  case h_1 hproxy =>
    rw [hproxy] at hwithin
    exact Nat.le_trans hwithin.1 hwithin.2
  case h_2 => exact h.last_le

/-- The proxy invariant is kept by the kernel. -/
theorem later (h : ProxyInv cfg r R) (hlater : R.Later R') (hpipe : R'.pipeDone = R.pipeDone)
    (hlast : R'.lastSeq = R.lastSeq) (hproxy : R'.proxy = R.proxy) : ProxyInv cfg r R' where
  pipeDone_le := by
    rw [hpipe, hlast]
    exact h.pipeDone_le
  within := by
    have hwithin := h.within
    rw [hlast, hproxy]
    revert hwithin
    cases R.proxy with
    | idle => exact fun hle => Nat.le_trans hle hlater.seq
    | fetch => exact fun hle => ⟨hle.1, Nat.le_trans hle.2 hlater.seq⟩
    | post => exact fun hle => ⟨hle.1, Nat.le_trans hle.2 hlater.seq⟩
  holds := by
    rw [hlast, hproxy]
    exact h.holds
  taken := by
    rw [hlast, hproxy]
    exact h.taken
  toPost := by
    rw [hproxy]
    exact h.toPost
  published n part hpart hne hposted := by
    rw [hlast, hproxy] at hposted
    exact hlater.past _ _ (h.published n part hpart hne hposted)

/-- Before the proxy takes up a part, only finished operations are posted. -/
theorem of_none_taken (hpipe : R.pipeDone ≤ R.lastSeq) (hwithin : R.proxy.Within R.lastSeq R.seq)
    (hholds : R.proxy.Holds (cfg.op (R.lastSeq + 1))) (hnone : ∀ part, ¬ R.proxy.Taken part)
    (hpost : ∀ part q h, ¬ R.proxy.ToPost part q h)
    (hpublished : ∀ n part, cfg.Has n part → part ≠ .one → n ≤ R.lastSeq →
      R.Past n (.publish part)) : ProxyInv cfg r R where
  pipeDone_le := hpipe
  within := hwithin
  holds := hholds
  taken part htaken := absurd htaken (hnone part)
  toPost part q k hto := absurd hto (hpost part q k)
  published n part hpart hne hposted := by
    rcases hposted with hle | ⟨-, htaken⟩
    · exact hpublished n part hpart hne hle
    · exact absurd htaken (hnone part)

theorem poll (h : ProxyInv cfg r R) (hne : R.seq ≠ R.lastSeq) :
    ProxyInv cfg r { R with proxy := .fetch R.seq 0 .empty } := by
  refine of_none_taken h.pipeDone_le ?_ ?_ (fun _ h => h) (fun _ _ _ h => h)
    (fun n part hpart hne hle => h.published n part hpart hne (Or.inl hle))
  · exact ⟨Nat.lt_of_le_of_ne h.last_le (Ne.symm hne), Nat.le_refl _⟩
  · exact ⟨by decide, by simp, by simp, by simp⟩

/-- The proxy is done with the next operation, all of whose parts are published. -/
theorem advance (h : ProxyInv cfg r R) (hproxy : R.proxy = .post upto rc rs ag part todo)
    {pipeDone : ℕ} (hpipe : pipeDone ≤ R.lastSeq + 1)
    (hpublished : ∀ part, cfg.Has (R.lastSeq + 1) part → part ≠ .one →
      R.Past (R.lastSeq + 1) (.publish part)) :
    ProxyInv cfg r { R with
      pipeDone := pipeDone, lastSeq := R.lastSeq + 1, proxy := nextOp upto (R.lastSeq + 1) } := by
  have hwithin := h.within
  rw [hproxy] at hwithin
  have hpub : ∀ n part, cfg.Has n part → part ≠ .one → n ≤ R.lastSeq + 1 →
      R.Past n (.publish part) := by
    intro n part hpart hne hle
    rcases Nat.lt_or_eq_of_le hle with hlt | rfl
    · exact h.published n part hpart hne (Or.inl (Nat.le_of_lt_succ hlt))
    · exact hpublished part hpart hne
  unfold nextOp
  split_ifs with hlt
  · refine of_none_taken hpipe ⟨hlt, hwithin.2⟩ ?_ (fun _ h => h) (fun _ _ _ h => h) hpub
    exact ⟨by decide, by simp, by simp, by simp⟩
  · exact of_none_taken hpipe (Nat.le_trans hwithin.1 hwithin.2) trivial (fun _ h => h)
      (fun _ _ _ h => h) hpub

/-- What the next word of the record makes of the proxy. -/
theorem fetchNext_cases {o : Op} (hcur : RecordOf o cur)
    (hholds : (Proxy.fetch upto k rc : Proxy W H).Holds o)
    (hnext : fetchNext cfg cur r upto k rc = some proxy) :
    proxy.Holds o ∧ ((∃ k' rc', proxy = .fetch upto k' rc') ∨
      (∃ rc', proxy = .post upto rc' 0 0 .one (targets r) ∧ o.kind = .oneshot) ∨
      ∃ rc', proxy = .post upto rc' 0 0 (.rs 0) []) := by
  obtain ⟨hk, hnbytes, hkind, hpacks⟩ := hholds
  unfold fetchNext at hnext
  split at hnext
  case h_1 =>
    obtain rfl := Option.some.inj hnext
    exact ⟨⟨by decide, fun _ => hcur.1, by simp, by simp⟩, Or.inl ⟨_, _, rfl⟩⟩
  case h_2 =>
    split at hnext
    case h_1 hone =>
      split_ifs at hnext
      obtain rfl := Option.some.inj hnext
      have hone' : o.kind = .oneshot := hcur.2.1.symm.trans hone
      refine ⟨⟨⟨hnbytes (Nat.le_refl 1), hcur.2.1, fun htwo => ?_⟩, nodup_targets, fun _ => rfl⟩,
        Or.inr (Or.inl ⟨_, rfl, hone'⟩)⟩
      rw [hone'] at htwo
      exact absurd htwo (by decide)
    case h_2 htwo =>
      obtain rfl := Option.some.inj hnext
      exact ⟨⟨by decide, fun _ => hnbytes (Nat.le_refl 1),
        fun _ => ⟨hcur.2.1, hcur.2.1.symm.trans htwo⟩, by simp⟩, Or.inl ⟨_, _, rfl⟩⟩
  case h_3 =>
    obtain rfl := Option.some.inj hnext
    have htwo := hkind (Nat.le_refl 2)
    exact ⟨⟨by decide, fun _ => hnbytes (by decide), fun _ => htwo, fun _ => (hcur.2.2 htwo.2).1⟩,
      Or.inl ⟨_, _, rfl⟩⟩
  case h_4 hk0 hk1 hk2 =>
    split_ifs at hnext
    obtain rfl := Option.some.inj hnext
    have hk3 : 3 ≤ k := by
      have : k ≠ 0 := hk0
      have : k ≠ 1 := hk1
      have : k ≠ 2 := hk2
      omega
    have htwo := hkind (by omega)
    refine ⟨⟨⟨hnbytes (by omega), htwo.1, fun h2 => ⟨hpacks hk3, (hcur.2.2 h2).2⟩⟩,
      List.nodup_nil, fun hone => ?_⟩, Or.inr (Or.inr ⟨_, rfl⟩)⟩
    exact absurd (hone.symm.trans htwo.2) (by decide)

theorem fetch (h : ProxyInv cfg r R) (hproxy : R.proxy = .fetch upto k rc)
    (hcur : RecordOf (cfg.op (R.lastSeq + 1)) cur)
    (hnext : fetchNext cfg cur r upto k rc = some proxy) :
    ProxyInv cfg r { R with proxy := proxy } := by
  have hwithin := h.within
  have hholds := h.holds
  rw [hproxy] at hwithin hholds
  have hpub : ∀ n part, cfg.Has n part → part ≠ .one → n ≤ R.lastSeq → R.Past n (.publish part) :=
    fun n part hpart hne hle => h.published n part hpart hne (Or.inl hle)
  obtain ⟨hholds', ⟨k', rc', rfl⟩ | ⟨rc', rfl, hone⟩ | ⟨rc', rfl⟩⟩ :=
    fetchNext_cases hcur hholds hnext
  · exact of_none_taken h.pipeDone_le hwithin hholds' (fun _ h => h) (fun _ _ _ h => h) hpub
  · exact
      { pipeDone_le := h.pipeDone_le
        within := hwithin
        holds := hholds'
        taken := by
          rintro (- | c | c) htaken
          · exact ⟨Nat.succ_pos _, hone⟩
          · exact absurd htaken (Nat.not_lt_zero c)
          · exact absurd htaken (Nat.not_lt_zero c)
        toPost := by
          rintro part q k ⟨rfl, hmem⟩
          exact ⟨rfl, mem_targets.mp hmem⟩
        published := by
          rintro n (- | c | c) hpart hne (hle | ⟨-, htaken⟩)
          · exact absurd rfl hne
          · exact absurd rfl hne
          · exact hpub n _ hpart hne hle
          · exact absurd htaken (Nat.not_lt_zero c)
          · exact hpub n _ hpart hne hle
          · exact absurd htaken (Nat.not_lt_zero c) }
  · refine of_none_taken h.pipeDone_le hwithin hholds' ?_ ?_ hpub
    · rintro (- | c | c) htaken
      · exact absurd htaken (by simp [Proxy.Taken])
      · exact absurd htaken (Nat.not_lt_zero c)
      · exact absurd htaken (Nat.not_lt_zero c)
    · exact fun part q k hto => absurd hto.2 List.not_mem_nil

/-- A part of the next operation that the proxy takes up has been published. -/
theorem choose (h : ProxyInv cfg r R) (hproxy : R.proxy = .post upto rc rs ag part [])
    {rs' ag' : ℕ} {cur : Part} (hhas : cfg.Has (R.lastSeq + 1) cur)
    (htaken : ∀ part, (Proxy.post upto rc rs' ag' cur (targets r) : Proxy W H).Taken part →
      part = cur ∨ part ≠ .one ∧ R.proxy.Taken part)
    (hcur : (Proxy.post upto rc rs' ag' cur (targets r) : Proxy W H).Taken cur)
    (hpublished : R.Past (R.lastSeq + 1) (.publish cur)) :
    ProxyInv cfg r { R with proxy := .post upto rc rs' ag' cur (targets r) } := by
  have hwithin := h.within
  have hholds := h.holds
  rw [hproxy] at hwithin hholds
  exact
    { pipeDone_le := h.pipeDone_le
      within := hwithin
      holds := by
        refine ⟨hholds.1, nodup_targets, fun hone => ?_⟩
        rcases cur with - | c | c
        · rfl
        · exact absurd (hone.symm.trans hhas.2.1) (by decide)
        · exact absurd (hone.symm.trans hhas.2.1) (by decide)
      taken := by
        intro part' htaken'
        rcases htaken part' htaken' with rfl | ⟨-, hold⟩
        · exact hhas
        · exact h.taken part' hold
      toPost := by
        rintro part' q k ⟨rfl, hmem⟩
        exact ⟨hcur, mem_targets.mp hmem⟩
      published := by
        rintro n part' hpart hne (hle | ⟨rfl, htaken'⟩)
        · exact h.published n part' hpart hne (Or.inl hle)
        · rcases htaken part' htaken' with rfl | ⟨-, hold⟩
          · exact hpublished
          · exact h.published _ part' hpart hne (Or.inr ⟨rfl, hold⟩) }

/-- The kind of the operation that is being posted is the one of its record. -/
theorem kind_eq (h : ProxyInv cfg r R) (hproxy : R.proxy = .post upto rc rs ag part todo) :
    (cfg.op (R.lastSeq + 1)).kind = rc.kind := by
  have hholds := h.holds
  rw [hproxy] at hholds
  exact hholds.1.2.1.symm

theorem chunks_eq (h : ProxyInv cfg r R) (hproxy : R.proxy = .post upto rc rs ag part todo)
    (htwo : rc.kind = .twoshot) : (cfg.op (R.lastSeq + 1)).chunks = rc.chunks := by
  have hholds := h.holds
  rw [hproxy] at hholds
  exact (hholds.1.2.2 ((h.kind_eq hproxy).trans htwo)).2.symm

/-- A one-shot operation has no chunk to publish, a two-shot operation is done
once the proxy has taken up every chunk. -/
theorem published_all (h : ProxyInv cfg r R) (hproxy : R.proxy = .post upto rc rs ag part todo)
    (hdone : rc.kind = .twoshot → rc.chunks ≤ rs ∧ rc.chunks ≤ ag) (part' : Part)
    (hpart : cfg.Has (R.lastSeq + 1) part') (hne : part' ≠ .one) :
    R.Past (R.lastSeq + 1) (.publish part') := by
  refine h.published _ part' hpart hne (Or.inr ⟨rfl, ?_⟩)
  rw [hproxy]
  rcases part' with - | c | c
  · exact absurd rfl hne
  all_goals
    have htwo : rc.kind = .twoshot := (h.kind_eq hproxy).symm.trans hpart.2.1
    have hc : c < rc.chunks := h.chunks_eq hproxy htwo ▸ hpart.2.2
  · exact Nat.lt_of_lt_of_le hc (hdone htwo).1
  · exact Nat.lt_of_lt_of_le hc (hdone htwo).2

/-- The proxy invariant is kept by a posted write. -/
theorem post (h : ProxyInv cfg r R) {x : Fin W × Fin H}
    (hproxy : R.proxy = .post upto rc rs ag part (x :: todo)) :
    ProxyInv cfg r { R with proxy := .post upto rc rs ag part todo } := by
  have htaken : ∀ part', (Proxy.post upto rc rs ag part todo : Proxy W H).Taken part' →
      R.proxy.Taken part' := by
    rw [hproxy]
    rintro (- | c | c) ht <;> exact ht
  have htaken' : ∀ part', R.proxy.Taken part' →
      (Proxy.post upto rc rs ag part todo : Proxy W H).Taken part' := by
    rw [hproxy]
    rintro (- | c | c) ht <;> exact ht
  have hwithin := h.within
  have hholds := h.holds
  rw [hproxy] at hwithin hholds
  exact
    { pipeDone_le := h.pipeDone_le
      within := hwithin
      holds := ⟨hholds.1, (List.nodup_cons.mp hholds.2.1).2, hholds.2.2⟩
      taken := fun part' ht => h.taken part' (htaken part' ht)
      toPost := by
        rintro part' q k ⟨rfl, hmem⟩
        have hto : R.proxy.ToPost part q k := by
          rw [hproxy]
          exact ⟨rfl, List.mem_cons_of_mem x hmem⟩
        exact (h.toPost part q k hto).imp_left (htaken' part)
      published := fun n part' hpart hne hposted =>
        h.published n part' hpart hne (hposted.imp_right (fun h => ⟨h.1, htaken part' h.2⟩)) }

end ProxyInv

/-! ## The invariant of a rank -/

/-- **The invariant of rank `r`.** A kernel that finished a two-shot operation
has waited for its release, and the records between the proxy and the doorbell
are those of their operations. -/
structure RankInv (cfg : Setting W H V) (r : Fin W) (R : Rank W H V) : Prop where
  kernel : KernelInv cfg r R
  proxy : ProxyInv cfg r R
  waited : ∀ n, 1 ≤ n → n < R.op → (cfg.op n).kind = .twoshot → n ≤ R.pipeDone
  record : ∀ s, R.front < s → s ≤ R.seq → RecordOf (cfg.op s) (R.record (slotOf s))

namespace RankInv

variable {R : Rank W H V}

theorem start : RankInv cfg r (.start cfg.garbage) where
  kernel := .start
  proxy := .start
  waited _ hn hlt _ := absurd hlt (Nat.not_lt.mpr hn)
  record _ hlt hle := absurd (Nat.lt_of_lt_of_le hlt hle) (Nat.lt_irrefl 0)

theorem exec (h : RankInv cfg r R) (inbox : Fin W → Region → ℕ → V) {t : Task W H}
    (hnew : t ∉ R.done) (hneeds : Needs cfg r R.op R.done t) (hahead : R.op ≤ R.front + 2) :
    RankInv cfg r (R.exec cfg r inbox t) := by
  have hlater : R.Later (R.exec cfg r inbox t) := by
    refine ⟨fun n t' hpast => exec_past.mpr (Or.inl hpast), ?_⟩
    rw [exec_seq]
    split_ifs
    · exact h.kernel.seq_le
    · exact Nat.le_refl R.seq
  have hkernel := h.kernel.exec inbox hnew hneeds
  refine ⟨hkernel, h.proxy.later hlater exec_pipeDone exec_lastSeq exec_proxy, ?_, ?_⟩
  · intro n hn hlt htwo
    rw [exec_op] at hlt
    rw [exec_pipeDone]
    exact h.waited n hn hlt htwo
  · intro s hfront hle
    have hfront' : R.front < s := by
      unfold Rank.front at hfront ⊢
      rwa [exec_proxy, exec_lastSeq] at hfront
    have hsop : s ≤ R.op := Nat.le_trans hle (Nat.le_trans hkernel.seq_le (Nat.le_of_eq exec_op))
    by_cases hs : s = R.op
    · -- the doorbell has been rung, or is rung by this task
      have hring : Task.ring ∈ (R.exec cfg r inbox t).done := by
        by_contra hring
        have := hkernel.unrung hring
        rw [exec_op] at this
        omega
      have hrecord := hkernel.record_of_ring hring
      rwa [exec_op, ← hs] at hrecord
    · -- the other slot stays, and the slot of an older operation has been read
      have hslot : slotOf s ≠ slotOf R.op := by
        unfold slotOf
        omega
      rw [exec_record hslot]
      exact h.record s hfront' (Nat.le_of_lt_succ
        (Nat.lt_of_lt_of_le (Nat.lt_of_le_of_ne hsop hs) h.kernel.op_le_seq))

theorem finish (h : RankInv cfg r R) (hall : AllDone cfg r R.op R.done)
    (hpipe : (cfg.op R.op).kind = .twoshot → R.pipeDone = R.op) :
    RankInv cfg r { R with op := R.op + 1, done := [] } := by
  refine ⟨h.kernel.finish hall, h.proxy.later ⟨?_, Nat.le_refl _⟩ rfl rfl rfl, ?_, h.record⟩
  · rintro n t (hlt | ⟨rfl, -⟩)
    · exact Or.inl (Nat.lt_succ_of_lt hlt)
    · exact Or.inl (Nat.lt_succ_self _)
  · intro n hn hlt htwo
    rcases Nat.lt_or_eq_of_le (Nat.le_of_lt_succ hlt) with hlt | rfl
    · exact h.waited n hn hlt htwo
    · exact Nat.le_of_eq (hpipe htwo).symm

/-- The invariant is kept by a step of the proxy that reads no older record. -/
theorem byProxy (h : RankInv cfg r R) {pipeDone lastSeq : ℕ} {proxy : Proxy W H}
    (hproxy : ProxyInv cfg r { R with pipeDone := pipeDone, lastSeq := lastSeq, proxy := proxy })
    (hpipe : R.pipeDone ≤ pipeDone)
    (hfront : R.front ≤ { R with pipeDone := pipeDone, lastSeq := lastSeq, proxy := proxy }.front) :
    RankInv cfg r { R with pipeDone := pipeDone, lastSeq := lastSeq, proxy := proxy } where
  kernel := { h.kernel with }
  proxy := hproxy
  waited n hn hlt htwo := Nat.le_trans (h.waited n hn hlt htwo) hpipe
  record s hlt hle := h.record s (Nat.lt_of_le_of_lt hfront hlt) hle

theorem front_nextOp {upto : ℕ} {pipeDone lastSeq : ℕ} :
    { R with pipeDone := pipeDone, lastSeq := lastSeq, proxy := nextOp upto lastSeq }.front
      = lastSeq := by
  unfold Rank.front nextOp
  dsimp only
  split_ifs <;> rfl

theorem front_of_post {upto rs ag : ℕ} {rc : Record} {part : Part} {todo : List (Fin W × Fin H)}
    (hproxy : R.proxy = .post upto rc rs ag part todo) : R.front = R.lastSeq + 1 := by
  unfold Rank.front
  rw [hproxy]

theorem front_of_fetch {upto k : ℕ} {rc : Record} (hproxy : R.proxy = .fetch upto k rc) :
    R.front = R.lastSeq := by
  unfold Rank.front
  rw [hproxy]

theorem lastSeq_le_front : R.lastSeq ≤ R.front := by
  unfold Rank.front
  split
  · exact Nat.le_succ _
  · exact Nat.le_refl _

/-- The record the proxy reads is the one of the next operation. -/
theorem record_next (h : RankInv cfg r R) {upto k : ℕ} {rc : Record}
    (hproxy : R.proxy = .fetch upto k rc) :
    RecordOf (cfg.op (R.lastSeq + 1)) (R.record (slotOf (R.lastSeq + 1))) := by
  have hwithin := h.proxy.within
  rw [hproxy] at hwithin
  refine h.record _ ?_ (Nat.le_trans hwithin.1 hwithin.2)
  rw [front_of_fetch hproxy]
  exact Nat.lt_succ_self _

/-- The invariant is kept by a posted write. -/
theorem post (h : RankInv cfg r R) {upto rs ag : ℕ} {rc : Record} {part : Part}
    {x : Fin W × Fin H} {todo : List (Fin W × Fin H)}
    (hproxy : R.proxy = .post upto rc rs ag part (x :: todo)) :
    RankInv cfg r { R with proxy := .post upto rc rs ag part todo } :=
  h.byProxy (h.proxy.post hproxy) (Nat.le_refl _) (Nat.le_of_eq (front_of_post hproxy))

end RankInv

/-- **The invariant of a rank is kept by its steps**, as long as its kernel is
at most two operations ahead of its proxy. -/
theorem RankStep.rankInv {R : Rank W H V} (hstep : RankStep cfg S r R)
    (h : RankInv cfg r (S.rank r)) (hahead : (S.rank r).op ≤ (S.rank r).front + 2) :
    RankInv cfg r R := by
  have hrefl := Nat.le_refl (S.rank r).pipeDone
  cases hstep with
  | exec t hnew hneeds _ => exact h.exec _ hnew hneeds hahead
  | timeout =>
    exact ⟨{ h.kernel with }, h.proxy.later ⟨fun _ _ h => h, Nat.le_refl _⟩ rfl rfl rfl,
      h.waited, h.record⟩
  | finish hall hpipe => exact h.finish hall hpipe
  | stay => exact h
  | fail =>
    exact ⟨{ h.kernel with }, h.proxy.later ⟨fun _ _ h => h, Nat.le_refl _⟩ rfl rfl rfl,
      h.waited, h.record⟩
  | poll hidle hne =>
    refine h.byProxy (h.proxy.poll hne) hrefl (Nat.le_of_eq ?_)
    unfold Rank.front
    rw [hidle]
  | @fetch _ _ _ proxy hproxy hnext =>
    refine h.byProxy (h.proxy.fetch hproxy (h.record_next hproxy) hnext) hrefl ?_
    rw [RankInv.front_of_fetch hproxy]
    exact RankInv.lastSeq_le_front (R := { S.rank r with proxy := proxy })
  | commit hproxy hkind =>
    refine h.byProxy (h.proxy.advance hproxy (Nat.le_succ_of_le h.proxy.pipeDone_le)
      (h.proxy.published_all hproxy (fun htwo => ?_))) hrefl ?_
    · rw [hkind] at htwo
      exact absurd htwo (by decide)
    · rw [RankInv.front_of_post hproxy, RankInv.front_nextOp]
  | chooseRs hproxy hkind hrs hready =>
    have htwo := (h.proxy.kind_eq hproxy).trans hkind
    refine h.byProxy (h.proxy.choose hproxy ⟨Nat.succ_pos _, htwo, ?_⟩ ?_ (Nat.lt_succ_self _) ?_)
      hrefl (Nat.le_of_eq (RankInv.front_of_post hproxy))
    · rwa [h.proxy.chunks_eq hproxy hkind]
    · rw [hproxy]
      rintro (- | c | c) htaken
      · exact absurd htaken (by simp [Proxy.Taken])
      · exact (Nat.lt_succ_iff_lt_or_eq.mp htaken).symm.imp (congrArg _) (fun hlt => ⟨by simp, hlt⟩)
      · exact Or.inr ⟨by simp, htaken⟩
    · have hpast := h.kernel.ready (.rs _) (by rw [hready]; exact Nat.succ_ne_zero _)
      rwa [hready] at hpast
  | chooseAg hproxy hkind hag hready =>
    have htwo := (h.proxy.kind_eq hproxy).trans hkind
    refine h.byProxy (h.proxy.choose hproxy ⟨Nat.succ_pos _, htwo, ?_⟩ ?_ (Nat.lt_succ_self _) ?_)
      hrefl (Nat.le_of_eq (RankInv.front_of_post hproxy))
    · rwa [h.proxy.chunks_eq hproxy hkind]
    · rw [hproxy]
      rintro (- | c | c) htaken
      · exact absurd htaken (by simp [Proxy.Taken])
      · exact Or.inr ⟨by simp, htaken⟩
      · exact (Nat.lt_succ_iff_lt_or_eq.mp htaken).symm.imp (congrArg _) (fun hlt => ⟨by simp, hlt⟩)
    · have hpast := h.kernel.ready (.ag _) (by rw [hready]; exact Nat.succ_ne_zero _)
      rwa [hready] at hpast
  | release hproxy hkind hrs hag _ =>
    refine h.byProxy (h.proxy.advance hproxy (Nat.le_refl _)
      (h.proxy.published_all hproxy (fun _ => ⟨hrs, hag⟩))) ?_ ?_
    · exact Nat.le_succ_of_le h.proxy.pipeDone_le
    · rw [RankInv.front_of_post hproxy, RankInv.front_nextOp]

end RoceTransport
