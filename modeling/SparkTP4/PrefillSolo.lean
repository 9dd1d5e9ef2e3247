import SparkTP4.PrefillBypass
import Mathlib.Logic.Function.Basic
import Mathlib.Data.List.Perm.Basic

/-!
# Solo passes

With `DSV41_PREFILL_BYPASS_SOLO` a pass of the scheduler that admits a short request
beside the chunk of a long prompt parks the long prompt: its chunk leaves the batch,
its extend range is left empty, and it stays the chunked request. The next pass runs
the chunk, alone.

A pass (`Scheduler.pass`) is the engine's `_get_new_batch_prefill_raw` with the patches, after
the stash that precedes it. What comes from outside comes with the pass: the switches of
`bypass_active`, the chunk tokens that are left, and the waiting queue in the order of
`calc_priority`, with what the engine does with each request of it. The batches are logged.
-/

namespace PrefillBypass

/-- What the engine does with the chunks of a request does not depend on the queue. -/
structure Engine where
  /-- `len(req.full_untruncated_fill_ids)` -/
  fill : ℕ → ℤ
  /-- the tokens of the chunk that begins at a prefix, if as many are left -/
  chunkLen : ℕ → ℤ → ℤ
  ceilPaged : ℤ → ℤ

/-- The end of the chunk that `add_chunked_req` runs. -/
def Engine.chunkEnd (E : Engine) (r : ℕ) (start : ℤ) : ℤ := min (start + E.chunkLen r start) (E.fill r)

structure Req where
  /-- `len(prefix_indices)` -/
  prefixLen : ℤ
  extendRange : ℤ × ℤ
  /-- `_dsv41_solo_parked` -/
  parked : Bool
  inflightMiddleChunks : ℕ

/-- A batch, with the extend ranges of its requests. -/
structure Batch where
  reqs : List (ℕ × ℤ × ℤ)
  chunkedReq : Option ℕ
  containsLastPrefillChunk : Bool
  /-- record of the pass: `_dsv41_long`, `_dsv41_solo_pass`, `adder.new_chunked_req` -/
  long : Option ℕ
  solo : Bool
  newChunkedReq : Option ℕ
  deriving DecidableEq

structure Scheduler where
  waiting : List ℕ
  chunkedReq : Option ℕ
  req : ℕ → Req
  /-- the batches, the latest first -/
  log : List Batch

/-- No request has arrived. -/
def Scheduler.start : Scheduler := ⟨[], none, fun _ => ⟨0, (0, 0), false, 0⟩, []⟩

/-- The request has been in a batch. -/
def Scheduler.Served (S : Scheduler) (r : ℕ) : Prop := ∃ b ∈ S.log, r ∈ b.reqs.map (·.1)

instance (S : Scheduler) (r : ℕ) : Decidable (S.Served r) :=
  inferInstanceAs (Decidable (∃ b ∈ S.log, _))

/-- The stash of `get_next_batch_to_run`. -/
def Scheduler.stash (S : Scheduler) : Scheduler :=
  match S.chunkedReq with
  | none => S
  | some r =>
    { S with req := Function.update S.req r { S.req r with prefixLen := (S.req r).extendRange.2 } }

/-- The candidates are given to the loop body until the loop is left. -/
def Loop.over (cfg : Config) (ceilPaged : ℤ → ℤ) (P : Pass) (L : Loop) (queue : List Candidate) :
    Loop :=
  queue.foldl (fun L c => (L.step cfg ceilPaged P c).getD L) L

/-- The extend range that the engine has set for a request of the queue; its prefix is
what is not fresh. -/
def Admitted.extendRange (E : Engine) (a : Admitted) : ℤ × ℤ :=
  (E.fill a.req - a.fresh, (a.chunk.elim (E.fill a.req) fun n => E.fill a.req - a.fresh + n))

/-- `add_chunked_req`, after `init_next_round_input`. -/
def Scheduler.addChunkedReq (E : Engine) (S : Scheduler) : Scheduler :=
  match S.chunkedReq with
  | none => S
  | some r =>
    let start := (S.req r).prefixLen
    { S with
      chunkedReq := if E.chunkEnd r start < E.fill r then some r else none
      req := Function.update S.req r
        { S.req r with parked := false, extendRange := (start, E.chunkEnd r start) } }

/-- The prefixes and the extend ranges of the requests that the loop has admitted. -/
def Scheduler.admitReqs (E : Engine) (S : Scheduler) (admitted : List Admitted) : Scheduler :=
  { S with
    req := fun r =>
      match admitted.find? fun a => a.req = r with
      | none => S.req r
      | some a =>
        { S.req r with prefixLen := (a.extendRange E).1, extendRange := a.extendRange E } }

/-- The parking of the long prompt. -/
def Scheduler.park (S : Scheduler) (r : ℕ) : Scheduler :=
  { S with
    chunkedReq := some r
    req := Function.update S.req r
      { S.req r with extendRange := ((S.req r).prefixLen, (S.req r).prefixLen), parked := true } }

/-- The condition of the parking. -/
def Adder.parks (A : Adder) (cfg : Config) (P : Pass) : Bool :=
  cfg.solo && P.long.isSome && P.scan && A.newChunkedReq.isNone &&
    A.canRunList.any fun r => P.long ≠ some r

/-- `assert self.chunked_req is None` when there is a new one. -/
def updateChunked (chunkedReq newChunkedReq : Option ℕ) : Option (Option ℕ) :=
  match newChunkedReq with
  | none => some chunkedReq
  | some r => if chunkedReq.isSome then none else some (some r)

/-- `inflight_middle_chunks += 1` -/
def Scheduler.countChunk (S : Scheduler) (solo : Bool) : Scheduler :=
  match S.chunkedReq with
  | none => S
  | some r =>
    if solo then S
    else
      { S with
        req := Function.update S.req r
          { S.req r with inflightMiddleChunks := (S.req r).inflightMiddleChunks + 1 } }

/-- The new batch is built of `can_run_list`. -/
def Scheduler.build (S : Scheduler) (canRunList : List ℕ) (long newChunkedReq : Option ℕ)
    (solo : Bool) : Scheduler :=
  if canRunList.isEmpty then S
  else
    { S with
      waiting := S.waiting.filter fun r => r ∉ canRunList
      log := {
        reqs := canRunList.map fun r => (r, (S.req r).extendRange)
        chunkedReq := if solo then none else S.chunkedReq
        containsLastPrefillChunk := solo || S.chunkedReq.isNone || canRunList.length ≠ 1
        long := long
        solo := solo
        newChunkedReq := newChunkedReq } :: S.log }

/-- `_get_new_batch_prefill_raw` after the loop. -/
def Scheduler.finish (cfg : Config) (E : Engine) (S : Scheduler) (P : Pass) (A : Adder) :
    Option Scheduler :=
  let T := S.admitReqs E A.admitted
  let solo := A.parks cfg P
  let canRunList := if solo then A.canRunList.filter (fun r => P.long ≠ some r) else A.canRunList
  let T := if solo then P.long.elim T T.park else T
  (updateChunked T.chunkedReq A.newChunkedReq).map fun chunkedReq =>
    ({ T with chunkedReq := chunkedReq }.countChunk solo).build canRunList P.long A.newChunkedReq solo

/-- `_get_new_batch_prefill_raw`; it is `none` when it raises. -/
def Scheduler.pass (cfg : Config) (E : Engine) (S : Scheduler) (active dllm : Bool) (rem : ℤ)
    (queue : List Candidate) : Option Scheduler :=
  let T := S.addChunkedReq E
  let P := Pass.of cfg active (S.chunkedReq.any fun r => (S.req r).parked) S.chunkedReq T.chunkedReq
  let A := Adder.start cfg P.scan (some rem) dllm S.chunkedReq.toList
  let L := Loop.over cfg E.ceilPaged P (Loop.start A) queue
  if L.raised then none
  else Scheduler.finish cfg E { T with waiting := queue.map (·.req) } P L.adder

inductive Event where
  /-- a request arrives; one that comes back after a retraction counts as another -/
  | arrive (r : ℕ)
  /-- a pass that returns before the chunked request is looked at -/
  | idle
  | pass (active dllm : Bool) (rem : ℤ) (queue : List Candidate)

/-- One event of the scheduler; `calc_priority` permutes the waiting queue. -/
def Scheduler.step (cfg : Config) (E : Engine) (S : Scheduler) : Event → Option Scheduler
  | .arrive r =>
    if r ∈ S.waiting ∨ S.Served r then none else some { S with waiting := S.waiting ++ [r] }
  | .idle => some S.stash
  | .pass active dllm rem queue =>
    if (queue.map (·.req)).Perm S.waiting then S.stash.pass cfg E active dllm rem queue else none

/-! ## The loop of one pass -/

section Loop

variable {cfg : Config} {E : Engine} {ceilPaged : ℤ → ℤ} {P : Pass} {A : Adder} {L L' : Loop}
variable {queue : List Candidate}

/-- What every step of the loop preserves holds when the loop is left. -/
theorem Loop.over_invariant (Inv : Loop → Prop)
    (hstep : ∀ L c L', c ∈ queue → Inv L → L.step cfg ceilPaged P c = some L' → Inv L') (h : Inv L) :
    Inv (L.over cfg ceilPaged P queue) := by
  unfold Loop.over
  induction queue generalizing L with
  | nil => exact h
  | cons c queue ih =>
    refine ih (fun L c L' hc => hstep L c L' (List.mem_cons_of_mem _ hc)) ?_
    show Inv ((L.step cfg ceilPaged P c).getD L)
    cases hc : L.step cfg ceilPaged P c with
    | none => exact h
    | some L' => exact hstep L c L' List.mem_cons_self h hc

/-- The requests that the loop has added to the batch, and the one it has chunked. -/
structure Batched (chunk : List ℕ) (queue : List Candidate) (A : Adder) : Prop where
  batch : A.canRunList = chunk ++ (A.admitted.map (·.req)).reverse
  queued : ∀ a ∈ A.admitted, a.req ∈ queue.map (·.req)
  chunked : ∀ r, A.newChunkedReq = some r → r ∈ A.admitted.map (·.req)

theorem Batched.commit {chunk : List ℕ} (h : Batched chunk queue A) {c : Candidate} (hc : c ∈ queue)
    (n : Option ℕ) (charge : ℤ) : Batched chunk queue (A.commit c.req c.fresh n charge) where
  batch := by
    show A.canRunList ++ [c.req] = chunk ++ (c.req :: A.admitted.map (·.req)).reverse
    rw [h.batch, List.reverse_cons, List.append_assoc]
  queued a ha := by
    obtain rfl | ha := List.mem_cons.mp ha
    · exact List.mem_map_of_mem hc
    · exact h.queued a ha
  chunked r hr := by
    by_cases hn : n.isSome
    · obtain rfl := Option.some.inj ((if_pos hn).symm.trans hr)
      exact List.mem_cons_self
    · exact List.mem_cons_of_mem _ (h.chunked r ((if_neg hn).symm.trans hr))

theorem Batched.add {chunk : List ℕ} (h : Batched chunk queue A) {c : Candidate} (hc : c ∈ queue)
    (hasChunked : Bool) :
    Batched chunk queue (A.add cfg ceilPaged c.req c.fresh c.ignoreEos hasChunked c.answer).1 := by
  obtain ⟨B, _, _, _, rfl | ⟨n, charge, rfl⟩, heq⟩ := @add_effect cfg ceilPaged
    A c.req c.fresh c.ignoreEos hasChunked c.answer
  · rw [heq]
    exact { h with }
  · rw [heq]
    exact { h.commit hc n charge with }

/-- A step of the loop gives the candidate to `add_one_req`, or leaves the adder alone. -/
theorem Loop.step_adder {c : Candidate} (hstep : L.step cfg ceilPaged P c = some L') :
    L'.adder = L.adder ∨ P.soloStops cfg L.adder = false ∧ L'.adder =
      (L.adder.add cfg ceilPaged c.req c.fresh c.ignoreEos (P.hasChunked cfg) c.answer).1 := by
  unfold Loop.step at hstep
  obtain ⟨-, hstep⟩ := Option.ite_none_left_eq_some.mp hstep
  split at hstep
  · obtain rfl := Option.some.inj hstep
    exact .inl rfl
  · obtain rfl := Option.some.inj hstep
    exact .inl rfl
  · dsimp only at hstep
    split at hstep
    · obtain rfl := Option.some.inj hstep
      exact .inl rfl
    · rename_i hstops
      split at hstep
      · obtain rfl := Option.some.inj hstep
        exact .inl rfl
      · obtain rfl := Option.some.inj hstep
        refine .inr ⟨Bool.eq_false_iff.mpr fun hs => hstops (.inl hs), ?_⟩
        unfold Loop.result
        split <;> rfl

theorem Batched.over {chunk : List ℕ} (h : Batched chunk queue L.adder) :
    Batched chunk queue (L.over cfg ceilPaged P queue).adder := by
  refine Loop.over_invariant (fun L => Batched chunk queue L.adder) (fun L c L' hc h hstep => ?_) h
  obtain heq | ⟨-, heq⟩ := Loop.step_adder hstep
  · rw [heq]
    exact h
  · rw [heq]
    exact h.add hc _

theorem Batched.start (cfg : Config) (scan : Bool) (rem : Option ℤ) (dllm : Bool) (chunk : List ℕ)
    (queue : List Candidate) : Batched chunk queue (Adder.start cfg scan rem dllm chunk) where
  batch := (List.append_nil chunk).symm
  queued _ ha := absurd ha List.not_mem_nil
  chunked _ hr := by cases hr

/-- **A solo pass admits one short request**: the loop stops before another one. -/
theorem Loop.over_single (hsolo : cfg.solo = true) (hscan : P.scan = true) {l : ℕ}
    (hlong : P.long = some l) (hl : l ∉ queue.map (·.req)) (hbatched : Batched [l] queue L.adder)
    (h : L.adder.admitted = []) : (L.over cfg ceilPaged P queue).adder.admitted.length ≤ 1 := by
  have hinv := @Loop.over_invariant cfg ceilPaged P L queue
    (fun L => Batched [l] queue L.adder ∧ L.adder.admitted.length ≤ 1)
    (fun L c L' hc h hstep => ?_) ⟨hbatched, h ▸ Nat.zero_le 1⟩
  · exact hinv.2
  · obtain heq | ⟨hstops, heq⟩ := Loop.step_adder hstep
    · rw [heq]
      exact h
    · rw [heq]
      refine ⟨h.1.add hc _, ?_⟩
      have hnone : L.adder.admitted = [] := by
        refine List.eq_nil_iff_forall_not_mem.mpr fun a ha => ?_
        have hmem : a.req ∈ L.adder.canRunList := by
          rw [h.1.batch]
          exact List.mem_append_right _ (List.mem_reverse.mpr (List.mem_map_of_mem ha))
        have hne : P.long ≠ some a.req := by
          rw [hlong]
          intro heq
          exact hl (Option.some.inj heq ▸ h.1.queued a ha)
        have hany : (L.adder.canRunList.any fun r => P.long ≠ some r) = true :=
          List.any_eq_true.mpr ⟨a.req, hmem, decide_eq_true hne⟩
        unfold Pass.soloStops at hstops
        rw [hsolo, hscan, hany] at hstops
        simp at hstops
      obtain ⟨B, _, _, _, rfl | ⟨n, charge, rfl⟩, heq⟩ := @add_effect cfg ceilPaged
        L.adder c.req c.fresh c.ignoreEos (P.hasChunked cfg) c.answer
      · rw [heq]
        exact h.2
      · rw [heq]
        show (_ :: L.adder.admitted).length ≤ 1
        rw [hnone]
        exact Nat.le_refl 1

end Loop

/-! ## One pass -/

section Pass

variable {cfg : Config} {E : Engine} {P : Pass} {A : Adder} {S S' T : Scheduler}

/-- **What a pass does**: nothing; or a solo pass, which parks the long prompt `l`; or
a pass that runs the chunk in flight, if there is one. -/
inductive Outcome (cfg : Config) (E : Engine) (S : Scheduler) (reqs : List ℕ) (S' : Scheduler) : Prop
  | nothing (long : S.chunkedReq = none) (log : S'.log = S.log) (chunked : S'.chunkedReq = none)
  | solo {l : ℕ} {a : Admitted} (long : S.chunkedReq = some l) (unparked : (S.req l).parked = false)
      (queued : a.req ∈ reqs) (short : 0 ≤ a.fresh ∧ a.fresh ≤ cfg.limit)
      (log : S'.log = ⟨[(a.req, E.fill a.req - a.fresh, E.fill a.req)], none, true, some l, true,
        none⟩ :: S.log)
      (chunked : S'.chunkedReq = some l) (parked : (S'.req l).parked = true)
      (range : (S'.req l).extendRange.2 = (S.req l).prefixLen)
  | chunk {b : Batch} {rest : List (ℕ × ℤ × ℤ)} (log : S'.log = b :: S.log) (solo : b.solo = false)
      (batch : b.reqs = S.chunkedReq.toList.map
        (fun l => (l, (S.req l).prefixLen, E.chunkEnd l (S.req l).prefixLen)) ++ rest)
      (queued : ∀ x ∈ rest, x.1 ∈ reqs)
      (resume : ∀ l, S.chunkedReq = some l → (S.req l).parked = true → rest = [])
      (chunked : (∃ l, S.chunkedReq = some l ∧ E.chunkEnd l (S.req l).prefixLen < E.fill l ∧
          S'.chunkedReq = some l ∧
          (S'.req l).extendRange.2 = E.chunkEnd l (S.req l).prefixLen) ∨
        (∀ l, S.chunkedReq = some l → E.chunkEnd l (S.req l).prefixLen = E.fill l) ∧
          ∀ r, S'.chunkedReq = some r → r ∈ rest.map (·.1))

theorem Scheduler.admit_req_of_notMem {admitted : List Admitted} {r : ℕ}
    (hr : r ∉ admitted.map (·.req)) : (S.admitReqs E admitted).req r = S.req r := by
  have hnone : (admitted.find? fun a => a.req = r) = none := by
    refine List.find?_eq_none.mpr fun a ha heq => hr ?_
    exact of_decide_eq_true heq ▸ List.mem_map_of_mem ha
  unfold Scheduler.admitReqs
  dsimp only
  rw [hnone]

theorem Scheduler.park_req_self (S : Scheduler) (r : ℕ) : (S.park r).req r =
    { S.req r with extendRange := ((S.req r).prefixLen, (S.req r).prefixLen), parked := true } :=
  Function.update_self ..

theorem Scheduler.park_req_of_ne {l r : ℕ} (hne : r ≠ l) : (S.park l).req r = S.req r :=
  Function.update_of_ne hne ..

/-- **The parking.** -/
theorem Scheduler.finish_solo {l : ℕ} {a : Admitted} (hpark : A.parks cfg P = true)
    (hlong : P.long = some l) (ha : A.admitted = [a]) (hbatch : A.canRunList = [l, a.req])
    (hne : l ≠ a.req) (hnew : A.newChunkedReq = none) (hwhole : a.chunk = none)
    (h : T.finish cfg E P A = some S') :
    S'.waiting = T.waiting.filter (fun r => r ∉ [a.req]) ∧
    S'.log = ⟨[(a.req, E.fill a.req - a.fresh, E.fill a.req)], none, true, some l, true, none⟩ :: T.log ∧
    S'.chunkedReq = some l ∧ (S'.req l).parked = true ∧
    (S'.req l).extendRange.2 = (T.req l).prefixLen := by
  have hlist : A.canRunList.filter (fun r => P.long ≠ some r) = [a.req] := by
    rw [hbatch, hlong, List.filter_cons_of_neg (by simp), List.filter_cons_of_pos (by simpa using hne),
      List.filter_nil]
  have hl : l ∉ [a].map (·.req) := by
    rw [List.map_cons, List.map_nil, List.mem_singleton]
    exact hne
  unfold Scheduler.finish at h
  simp only [hpark, hlong, hnew, ha, if_true, Option.elim_some, updateChunked, Option.map_some] at h
  obtain rfl := Option.some.inj h
  simp only [hlong] at hlist
  rw [hlist]
  refine ⟨rfl, ?_, rfl, ?_, ?_⟩
  · refine congrArg (fun range => (⟨[(a.req, range)], none, true, some l, true, none⟩ : Batch) :: T.log) ?_
    show (((T.admitReqs E [a]).park l).req a.req).extendRange = _
    rw [Scheduler.park_req_of_ne hne.symm]
    unfold Scheduler.admitReqs
    simp only [List.find?_cons, decide_true]
    unfold Admitted.extendRange
    rw [hwhole]
    rfl
  · show (((T.admitReqs E [a]).park l).req l).parked = true
    rw [Scheduler.park_req_self]
  · show (((T.admitReqs E [a]).park l).req l).extendRange.2 = _
    rw [Scheduler.park_req_self]
    exact congrArg Req.prefixLen (Scheduler.admit_req_of_notMem hl)

/-- The counter of the middle chunks is all that `countChunk` changes. -/
theorem Scheduler.countChunk_same (S : Scheduler) (solo : Bool) :
    (S.countChunk solo).waiting = S.waiting ∧ (S.countChunk solo).chunkedReq = S.chunkedReq ∧
    (S.countChunk solo).log = S.log ∧
    ∀ r, ((S.countChunk solo).req r).extendRange = (S.req r).extendRange := by
  unfold Scheduler.countChunk
  split
  · exact ⟨rfl, rfl, rfl, fun _ => rfl⟩
  · split
    · exact ⟨rfl, rfl, rfl, fun _ => rfl⟩
    · rename_i q _ _
      refine ⟨rfl, rfl, rfl, fun r => ?_⟩
      dsimp only
      by_cases hr : r = q
      · rw [hr, Function.update_self]
      · rw [Function.update_of_ne hr]

/-- **No parking**: the requests of `can_run_list` are the batch. -/
theorem Scheduler.finish_chunk (hpark : A.parks cfg P = false)
    (h : T.finish cfg E P A = some S') :
    S'.waiting = T.waiting.filter (fun r => r ∉ A.canRunList) ∧
    (A.canRunList = [] ∧ S'.log = T.log ∨ ∃ b, S'.log = b :: T.log ∧ b.solo = false ∧
      b.long = P.long ∧
      b.reqs = A.canRunList.map fun r => (r, ((T.admitReqs E A.admitted).req r).extendRange)) ∧
    (A.newChunkedReq = none ∧ S'.chunkedReq = T.chunkedReq ∨
      T.chunkedReq = none ∧ S'.chunkedReq = A.newChunkedReq) ∧
    ∀ r, (S'.req r).extendRange = ((T.admitReqs E A.admitted).req r).extendRange := by
  unfold Scheduler.finish at h
  simp only [hpark, Bool.false_eq_true, if_false] at h
  obtain ⟨chunkedReq, hchunked, rfl⟩ := Option.map_eq_some_iff.mp h
  obtain ⟨hwaiting, hsame, hlog, hreq⟩ :=
    Scheduler.countChunk_same { T.admitReqs E A.admitted with chunkedReq := chunkedReq } false
  have hkept : A.newChunkedReq = none ∧ chunkedReq = T.chunkedReq ∨
      T.chunkedReq = none ∧ chunkedReq = A.newChunkedReq := by
    unfold updateChunked at hchunked
    split at hchunked
    · rename_i hnone
      exact .inl ⟨hnone, (Option.some.inj hchunked).symm⟩
    · rename_i r hsome
      obtain ⟨hfree, hchunked⟩ := Option.ite_none_left_eq_some.mp hchunked
      exact .inr ⟨Option.not_isSome_iff_eq_none.mp hfree, hsome ▸ (Option.some.inj hchunked).symm⟩
  unfold Scheduler.build
  split
  · rename_i hempty
    have hnil := List.isEmpty_iff.mp hempty
    refine ⟨?_, .inl ⟨hnil, hlog⟩, ?_, hreq⟩
    · rw [hwaiting, hnil]
      exact (List.filter_eq_self.mpr fun r _ => decide_eq_true List.not_mem_nil).symm
    · rw [hsame]
      exact hkept
  · refine ⟨?_, .inr ⟨_, congrArg (List.cons _) hlog, rfl, rfl, ?_⟩, ?_, hreq⟩
    · rw [hwaiting]
      rfl
    · refine List.map_congr_left fun r _ => ?_
      rw [hreq]
    · rw [hsame]
      exact hkept

theorem Scheduler.addChunkedReq_log (S : Scheduler) : (S.addChunkedReq E).log = S.log := by
  unfold Scheduler.addChunkedReq
  split <;> rfl

theorem Scheduler.addChunkedReq_chunkedReq {l : ℕ} (hl : S.chunkedReq = some l) :
    (S.addChunkedReq E).chunkedReq =
      if E.chunkEnd l (S.req l).prefixLen < E.fill l then some l else none := by
  unfold Scheduler.addChunkedReq
  rw [hl]

theorem Scheduler.addChunkedReq_req {l : ℕ} (hl : S.chunkedReq = some l) :
    (S.addChunkedReq E).req l = { S.req l with
      parked := false, extendRange := ((S.req l).prefixLen, E.chunkEnd l (S.req l).prefixLen) } := by
  unfold Scheduler.addChunkedReq
  rw [hl]
  exact Function.update_self ..

/-- The chunk in flight is not in the queue. -/
theorem Batched.notMem {chunk : List ℕ} {queue : List Candidate} (h : Batched chunk queue A) {l : ℕ}
    (hl : l ∉ queue.map (·.req)) : l ∉ A.admitted.map (·.req) := by
  intro hmem
  obtain ⟨a, ha, rfl⟩ := List.mem_map.mp hmem
  exact hl (h.queued a ha)

theorem Scheduler.Served.of_cons {b : Batch} {r : ℕ} (hlog : S'.log = b :: S.log)
    (hr : r ∉ b.reqs.map (·.1)) (h : S'.Served r) : S.Served r := by
  obtain ⟨c, hc, hmem⟩ := h
  rw [hlog] at hc
  obtain rfl | hc := List.mem_cons.mp hc
  · exact absurd hmem hr
  · exact ⟨c, hc, hmem⟩

/-- **A pass that parks** the long prompt. -/
theorem Outcome.of_parks {active dllm : Bool} {rem : ℤ} {queue : List Candidate} {l : ℕ}
    (hsolo : cfg.solo = true) (hl : S.chunkedReq = some l) (hfree : l ∉ queue.map (·.req))
    (hP : P = Pass.of cfg active (S.req l).parked (some l) (S.addChunkedReq E).chunkedReq)
    (hA : A = (Loop.over cfg E.ceilPaged P
      (Loop.start (Adder.start cfg P.scan (some rem) dllm [l])) queue).adder)
    (hpark : A.parks cfg P = true)
    (h : Scheduler.finish cfg E { S.addChunkedReq E with waiting := queue.map (·.req) } P A = some S') :
    Outcome cfg E S (queue.map (·.req)) S' ∧
      ∀ r ∈ S'.waiting, r ∈ queue.map (·.req) ∧ (S'.Served r → S.Served r) := by
  have hlong : P.long = some l := by rw [hP]; rfl
  have hpark' := hpark
  unfold Adder.parks at hpark'
  simp only [Bool.and_eq_true] at hpark'
  obtain ⟨⟨⟨-, hscan⟩, hnew⟩, hany⟩ := hpark'
  have hunparked : (S.req l).parked = false := by
    rw [hP] at hscan
    unfold Pass.of at hscan
    simp only [hsolo, if_true, Bool.and_eq_true, Bool.not_eq_true'] at hscan
    exact hscan.2
  have hchunked : P.hasChunked cfg = true := by
    unfold Pass.hasChunked
    rw [hsolo, hscan]
    exact Bool.or_true _
  rw [hscan] at hA
  have hbatched : Batched [l] queue A := hA ▸ Batched.over (.start ..)
  have hscanning : Scanning cfg rem [l] (Loop.over cfg E.ceilPaged P
      (Loop.start (Adder.start cfg true (some rem) dllm [l])) queue) :=
    Loop.over_invariant _ (fun _ _ _ _ hinv hstep => hinv.step hscan hchunked hstep) (.start ..)
  have hbounded : Bounded cfg rem [l] A := hA ▸ hscanning.bounded
  have hlength : A.admitted.length ≤ 1 :=
    hA ▸ Loop.over_single hsolo hscan hlong hfree (.start ..) rfl
  obtain ⟨r, hr, hne⟩ := List.any_eq_true.mp hany
  have hne : l ≠ r := fun heq => of_decide_eq_true hne (hlong.trans (congrArg some heq))
  have hmem : r ∈ A.admitted.map (·.req) := by
    rw [hbatched.batch] at hr
    obtain hr | hr := List.mem_append.mp hr
    · exact absurd (List.mem_singleton.mp hr).symm hne
    · exact List.mem_reverse.mp hr
  obtain ⟨a, ha, rfl⟩ := List.mem_map.mp hmem
  have hadmitted : A.admitted = [a] := by
    obtain ⟨b, hb⟩ := List.length_eq_one_iff.mp (Nat.le_antisymm hlength (List.length_pos_of_mem ha))
    rw [hb] at ha ⊢
    rw [List.mem_singleton.mp ha]
  have hlist : A.canRunList = [l, a.req] := by
    rw [hbatched.batch, hadmitted]
    rfl
  obtain ⟨hwaiting, hlog, hkept, hparked, hrange⟩ := Scheduler.finish_solo hpark hlong hadmitted hlist
    hne hbounded.unchunked (hbounded.whole a ha).1 h
  refine ⟨.solo hl hunparked (hbatched.queued a ha) (hbounded.whole a ha).2
    (hlog.trans (congrArg _ S.addChunkedReq_log)) hkept hparked (hrange.trans ?_), fun r hr => ?_⟩
  · show ((S.addChunkedReq E).req l).prefixLen = _
    rw [Scheduler.addChunkedReq_req hl]
  · rw [hwaiting] at hr
    obtain ⟨hr, hnotMem⟩ := List.mem_filter.mp hr
    exact ⟨hr, Scheduler.Served.of_cons (hlog.trans (congrArg _ S.addChunkedReq_log))
      (of_decide_eq_true hnotMem)⟩

/-- **A pass that does not park**. -/
theorem Outcome.of_not_parks {active dllm : Bool} {rem : ℤ} {queue : List Candidate}
    (hsolo : cfg.solo = true) (hfree : ∀ l, S.chunkedReq = some l → l ∉ queue.map (·.req))
    (hP : P = Pass.of cfg active (S.chunkedReq.any fun r => (S.req r).parked) S.chunkedReq
      (S.addChunkedReq E).chunkedReq)
    (hA : A = (Loop.over cfg E.ceilPaged P
      (Loop.start (Adder.start cfg P.scan (some rem) dllm S.chunkedReq.toList)) queue).adder)
    (hpark : A.parks cfg P = false)
    (h : Scheduler.finish cfg E { S.addChunkedReq E with waiting := queue.map (·.req) } P A = some S') :
    Outcome cfg E S (queue.map (·.req)) S' ∧
      ∀ r ∈ S'.waiting, r ∈ queue.map (·.req) ∧ (S'.Served r → S.Served r) := by
  have hbatched : Batched S.chunkedReq.toList queue A := hA ▸ Batched.over (.start ..)
  obtain ⟨hwaiting, hlog, hkept, hrange⟩ := Scheduler.finish_chunk hpark h
  have hlogS := S.addChunkedReq_log (E := E)
  obtain ⟨hempty, hlog⟩ | ⟨b, hlog, hbsolo, -, hreqs⟩ := hlog
  · rw [hbatched.batch] at hempty
    obtain ⟨hnone, hadmitted⟩ := List.append_eq_nil_iff.mp hempty
    have hnone : S.chunkedReq = none := Option.toList_eq_nil_iff.mp hnone
    have hT : (S.addChunkedReq E).chunkedReq = none := by
      unfold Scheduler.addChunkedReq
      rw [hnone]
      exact hnone
    refine ⟨.nothing hnone (hlog.trans hlogS) ?_, fun r hr => ?_⟩
    · obtain ⟨-, heq⟩ | ⟨-, heq⟩ := hkept
      · exact heq.trans hT
      · rw [heq]
        refine Option.eq_none_iff_forall_ne_some.mpr fun r hr => ?_
        have hmem := hbatched.chunked r hr
        rw [List.reverse_eq_nil_iff.mp hadmitted] at hmem
        exact absurd hmem List.not_mem_nil
    · rw [hwaiting] at hr
      refine ⟨(List.mem_filter.mp hr).1, fun hserved => ?_⟩
      unfold Scheduler.Served at hserved
      rw [hlog.trans hlogS] at hserved
      exact hserved
  · have hlist : b.reqs.map (·.1) = A.canRunList := by
      rw [hreqs, List.map_map]
      exact List.map_id _
    have hchunkRange {l : ℕ} (hl : S.chunkedReq = some l) :
        ((Scheduler.admitReqs E { S.addChunkedReq E with waiting := queue.map (·.req) }
          A.admitted).req l).extendRange = ((S.req l).prefixLen, E.chunkEnd l (S.req l).prefixLen) := by
      rw [Scheduler.admit_req_of_notMem (hbatched.notMem (hfree l hl))]
      show ((S.addChunkedReq E).req l).extendRange = _
      rw [Scheduler.addChunkedReq_req hl]
    rw [hbatched.batch, List.map_append] at hreqs
    refine ⟨.chunk (hlog.trans (congrArg _ hlogS)) hbsolo (hreqs.trans (congrArg (· ++ _) ?_)) ?_ ?_ ?_,
      fun r hr => ?_⟩
    · refine List.map_congr_left fun l hl => ?_
      rw [hchunkRange (Option.mem_toList.mp hl)]
    · intro x hx
      obtain ⟨r, hr, rfl⟩ := List.mem_map.mp hx
      obtain ⟨a, ha, rfl⟩ := List.mem_map.mp (List.mem_reverse.mp hr)
      exact hbatched.queued a ha
    · intro l hl hparked
      have hresume : P.resume = true := by
        rw [hP, hl]
        exact hparked
      have hsame := (@Loop.over_invariant cfg E.ceilPaged P
        (Loop.start (Adder.start cfg P.scan (some rem) dllm S.chunkedReq.toList)) queue
        (fun L => L.adder = Adder.start cfg P.scan (some rem) dllm S.chunkedReq.toList ∧ L.scanned = 0)
        (fun _ _ _ _ hinv hstep => Loop.step_resume hsolo hresume hinv hstep) ⟨rfl, rfl⟩).1
      rw [hA, hsame]
      rfl
    · have hend {l : ℕ} (hl : S.chunkedReq = some l)
          (hnone : (S.addChunkedReq E).chunkedReq = none) :
          E.chunkEnd l (S.req l).prefixLen = E.fill l := by
        rw [Scheduler.addChunkedReq_chunkedReq hl] at hnone
        have hge : ¬E.chunkEnd l (S.req l).prefixLen < E.fill l := fun hlt => by
          rw [if_pos hlt] at hnone
          cases hnone
        exact le_antisymm (min_le_right _ _) (not_lt.mp hge)
      obtain ⟨-, hsame⟩ | ⟨hnone, hnew⟩ := hkept
      · have hsame : S'.chunkedReq = (S.addChunkedReq E).chunkedReq := hsame
        cases hl : S.chunkedReq with
        | none =>
          have hT : (S.addChunkedReq E).chunkedReq = none := by
            unfold Scheduler.addChunkedReq
            rw [hl]
            exact hl
          refine .inr ⟨fun l h => absurd h.symm (Option.some_ne_none l), fun r hr => ?_⟩
          rw [hsame, hT] at hr
          cases hr
        | some l =>
          by_cases hlt : E.chunkEnd l (S.req l).prefixLen < E.fill l
          · refine .inl ⟨l, rfl, hlt, ?_, ?_⟩
            · rw [hsame, Scheduler.addChunkedReq_chunkedReq hl, if_pos hlt]
            · rw [hrange, hchunkRange hl]
          · have hT : (S.addChunkedReq E).chunkedReq = none := by
              rw [Scheduler.addChunkedReq_chunkedReq hl, if_neg hlt]
            refine .inr ⟨fun k hk => hend (hl.trans hk) hT, fun r hr => ?_⟩
            rw [hsame, hT] at hr
            cases hr
      · refine .inr ⟨fun l hl => hend hl hnone, fun r hr => ?_⟩
        rw [List.map_map]
        show r ∈ (A.admitted.map (·.req)).reverse.map id
        rw [List.map_id]
        exact List.mem_reverse.mpr (hbatched.chunked r (hnew ▸ hr))
    · rw [hwaiting] at hr
      obtain ⟨hr, hnotMem⟩ := List.mem_filter.mp hr
      exact ⟨hr, Scheduler.Served.of_cons (hlog.trans (congrArg _ hlogS))
        (hlist ▸ of_decide_eq_true hnotMem)⟩

/-- **Every pass has one of the outcomes**, and only requests that are in no batch stay in
the waiting queue. -/
theorem Scheduler.pass_outcome {active dllm : Bool} {rem : ℤ} {queue : List Candidate}
    (hsolo : cfg.solo = true) (hfree : ∀ l, S.chunkedReq = some l → l ∉ queue.map (·.req))
    (h : S.pass cfg E active dllm rem queue = some S') : Outcome cfg E S (queue.map (·.req)) S' ∧
      ∀ r ∈ S'.waiting, r ∈ queue.map (·.req) ∧ (S'.Served r → S.Served r) := by
  unfold Scheduler.pass at h
  obtain ⟨-, h⟩ := Option.ite_none_left_eq_some.mp h
  generalize hP : Pass.of cfg active _ _ _ = P at h
  generalize hA : (Loop.over cfg E.ceilPaged P _ queue).adder = A at h
  cases hpark : A.parks cfg P with
  | false => exact Outcome.of_not_parks hsolo hfree hP.symm hA.symm hpark h
  | true =>
    cases hl : S.chunkedReq with
    | none =>
      have hlong : P.long = none := hP ▸ hl
      unfold Adder.parks at hpark
      rw [hlong] at hpark
      simp at hpark
    | some l =>
      rw [hl] at hP hA
      exact Outcome.of_parks hsolo hl (hfree l hl) hP.symm hA.symm hpark h

end Pass

end PrefillBypass
