import SparkTP4.PrefillSolo
import Mathlib.Data.List.Chain

/-!
# The solo passes of a run

`solo_passes` is what the module docstring of `prefill_bypass.py` promises of every run of
the scheduler: solo passes alternate with passes that run a chunk, each carries one
short request, and the long prompt executes the chunks that it would execute on an
idle server (`Scheduler.IdleReaches`) and stays the chunked request until the last of them.
-/

namespace PrefillBypass

variable {cfg : Config} {E : Engine} {S S' I : Scheduler} {l : ℕ}

/-- The ranges that a request has executed, the latest first. -/
def Scheduler.ranges (S : Scheduler) (r : ℕ) : List (ℤ × ℤ) :=
  S.log.flatMap fun b => (b.reqs.filter fun x => x.1 = r).map (·.2)

/-- The states reachable when any event may happen. -/
def Scheduler.Reaches (cfg : Config) (E : Engine) : Scheduler → Scheduler → Prop :=
  Transition.Reachable (Scheduler.step cfg E) fun _ _ => True

/-- The states reachable by passes with an empty waiting queue. -/
def Scheduler.IdleReaches (cfg : Config) (E : Engine) (S : Scheduler) : Scheduler → Prop :=
  Transition.Reachable (Scheduler.step cfg E) (fun _ e => ∃ active dllm rem, e = .pass active dllm rem [])
    { S with waiting := [] }

/-- The batch runs a chunk of the long prompt and nothing else. -/
def Batch.Alone (E : Engine) (b : Batch) (l : ℕ) : Prop := ∃ p, b.reqs = [(l, p, E.chunkEnd l p)]

/-- The batch of a solo pass: one short request, whole, beside the parked `l`. -/
def Batch.Solo (cfg : Config) (E : Engine) (b : Batch) (l : ℕ) : Prop :=
  ∃ r p, b.reqs = [(r, p, E.fill r)] ∧ r ≠ l ∧ 0 ≤ E.fill r - p ∧ E.fill r - p ≤ cfg.limit

/-- **The batches alternate**, the latest first. -/
structure Alternates (cfg : Config) (E : Engine) (log : List Batch) : Prop where
  solo : ∀ b ∈ log, b.solo = true → ∃ l, b.long = some l ∧ b.Solo cfg E l ∧ b.newChunkedReq = none
  next : log.IsChain fun b a => a.solo = true →
    b.solo = false ∧ ∃ l, a.long = some l ∧ b.Alone E l

/-- **Between two solo passes a chunk runs**, alone. -/
theorem Alternates.between {log : List Batch} (h : Alternates cfg E log) {l₁ l₂ l₃ : List Batch}
    {a b : Batch} (hlog : log = l₁ ++ (b :: l₂) ++ a :: l₃) (ha : a.solo = true) (hb : b.solo = true) :
    ∃ c ∈ l₂, ∃ l, a.long = some l ∧ c.Alone E l := by
  have hnext := h.next
  rw [hlog, List.append_assoc] at hnext
  have hlast := hnext.right_of_append.rel_getLast_head_of_append
    (List.cons_ne_nil b l₂) (List.cons_ne_nil a l₃)
  obtain ⟨hc, halone⟩ := hlast ha
  obtain heq | hmem := List.mem_cons.mp (List.getLast_mem (List.cons_ne_nil b l₂))
  · rw [heq, hb] at hc
    cases hc
  · exact ⟨_, hmem, halone⟩

/-! ## The stash -/

theorem Scheduler.stash_same (S : Scheduler) : S.stash.waiting = S.waiting ∧
    S.stash.chunkedReq = S.chunkedReq ∧ S.stash.log = S.log ∧
    ∀ r, (S.stash.req r).parked = (S.req r).parked ∧
      (S.stash.req r).extendRange = (S.req r).extendRange := by
  unfold Scheduler.stash
  split
  · exact ⟨rfl, rfl, rfl, fun _ => ⟨rfl, rfl⟩⟩
  · rename_i q _
    refine ⟨rfl, rfl, rfl, fun r => ?_⟩
    dsimp only
    by_cases hr : r = q
    · rw [hr, Function.update_self]
      exact ⟨rfl, rfl⟩
    · rw [Function.update_of_ne hr]
      exact ⟨rfl, rfl⟩

theorem Scheduler.stash_prefixLen (hl : S.chunkedReq = some l) :
    (S.stash.req l).prefixLen = (S.req l).extendRange.2 := by
  unfold Scheduler.stash
  rw [hl]
  dsimp only
  rw [Function.update_self]

/-! ## The invariant -/

/-- **The invariant of a run.** A request that has been in a batch is not in the queue, and
the prompt that a solo pass has parked is in flight. -/
structure Inv (cfg : Config) (E : Engine) (S : Scheduler) : Prop where
  served : ∀ l, S.chunkedReq = some l → S.Served l
  waiting : ∀ r ∈ S.waiting, ¬S.Served r
  alternates : Alternates cfg E S.log
  parked : ∀ a ∈ S.log.head?, a.solo = true →
    ∃ l, a.long = some l ∧ S.chunkedReq = some l ∧ (S.req l).parked = true

theorem Inv.start (cfg : Config) (E : Engine) : Inv cfg E .start where
  served _ h := by cases h
  waiting _ h := absurd h List.not_mem_nil
  alternates := ⟨fun _ h => absurd h List.not_mem_nil, List.isChain_nil⟩
  parked _ h := by cases h

theorem Scheduler.served_congr (hlog : S'.log = S.log) (r : ℕ) : S'.Served r ↔ S.Served r := by
  unfold Scheduler.Served
  rw [hlog]

theorem Inv.stash (h : Inv cfg E S) : Inv cfg E S.stash := by
  obtain ⟨hwaiting, hchunked, hlog, hreq⟩ := S.stash_same
  refine ⟨fun l hl => ?_, fun r hr => ?_, ?_, fun a ha hsolo => ?_⟩
  · exact (Scheduler.served_congr hlog l).mpr (h.served l (hchunked ▸ hl))
  · rw [Scheduler.served_congr hlog]
    exact h.waiting r (hwaiting ▸ hr)
  · rw [hlog]
    exact h.alternates
  · rw [hlog] at ha
    obtain ⟨l, hlong, hl, hparked⟩ := h.parked a ha hsolo
    exact ⟨l, hlong, hchunked.trans hl, (hreq l).1.trans hparked⟩

theorem Inv.arrive (h : Inv cfg E S) {r : ℕ} (hr : ¬S.Served r) :
    Inv cfg E { S with waiting := S.waiting ++ [r] } where
  served := h.served
  waiting q hq := by
    obtain hq | hq := List.mem_append.mp hq
    · exact h.waiting q hq
    · exact List.mem_singleton.mp hq ▸ hr
  alternates := h.alternates
  parked := h.parked

theorem Scheduler.served_cons {b : Batch} {r : ℕ} (hlog : S'.log = b :: S.log) (h : S.Served r) :
    S'.Served r := by
  obtain ⟨c, hc, hmem⟩ := h
  exact ⟨c, hlog ▸ List.mem_cons_of_mem _ hc, hmem⟩

theorem Scheduler.served_head {b : Batch} {r : ℕ} (hlog : S'.log = b :: S.log)
    (h : r ∈ b.reqs.map (·.1)) : S'.Served r :=
  ⟨b, hlog ▸ List.mem_cons_self, h⟩

theorem Alternates.cons {log : List Batch} (h : Alternates cfg E log) {b : Batch}
    (hsolo : b.solo = true → ∃ l, b.long = some l ∧ b.Solo cfg E l ∧ b.newChunkedReq = none)
    (hnext : ∀ a ∈ log.head?, a.solo = true → b.solo = false ∧ ∃ l, a.long = some l ∧ b.Alone E l) :
    Alternates cfg E (b :: log) where
  solo c hc := by
    obtain rfl | hc := List.mem_cons.mp hc
    · exact hsolo
    · exact h.solo c hc
  next := List.isChain_cons.mpr ⟨hnext, h.next⟩

/-- **A pass keeps the invariant.** -/
theorem Inv.pass {active dllm : Bool} {rem : ℤ} {queue : List Candidate} (hsolo : cfg.solo = true)
    (h : Inv cfg E S) (hperm : (queue.map (·.req)).Perm S.waiting)
    (hpass : S.pass cfg E active dllm rem queue = some S') : Inv cfg E S' := by
  have hqueue : ∀ r ∈ queue.map (·.req), ¬S.Served r := fun r hr => h.waiting r (hperm.mem_iff.mp hr)
  obtain ⟨houtcome, hwaiting⟩ := Scheduler.pass_outcome hsolo
    (fun l hl hmem => hqueue l hmem (h.served l hl)) hpass
  have hwaiting : ∀ r ∈ S'.waiting, ¬S'.Served r := fun r hr hserved =>
    hqueue r (hwaiting r hr).1 ((hwaiting r hr).2 hserved)
  cases houtcome with
  | nothing long log chunked =>
    refine ⟨fun l hl => ?_, hwaiting, log ▸ h.alternates, fun a ha hsolo => ?_⟩
    · rw [chunked] at hl
      cases hl
    · rw [log] at ha
      obtain ⟨l, -, hl, -⟩ := h.parked a ha hsolo
      rw [long] at hl
      cases hl
  | @solo l a long unparked queued short log chunked parked range =>
    have hne : a.req ≠ l := fun heq => hqueue a.req queued (heq ▸ h.served l long)
    refine ⟨fun q hq => ?_, hwaiting, log ▸ h.alternates.cons (fun _ => ?_) ?_, fun b hb _ => ?_⟩
    · obtain rfl := Option.some.inj (chunked.symm.trans hq)
      exact Scheduler.served_cons log (h.served l long)
    · refine ⟨l, rfl, ⟨a.req, E.fill a.req - a.fresh, rfl, hne, ?_⟩, rfl⟩
      rw [Int.sub_sub_self]
      exact short
    · intro b hb hb'
      obtain ⟨q, -, hq, hparked⟩ := h.parked b hb hb'
      obtain rfl := Option.some.inj (long.symm.trans hq)
      rw [unparked] at hparked
      cases hparked
    · rw [log] at hb
      obtain rfl := Option.some.inj hb
      exact ⟨l, rfl, chunked, parked⟩
  | @chunk b rest log hb batch queued resume chunked =>
    have hrest : ∀ r ∈ rest.map (·.1), r ∈ b.reqs.map (·.1) := fun r hr => by
      rw [batch, List.map_append]
      exact List.mem_append_right _ hr
    refine ⟨fun q hq => ?_, hwaiting, log ▸ h.alternates.cons (fun hb' => ?_) ?_, fun c hc hc' => ?_⟩
    · obtain ⟨l, hl, -, hl', -⟩ | ⟨-, hnew⟩ := chunked
      · obtain rfl := Option.some.inj (hl'.symm.trans hq)
        exact Scheduler.served_cons log (h.served l hl)
      · exact Scheduler.served_head log (hrest q (hnew q hq))
    · rw [hb] at hb'
      cases hb'
    · intro a ha ha'
      obtain ⟨l, hlong, hl, hparked⟩ := h.parked a ha ha'
      refine ⟨hb, l, hlong, (S.req l).prefixLen, ?_⟩
      rw [batch, hl, resume l hl hparked]
      rfl
    · rw [log] at hc
      obtain rfl := Option.some.inj hc
      rw [hb] at hc'
      cases hc'

theorem Inv.step (hsolo : cfg.solo = true) (h : Inv cfg E S) {e : Event}
    (hstep : S.step cfg E e = some S') : Inv cfg E S' := by
  cases e with
  | arrive r =>
    obtain ⟨hr, hstep⟩ := Option.ite_none_left_eq_some.mp hstep
    obtain rfl := Option.some.inj hstep
    exact h.arrive fun hserved => hr (.inr hserved)
  | idle =>
    obtain rfl := Option.some.inj hstep
    exact h.stash
  | pass active dllm rem queue =>
    obtain ⟨hperm, hpass⟩ := Option.ite_none_right_eq_some.mp hstep
    exact h.stash.pass hsolo (S.stash_same.1 ▸ hperm) hpass

theorem Inv.reaches (hsolo : cfg.solo = true) (h : Inv cfg E S) (hreaches : S.Reaches cfg E S') :
    Inv cfg E S' :=
  hreaches.invariant (Inv cfg E) h fun _ _ _ hinv _ hstep => hinv.step hsolo hstep

/-! ## The long prompt -/

/-- **The long prompt is not lost**: it stays the chunked request, or the event was the
pass of its final chunk. -/
theorem Inv.kept (hsolo : cfg.solo = true) (h : Inv cfg E S) (hl : S.chunkedReq = some l) {e : Event}
    (hstep : S.step cfg E e = some S') : S'.chunkedReq = some l ∨
      ∃ b p, S'.log = b :: S.log ∧ b.solo = false ∧ (l, p, E.fill l) ∈ b.reqs := by
  cases e with
  | arrive r =>
    obtain ⟨-, hstep⟩ := Option.ite_none_left_eq_some.mp hstep
    obtain rfl := Option.some.inj hstep
    exact .inl hl
  | idle =>
    obtain rfl := Option.some.inj hstep
    exact .inl (S.stash_same.2.1.trans hl)
  | pass active dllm rem queue =>
    obtain ⟨hperm, hpass⟩ := Option.ite_none_right_eq_some.mp hstep
    have hlog := S.stash_same.2.2.1
    have hlT : S.stash.chunkedReq = some l := S.stash_same.2.1.trans hl
    have hfree : ∀ q, S.stash.chunkedReq = some q → q ∉ queue.map (·.req) := fun q hq hmem =>
      h.waiting q (hperm.mem_iff.mp hmem) (h.served q (S.stash_same.2.1 ▸ hq))
    cases (Scheduler.pass_outcome hsolo hfree hpass).1 with
    | nothing long =>
      rw [hlT] at long
      cases long
    | solo long _ _ _ _ chunked =>
      obtain rfl := Option.some.inj (hlT.symm.trans long)
      exact .inl chunked
    | @chunk b rest log hb batch _ _ chunked =>
      obtain ⟨q, hq, -, hq', -⟩ | ⟨hend, -⟩ := chunked
      · obtain rfl := Option.some.inj (hlT.symm.trans hq)
        exact .inl hq'
      · refine .inr ⟨b, (S.stash.req l).prefixLen, log.trans (congrArg _ hlog), hb, ?_⟩
        rw [batch, hlT, ← hend l hlT]
        exact List.mem_append_left _ List.mem_cons_self

theorem Scheduler.ranges_cons {b : Batch} (hlog : S'.log = b :: S.log) (r : ℕ) :
    S'.ranges r = (b.reqs.filter fun x => x.1 = r).map (·.2) ++ S.ranges r := by
  unfold Scheduler.ranges
  rw [hlog]
  rfl

theorem Scheduler.ranges_congr (hlog : S'.log = S.log) (r : ℕ) : S'.ranges r = S.ranges r := by
  unfold Scheduler.ranges
  rw [hlog]

/-- A batch without the request adds no range of it. -/
theorem Scheduler.ranges_cons_of_notMem {b : Batch} (hlog : S'.log = b :: S.log) {r : ℕ}
    (hr : r ∉ b.reqs.map (·.1)) : S'.ranges r = S.ranges r := by
  have hnil : (b.reqs.filter fun x => x.1 = r) = [] :=
    List.filter_eq_nil_iff.mpr fun x hx heq => hr (of_decide_eq_true heq ▸ List.mem_map_of_mem hx)
  rw [Scheduler.ranges_cons hlog, hnil]
  rfl

/-- How a run and an idle run agree on a prompt: on the ranges that it has executed, and, as
long as it is in flight, on the end of the last one. -/
structure Agrees (cfg : Config) (E : Engine) (l : ℕ) (S I : Scheduler) : Prop where
  left : Inv cfg E S
  right : Inv cfg E I
  waiting : I.waiting = []
  served : S.Served l
  ranges : S.ranges l = I.ranges l
  flight : S.chunkedReq = some l ↔ I.chunkedReq = some l
  reached : S.chunkedReq = some l → (S.req l).extendRange.2 = (I.req l).extendRange.2

/-- **An idle pass runs the next chunk** of the prompt in flight. -/
theorem Inv.idle_pass (hsolo : cfg.solo = true) (h : Inv cfg E I) (hl : I.chunkedReq = some l)
    (hwaiting : I.waiting = []) : ∃ I' b, I.step cfg E (.pass true false 0 []) = some I' ∧
      Inv cfg E I' ∧ I'.waiting = [] ∧ I'.log = b :: I.log ∧
      b.reqs = [(l, (I.req l).extendRange.2, E.chunkEnd l (I.req l).extendRange.2)] ∧
      (E.chunkEnd l (I.req l).extendRange.2 < E.fill l ∧ I'.chunkedReq = some l ∧
          (I'.req l).extendRange.2 = E.chunkEnd l (I.req l).extendRange.2 ∨
        E.chunkEnd l (I.req l).extendRange.2 = E.fill l ∧ I'.chunkedReq = none) := by
  have hlT : I.stash.chunkedReq = some l := I.stash_same.2.1.trans hl
  have hfree : ∀ q, I.stash.chunkedReq = some q → q ∉ ([] : List Candidate).map (·.req) :=
    fun _ _ => List.not_mem_nil
  obtain ⟨I', hpass⟩ : ∃ I', I.stash.pass cfg E true false 0 [] = some I' := ⟨_, rfl⟩
  have hstep : I.step cfg E (.pass true false 0 []) = some I' :=
    (if_pos (by rw [hwaiting]; exact .nil)).trans hpass
  obtain ⟨houtcome, hqueue⟩ := Scheduler.pass_outcome hsolo hfree hpass
  have hnil : I'.waiting = [] :=
    List.eq_nil_iff_forall_not_mem.mpr fun r hr => List.not_mem_nil (hqueue r hr).1
  cases houtcome with
  | nothing long =>
    rw [hlT] at long
    cases long
  | solo _ _ queued => exact absurd queued List.not_mem_nil
  | @chunk b rest log _ batch queued _ chunked =>
    have hrest : rest = [] := List.eq_nil_iff_forall_not_mem.mpr fun x hx =>
      List.not_mem_nil (queued x hx)
    have hstash := Scheduler.stash_prefixLen hl
    refine ⟨I', b, hstep, h.step hsolo hstep, hnil, log.trans (congrArg _ I.stash_same.2.2.1), ?_, ?_⟩
    · rw [batch, hrest, hlT, ← hstash]
      rfl
    obtain ⟨q, hq, hlt, hq', hrange⟩ | ⟨hend, hnew⟩ := chunked
    · obtain rfl := Option.some.inj (hlT.symm.trans hq)
      rw [hstash] at hlt hrange
      exact .inl ⟨hlt, hq', hrange⟩
    · refine .inr ⟨hstash ▸ hend l hlT, ?_⟩
      refine Option.eq_none_iff_forall_ne_some.mpr fun r hr => ?_
      have hmem := hnew r hr
      rw [hrest] at hmem
      exact List.not_mem_nil hmem

theorem Agrees.congr (h : Agrees cfg E l S I) (hinv : Inv cfg E S') (hlog : S'.log = S.log)
    (hchunked : S'.chunkedReq = S.chunkedReq) (hrange : ∀ r, (S'.req r).extendRange = (S.req r).extendRange) :
    Agrees cfg E l S' I where
  left := hinv
  right := h.right
  waiting := h.waiting
  served := (Scheduler.served_congr hlog l).mpr h.served
  ranges := (Scheduler.ranges_congr hlog l).trans h.ranges
  flight := hchunked ▸ h.flight
  reached hl := by
    rw [hrange]
    exact h.reached (hchunked ▸ hl)

/-- **A pass is matched by an idle pass if it runs a chunk of the prompt, else by none.** -/
theorem Agrees.pass (hsolo : cfg.solo = true) (h : Agrees cfg E l S I) {active dllm : Bool} {rem : ℤ}
    {queue : List Candidate} (hperm : (queue.map (·.req)).Perm S.waiting)
    (hpass : S.stash.pass cfg E active dllm rem queue = some S') :
    ∃ I', Transition.Reachable (Scheduler.step cfg E)
      (fun _ e => ∃ active dllm rem, e = .pass active dllm rem []) I I' ∧ Agrees cfg E l S' I' := by
  obtain ⟨hwaiting, hchunked, hlog, hreq⟩ := S.stash_same
  have hinv : Inv cfg E S' := h.left.stash.pass hsolo (hwaiting ▸ hperm) hpass
  have hqueue : ∀ r ∈ queue.map (·.req), ¬S.Served r := fun r hr =>
    h.left.waiting r (hperm.mem_iff.mp hr)
  have hfree : ∀ q, S.stash.chunkedReq = some q → q ∉ queue.map (·.req) := fun q hq hmem =>
    hqueue q hmem (h.left.served q (hchunked ▸ hq))
  cases (Scheduler.pass_outcome hsolo hfree hpass).1 with
  | nothing long log chunked =>
    have hnone : S.chunkedReq = none := hchunked ▸ long
    refine ⟨I, .start, hinv, h.right, h.waiting, ?_, ?_, ?_, fun hl => ?_⟩
    · exact (Scheduler.served_congr (log.trans hlog) l).mpr h.served
    · exact (Scheduler.ranges_congr (log.trans hlog) l).trans h.ranges
    · rw [chunked, ← hnone]
      exact h.flight
    · rw [chunked] at hl
      cases hl
  | @solo q a long _ queued _ log chunked _ range =>
    have hlogS := log.trans (congrArg _ hlog)
    have hne : l ≠ a.req := fun heq => hqueue a.req queued (heq ▸ h.served)
    have hq : S.chunkedReq = some q := hchunked ▸ long
    refine ⟨I, .start, hinv, h.right, h.waiting, Scheduler.served_cons hlogS h.served, ?_, ?_,
      fun hl => ?_⟩
    · refine (Scheduler.ranges_cons_of_notMem hlogS ?_).trans h.ranges
      exact fun hmem => hne (List.mem_singleton.mp hmem)
    · rw [chunked, ← hq]
      exact h.flight
    · obtain rfl := Option.some.inj (chunked.symm.trans hl)
      rw [range, Scheduler.stash_prefixLen hq]
      exact h.reached hq
  | @chunk b rest log _ batch queued _ chunked =>
    have hlogS := log.trans (congrArg _ hlog)
    have hrest : l ∉ rest.map (·.1) := fun hmem => by
      obtain ⟨x, hx, rfl⟩ := List.mem_map.mp hmem
      exact hqueue x.1 (queued x hx) h.served
    by_cases hl : S.chunkedReq = some l
    · have hend := Scheduler.stash_prefixLen hl
      have hlT : S.stash.chunkedReq = some l := hchunked.trans hl
      obtain ⟨I', c, hstep, hright, hnil, hlogI, hc, hflight⟩ :=
        h.right.idle_pass hsolo (h.flight.mp hl) h.waiting
      rw [← h.reached hl] at hc hflight
      refine ⟨I', .step .start ⟨_, _, _, rfl⟩ hstep, hinv, hright, hnil,
        Scheduler.served_cons hlogS h.served, ?_, ?_, fun hl' => ?_⟩
      · have hfilter : (rest.filter fun x => x.1 = l) = [] :=
          List.filter_eq_nil_iff.mpr fun x hx heq =>
            hrest (of_decide_eq_true heq ▸ List.mem_map_of_mem hx)
        have hb : b.reqs = (l, (S.stash.req l).prefixLen, E.chunkEnd l (S.stash.req l).prefixLen) :: rest := by
          rw [batch, hlT]
          rfl
        rw [Scheduler.ranges_cons hlogS, Scheduler.ranges_cons hlogI, hb, hc, hend, h.ranges,
          List.filter_cons, List.filter_cons, hfilter]
        rfl
      · obtain ⟨q, hq, hlt, hq', -⟩ | ⟨hfinal, hnew⟩ := chunked
        · obtain rfl := Option.some.inj (hlT.symm.trans hq)
          obtain ⟨-, hI, -⟩ | ⟨hfinal, -⟩ := hflight
          · rw [hq', hI]
          · rw [hend, hfinal] at hlt
            exact absurd hlt (lt_irrefl _)
        · have hleft : S'.chunkedReq ≠ some l := fun hl' => hrest (hnew l hl')
          obtain ⟨hlt, -⟩ | ⟨-, hI⟩ := hflight
          · rw [← hend, hfinal l hlT] at hlt
            exact absurd hlt (lt_irrefl _)
          · rw [hI]
            exact ⟨fun hl' => absurd hl' hleft, fun hl' => by cases hl'⟩
      · obtain ⟨q, hq, hlt, -, hrange⟩ | ⟨-, hnew⟩ := chunked
        · obtain rfl := Option.some.inj (hlT.symm.trans hq)
          obtain ⟨-, -, hI⟩ | ⟨hfinal, -⟩ := hflight
          · rw [hrange, hI, hend]
          · rw [hend, hfinal] at hlt
            exact absurd hlt (lt_irrefl _)
        · exact absurd (hnew l hl') hrest
    · have hnotMem : l ∉ b.reqs.map (·.1) := fun hmem => by
        rw [batch, List.map_append, List.map_map] at hmem
        obtain hmem | hmem := List.mem_append.mp hmem
        · obtain ⟨q, hq, rfl⟩ := List.mem_map.mp hmem
          exact hl (hchunked ▸ Option.mem_toList.mp hq)
        · exact hrest hmem
      have hleft : S'.chunkedReq ≠ some l := fun hl' => by
        obtain ⟨q, hq, -, hq', -⟩ | ⟨-, hnew⟩ := chunked
        · exact hl (hchunked ▸ hq.trans (hq'.symm.trans hl'))
        · exact hrest (hnew l hl')
      refine ⟨I, .start, hinv, h.right, h.waiting, Scheduler.served_cons hlogS h.served,
        (Scheduler.ranges_cons_of_notMem hlogS hnotMem).trans h.ranges, ?_, fun hl' => absurd hl' hleft⟩
      exact ⟨fun hl' => absurd hl' hleft, fun hI => absurd (h.flight.mpr hI) hl⟩

/-- **The long prompt executes the chunks of an idle server.** -/
theorem Inv.idle (hsolo : cfg.solo = true) (h : Inv cfg E S) (hl : S.chunkedReq = some l)
    (hreaches : S.Reaches cfg E S') : ∃ I, S.IdleReaches cfg E I ∧ S'.ranges l = I.ranges l ∧
      (S'.chunkedReq = some l ↔ I.chunkedReq = some l) := by
  have hidle : Inv cfg E { S with waiting := [] } :=
    { h with waiting := fun _ hr => absurd hr List.not_mem_nil }
  suffices hsim : ∃ I, S.IdleReaches cfg E I ∧ Agrees cfg E l S' I by
    obtain ⟨I, hI, hagrees⟩ := hsim
    exact ⟨I, hI, hagrees.ranges, hagrees.flight⟩
  refine hreaches.simulates (Agrees cfg E l)
    ⟨h, hidle, rfl, h.served l hl, rfl, Iff.rfl, fun _ => rfl⟩ fun T e T' I hagrees _ hstep => ?_
  have hinv := hagrees.left.step hsolo hstep
  cases e with
  | arrive r =>
    obtain ⟨-, hstep⟩ := Option.ite_none_left_eq_some.mp hstep
    obtain rfl := Option.some.inj hstep
    exact ⟨I, .start, hagrees.congr hinv rfl rfl fun _ => rfl⟩
  | idle =>
    obtain rfl := Option.some.inj hstep
    obtain ⟨-, hchunked, hlog, hreq⟩ := T.stash_same
    exact ⟨I, .start, hagrees.congr hinv hlog hchunked fun r => (hreq r).2⟩
  | pass active dllm rem queue =>
    obtain ⟨hperm, hpass⟩ := Option.ite_none_right_eq_some.mp hstep
    exact hagrees.pass hsolo hperm hpass

/-- **Solo passes.** In every run of the scheduler with the solo patches: between two solo
passes a chunk of the long prompt runs alone, in the very next pass; a solo pass carries one
short request, whole, and not the long prompt; a pass with a new chunked request is not one;
the long prompt stays the chunked request until the pass of its final chunk; and whatever
happens from a state on, it has executed the chunks of an idle run. -/
theorem solo_passes (hsolo : cfg.solo = true) (h : Scheduler.start.Reaches cfg E S) :
    (∀ l₁ b l₂ a l₃, S.log = l₁ ++ (b :: l₂) ++ a :: l₃ → a.solo = true → b.solo = true →
      ∃ c ∈ l₂, ∃ l, a.long = some l ∧ c.Alone E l) ∧
    (∀ l₁ b a l₂, S.log = l₁ ++ b :: a :: l₂ → a.solo = true →
      b.solo = false ∧ ∃ l, a.long = some l ∧ b.Alone E l) ∧
    (∀ b ∈ S.log, b.solo = true → ∃ l, b.long = some l ∧ b.Solo cfg E l) ∧
    (∀ b ∈ S.log, b.newChunkedReq.isSome → b.solo = false) ∧
    ∀ l, S.chunkedReq = some l →
      (∀ e S', S.step cfg E e = some S' → S'.chunkedReq = some l ∨
        ∃ b p, S'.log = b :: S.log ∧ b.solo = false ∧ (l, p, E.fill l) ∈ b.reqs) ∧
      ∀ S', S.Reaches cfg E S' → ∃ I, S.IdleReaches cfg E I ∧ S'.ranges l = I.ranges l ∧
        (S'.chunkedReq = some l ↔ I.chunkedReq = some l) := by
  have hinv : Inv cfg E S := (Inv.start cfg E).reaches hsolo h
  refine ⟨fun l₁ b l₂ a l₃ hlog ha hb => hinv.alternates.between hlog ha hb,
    fun l₁ b a l₂ hlog ha => ?_, fun b hb hbs => ?_, fun b hb hnew => ?_, fun l hl =>
      ⟨fun e S' hstep => hinv.kept hsolo hl hstep, fun S' hreaches => hinv.idle hsolo hl hreaches⟩⟩
  · have hnext := hinv.alternates.next
    rw [hlog] at hnext
    exact hnext.right_of_append.rel ha
  · obtain ⟨l, hlong, hshort, -⟩ := hinv.alternates.solo b hb hbs
    exact ⟨l, hlong, hshort⟩
  · refine Bool.eq_false_iff.mpr fun hbs => ?_
    obtain ⟨-, -, -, hnone⟩ := hinv.alternates.solo b hb hbs
    rw [hnone] at hnew
    cases hnew

/-- A long prompt of 10 tokens and short ones of 2, in chunks of 4 tokens. -/
def smallEngine : Engine := ⟨fun r => if r = 0 then 10 else 2, fun _ _ => 4, fun n => n⟩

def soloConfig : Config := ⟨8, 4, true, budget_pos, page_pos⟩

/-- Two short requests arrive while the long prompt is chunked, one before its final chunk. -/
def soloRun : List Event :=
  [.arrive 0, .pass true false 4 [⟨0, .pass, 10, false, .admits (some 4) 4 (some .other)⟩],
    .arrive 1, .pass true false 0 [⟨1, .pass, 2, false, .admits none 2 (some .go)⟩],
    .arrive 2, .pass true false 0 [⟨2, .pass, 2, false, .admits none 2 (some .go)⟩],
    .pass true false 2 [⟨2, .pass, 2, false, .admits none 2 (some .go)⟩], .pass true false 2 []]

theorem solo_passes_two : ∃ S, Transition.run (Scheduler.step soloConfig smallEngine) .start soloRun =
      some S ∧
    S.log.reverse.map (·.reqs) =
      [[(0, 0, 4)], [(1, 0, 2)], [(0, 4, 8)], [(2, 0, 2)], [(0, 8, 10)]] ∧
    S.log.reverse.map (·.solo) = [false, true, false, true, false] ∧
    ∀ l₁ b a l₂, S.log = l₁ ++ b :: a :: l₂ → a.solo = true →
      b.solo = false ∧ ∃ l, a.long = some l ∧ b.Alone smallEngine l := by
  have h : (Transition.run (Scheduler.step soloConfig smallEngine) .start soloRun).any fun S =>
      S.log.reverse.map (·.reqs) =
        [[(0, 0, 4)], [(1, 0, 2)], [(0, 4, 8)], [(2, 0, 2)], [(0, 8, 10)]] ∧
      S.log.reverse.map (·.solo) = [false, true, false, true, false] := by decide +kernel
  obtain ⟨S, hrun, h⟩ := (Option.any_eq_true _ _).mp h
  obtain ⟨hreqs, hsolo⟩ := of_decide_eq_true h
  have hreaches : Scheduler.start.Reaches soloConfig smallEngine S :=
    .of_run hrun (Transition.allowedRun_of_forall (fun _ _ => trivial) _ _)
  exact ⟨S, hrun, hreqs, hsolo, (solo_passes rfl hreaches).2.1⟩

end PrefillBypass
