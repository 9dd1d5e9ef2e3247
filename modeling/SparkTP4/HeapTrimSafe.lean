import SparkTP4.HeapTrim
import Mathlib.Tactic.Linarith

/-!
# The rate limit of the heap trimmer

`heap_trim2.py` promises at most one trim per `MIN_INTERVAL_S`, whatever the gates say. A step
of the poll thread decides about the interval from the `last_trim` that it reads first, and
acts on this twice: it marks a trim as due, which the next gap between two prompts runs, or
it takes the lock and trims itself. Neither looks at `last_trim` again.

The limit holds in every run in which `last_trim` is, at these two points, still the one that
the step has read (`rate_limit`). A gap that runs the due trim while the poll thread waits
for the lock breaks it (`rate_limit_broken`).
-/

namespace HeapTrim

variable {ι : Type}

/-! ## The limit -/

/-- A call that starts at `t` may follow: the last one has ended, `minIntervalS` before. -/
def Event.Allows (minIntervalS t : ℚ) : Event → Prop
  | .started _ => False
  | .ended e => e + minIntervalS ≤ t

/-- **The calls of `malloc_trim` are spaced**: each starts at least `minIntervalS` after the
end of the one before. -/
def RateLimited (minIntervalS : ℚ) : List Event → Prop
  | [] => True
  | .ended _ :: calls => RateLimited minIntervalS calls
  | .started t :: calls =>
    (∀ c, calls.head? = some c → c.Allows minIntervalS t) ∧ RateLimited minIntervalS calls

/-- The poll thread marks a trim as due, or takes the lock, on a decision about the `last_trim`
that is still the current one. -/
def Poll.UpToDate (lastTrim : Option ℚ) : Poll → Prop
  | .dueMark d | .acquire d _ _ _ => d.seen = lastTrim
  | _ => True

def UpToDate (s : State ι) : Action ι → Prop
  | .poll _ => s.poll.UpToDate s.shared.lastTrim
  | _ => True

/-! ## What the holder of the lock knows -/

variable (cfg : Config)

/-- The interval after the last trim is over. -/
def Shared.Elapsed (s : Shared ι) : Prop :=
  ∀ l, s.lastTrim = some l → l + cfg.minIntervalS ≤ s.clock

/-- The last call has ended, and `last_trim` is not before its end. -/
def Shared.Settled (s : Shared ι) : Prop :=
  ∀ c, s.calls.head? = some c → ∃ e l, c = .ended e ∧ s.lastTrim = some l ∧ e ≤ l

/-- The last call has ended at `t` or before. -/
def Shared.EndedBy (s : Shared ι) (t : ℚ) : Prop := ∃ e, s.calls.head? = some (.ended e) ∧ e ≤ t

/-- **What holds at each point of `_trim`.** -/
def Held.Ok (s : Shared ι) : Held → Prop
  | .due | .clearBusy | .clearDue | .storeDue _ | .learn _ | .done _ => s.Settled
  | .rss _ _ | .free _ _ _ | .check _ _ _ _ | .between _ _ _ | .call _ _ _ =>
    s.Elapsed cfg ∧ s.Settled
  | .calling _ _ _ => True
  | .returned _ _ _ _ | .now _ _ _ _ _ => s.EndedBy s.clock
  | .storeR0 o | .storeF0 o | .storeDeferred o | .storeBusy o | .storeLast o => s.EndedBy o.now

/-- The decision is about the past: outside the interval, it is over. -/
structure Decision.Ok (s : Shared ι) (d : Decision) : Prop where
  now : d.now ≤ s.clock
  interval : d.inInterval = false → ∀ l, d.seen = some l → l + cfg.minIntervalS ≤ d.now

/-- **What holds at each point of `step`.** -/
def Poll.Ok (s : Shared ι) : Poll → Prop
  | .lastTrim now | .interval now => now ≤ s.clock
  | .gate d | .growth d | .clearBusy d | .busySeen d | .busyMark d | .unbusy d | .undue d => d.Ok cfg s
  | .busyAge d | .dueSeen d | .dueMark d | .dueAge d | .rss d | .info d _ | .grownRss d _ _
  | .grownFree d _ _ _ | .predict d _ _ _ | .deferSeen d _ _ | .deferMark d _ _ | .deferAge d _ _
  | .recheck d _ _ _ | .acquire d _ _ _ => d.Ok cfg s ∧ d.inInterval = false
  | _ => True

variable {cfg} {s s' : Shared ι}

theorem Shared.Elapsed.mono (hclock : s.clock ≤ s'.clock) (hlast : s'.lastTrim = s.lastTrim)
    (h : s.Elapsed cfg) : s'.Elapsed cfg := fun l hl =>
  (h l (hlast.symm.trans hl)).trans hclock

theorem Shared.Settled.congr (hcalls : s'.calls = s.calls) (hlast : s'.lastTrim = s.lastTrim)
    (h : s.Settled) : s'.Settled := by
  unfold Shared.Settled
  rw [hcalls, hlast]
  exact h

theorem Shared.EndedBy.mono {t t' : ℚ} (hcalls : s'.calls = s.calls) (ht : t ≤ t')
    (h : s.EndedBy t) : s'.EndedBy t' := by
  obtain ⟨e, he, hle⟩ := h
  exact ⟨e, (congrArg List.head? hcalls).trans he, hle.trans ht⟩

/-- **What the holder knows is not lost** while others leave the calls and `last_trim` alone. -/
theorem Held.Ok.mono {h : Held} (hclock : s.clock ≤ s'.clock) (hcalls : s'.calls = s.calls)
    (hlast : s'.lastTrim = s.lastTrim) (hok : h.Ok cfg s) : h.Ok cfg s' := by
  cases h with
  | due | clearBusy | clearDue | storeDue | learn | done =>
    exact Shared.Settled.congr hcalls hlast hok
  | rss | free | check | between | call =>
    exact ⟨hok.1.mono hclock hlast, hok.2.congr hcalls hlast⟩
  | calling => trivial
  | returned | now => exact Shared.EndedBy.mono hcalls hclock hok
  | storeR0 | storeF0 | storeDeferred | storeBusy | storeLast =>
    exact Shared.EndedBy.mono hcalls le_rfl hok

theorem Decision.Ok.mono {d : Decision} (hclock : s.clock ≤ s'.clock) (h : d.Ok cfg s) : d.Ok cfg s' :=
  ⟨h.now.trans hclock, h.interval⟩

theorem Poll.Ok.mono {p : Poll} (hclock : s.clock ≤ s'.clock) (h : p.Ok cfg s) : p.Ok cfg s' := by
  cases p with
  | lastTrim | interval => exact le_trans h hclock
  | gate | growth | clearBusy | busySeen | busyMark | unbusy | undue =>
    exact Decision.Ok.mono hclock h
  | busyAge | dueSeen | dueMark | dueAge | rss | info | grownRss | grownFree | predict | deferSeen
  | deferMark | deferAge | recheck | acquire => exact ⟨h.1.mono hclock, h.2⟩
  | waiting | clock | small | held | stopped => trivial

/-- **A decision that is up to date** says that the interval is over now. -/
theorem Decision.Ok.elapsed {d : Decision} (h : d.Ok cfg s) (hout : d.inInterval = false)
    (hseen : d.seen = s.lastTrim) : s.Elapsed cfg := fun l hl =>
  (h.interval hout l (hseen.trans hl)).trans h.now

/-! ## A step of the poll thread outside the lock -/

/-- What such a step leaves alone. -/
theorem Poll.step_frame (s : Shared ι) (x : Reading) (p : Poll) :
    (p.step cfg s x).1.clock = s.clock ∧ (p.step cfg s x).1.calls = s.calls ∧
      (p.step cfg s x).1.lastTrim = s.lastTrim ∧ (p.step cfg s x).1.lock = s.lock := by
  cases p <;> exact ⟨rfl, rfl, rfl, rfl⟩

theorem Poll.age_ok {now bound : ℚ} {young old : Poll} {since : Option ℚ} (hyoung : young.Ok cfg s)
    (hold : old.Ok cfg s) : (Poll.age now bound young old since).Ok cfg s := by
  cases since with
  | none => trivial
  | some since =>
    unfold Poll.age
    dsimp only
    split_ifs
    · exact hyoung
    · exact hold

theorem Poll.afterBusy_ok {d : Decision} (h : d.Ok cfg s) : (Poll.afterBusy d).Ok cfg s := by
  unfold Poll.afterBusy
  split_ifs with hin
  · trivial
  · exact ⟨h, Bool.eq_false_iff.mpr hin⟩

/-- **The poll thread keeps what it knows.** -/
theorem Poll.step_ok (s : Shared ι) (x : Reading) {p : Poll} (h : p.Ok cfg s) :
    (p.step cfg s x).2.Ok cfg s := by
  cases p with
  | waiting =>
    show (if _ then _ else _ : Poll).Ok cfg s
    split_ifs <;> trivial
  | clock => exact le_refl s.clock
  | lastTrim now =>
    show (Poll.ofLastTrim now s.lastTrim).Ok cfg s
    cases s.lastTrim with
    | none => exact ⟨h, fun _ _ hseen => by cases hseen⟩
    | some t => exact h
  | interval now =>
    show (Poll.ofInterval now cfg.minIntervalS s.lastTrim).Ok cfg s
    cases s.lastTrim with
    | none => trivial
    | some t =>
      refine ⟨h, fun hout l hl => ?_⟩
      obtain rfl := Option.some.inj hl
      have hage : ¬now - t < cfg.minIntervalS := of_decide_eq_false hout
      show t + cfg.minIntervalS ≤ now
      linarith
  | gate d | growth d =>
    show (if _ then _ else _ : Poll).Ok cfg s
    split_ifs <;> exact h
  | clearBusy | small | held | stopped => trivial
  | busySeen d =>
    show (if _ then _ else _ : Poll).Ok cfg s
    split_ifs
    · exact h
    · exact afterBusy_ok h
  | busyMark d => exact afterBusy_ok h
  | busyAge d | dueAge d => exact age_ok trivial h
  | dueSeen d | deferSeen d | grownFree d | predict d | rss d | recheck d =>
    show (if _ then _ else _ : Poll).Ok cfg s
    split_ifs <;> first | exact h | trivial
  | dueMark d | info d | grownRss d | deferMark d | acquire d | unbusy d => exact h
  | undue d =>
    show (if _ then _ else _ : Poll).Ok cfg s
    split_ifs with hin
    · trivial
    · exact ⟨h, Bool.eq_false_iff.mpr hin⟩
  | deferAge d =>
    show (if _ then _ else _ : Poll).Ok cfg s
    split_ifs
    · trivial
    · exact age_ok trivial h

/-! ## A step under the lock -/

/-- The holder is about to clear the due mark, after it has written `last_trim`. -/
def Held.Clears : Held → Prop
  | .storeDue _ => True
  | _ => False

/-- **The due mark** is set outside the interval only. -/
def Shared.DueOk (cfg : Config) (s : Shared ι) (h : Held) : Prop :=
  s.dueSince ≠ none → s.Elapsed cfg ∨ h.Clears

theorem Held.step_frame (s : Shared ι) (x : Reading) (h : Held) :
    (h.step cfg s x).1.clock = s.clock ∧ (h.step cfg s x).1.lock = s.lock := by
  cases h <;> exact ⟨rfl, rfl⟩

/-- **The holder keeps what it knows.** -/
theorem Held.step_ok (s : Shared ι) (x : Reading) {h : Held} (hok : h.Ok cfg s)
    (hdue : s.DueOk cfg h) : (h.step cfg s x).2.Ok cfg (h.step cfg s x).1 := by
  cases h with
  | due =>
    show (if _ then _ else _ : Held).Ok cfg s
    split_ifs with hmark
    · exact hok
    · exact ⟨(hdue hmark).resolve_right id, hok⟩
  | rss | free | returned | storeR0 | storeF0 | storeDeferred | storeBusy | done => exact hok
  | check =>
    show (if _ then _ else _ : Held).Ok cfg s
    split_ifs <;> first | exact hok | exact hok.2
  | clearBusy | clearDue | storeDue | learn => exact Shared.Settled.congr rfl rfl hok
  | between =>
    show (if _ then _ else _ : Held).Ok cfg s
    split_ifs
    · exact hok
    · exact hok.2
  | call => trivial
  | calling => exact ⟨s.clock, rfl, le_rfl⟩
  | now => exact hok
  | storeLast o =>
    obtain ⟨e, he, hle⟩ := hok
    intro c hc
    exact ⟨e, o.now, Option.some.inj (hc.symm.trans he), rfl, hle⟩

/-- The due mark after a step under the lock. -/
theorem Held.step_dueOk (s : Shared ι) (x : Reading) {h : Held} (hdue : s.DueOk cfg h) :
    (h.step cfg s x).1.DueOk cfg (h.step cfg s x).2 := by
  intro hmark
  cases h with
  | storeLast => exact .inr trivial
  | storeDue | clearDue => exact absurd rfl hmark
  | due | rss | free | check | clearBusy | between | call | calling | returned | now | storeR0
  | storeF0 | storeDeferred | storeBusy | learn | done => exact .inl ((hdue hmark).resolve_right id)

/-- **A call starts when the interval is over.** -/
theorem Held.step_rateLimited (s : Shared ι) (x : Reading) {h : Held} (hok : h.Ok cfg s)
    (hcalls : RateLimited cfg.minIntervalS s.calls) :
    RateLimited cfg.minIntervalS (h.step cfg s x).1.calls := by
  cases h with
  | call =>
    obtain ⟨helapsed, hsettled⟩ := hok
    refine ⟨fun c hc => ?_, hcalls⟩
    obtain ⟨e, l, rfl, hlast, hle⟩ := hsettled c hc
    exact (add_le_add_left hle _).trans (helapsed l hlast)
  | calling => exact hcalls
  | due | rss | free | check | clearBusy | clearDue | between | returned | now | storeR0 | storeF0
  | storeDeferred | storeBusy | storeLast | storeDue | learn | done => exact hcalls

/-! ## The invariant -/

def Poll.position : Poll → Option Held
  | .held h => some h
  | _ => none

def Gap.position : Gap → Option Held
  | .held h => some h
  | _ => none

/-- Where a thread is under the lock. -/
def State.position (s : State ι) : Holder ι → Option Held
  | .poll => s.poll.position
  | .gap i => (s.gaps i).position

/-- **The invariant of the trimmer**, in runs whose decisions are up to date. -/
structure Inv (cfg : Config) (s : State ι) : Prop where
  lock : ∀ w h, s.position w = some h → s.shared.lock = some w
  held : ∀ w h, s.position w = some h → h.Ok cfg s.shared
  settled : s.shared.lock = none → s.shared.Settled
  due : s.shared.dueSince ≠ none → s.shared.Elapsed cfg ∨ ∃ w h, s.position w = some h ∧ h.Clears
  poll : s.poll.Ok cfg s.shared
  calls : RateLimited cfg.minIntervalS s.shared.calls

namespace Inv

variable {s s' : State ι} {w : Holder ι} {h : Held}

/-- Only the holder of the lock is under it. -/
theorem eq_of_position (hinv : Inv cfg s) {w' : Holder ι} {h' : Held} (hw : s.position w = some h)
    (hw' : s.position w' = some h') : w' = w ∧ h' = h := by
  have hsame := Option.some.inj ((hinv.lock w' h' hw').symm.trans (hinv.lock w h hw))
  rw [hsame] at hw'
  exact ⟨hsame, Option.some.inj (hw'.symm.trans hw)⟩

theorem dueOk (hinv : Inv cfg s) (hw : s.position w = some h) : s.shared.DueOk cfg h := by
  intro hmark
  obtain helapsed | ⟨w', h', hw', hclears⟩ := hinv.due hmark
  · exact .inl helapsed
  · exact .inr ((hinv.eq_of_position hw hw').2 ▸ hclears)

/-- **Outside the lock**: a step that leaves the calls, `last_trim` and the lock alone, and marks
a trim as due outside the interval only. -/
theorem ofFree (hinv : Inv cfg s) (hclock : s.shared.clock ≤ s'.shared.clock)
    (hcalls : s'.shared.calls = s.shared.calls) (hlast : s'.shared.lastTrim = s.shared.lastTrim)
    (hlock : s'.shared.lock = s.shared.lock) (hposition : s'.position = s.position)
    (hdue : s'.shared.dueSince ≠ none → s.shared.Elapsed cfg ∨ s.shared.dueSince ≠ none)
    (hpoll : s'.poll.Ok cfg s'.shared) : Inv cfg s' where
  lock w h hw := by
    rw [hposition] at hw
    rw [hlock]
    exact hinv.lock w h hw
  held w h hw := by
    rw [hposition] at hw
    exact (hinv.held w h hw).mono hclock hcalls hlast
  settled hnone := (hinv.settled (hlock.symm.trans hnone)).congr hcalls hlast
  due hmark := by
    rw [hposition]
    exact ((hdue hmark).elim .inl hinv.due).imp_left (Shared.Elapsed.mono hclock hlast)
  poll := hpoll
  calls := by
    rw [hcalls]
    exact hinv.calls

/-- **The lock is taken.** -/
theorem ofAcquire (hinv : Inv cfg s) (hlock : s.shared.lock = none)
    (hshared : s'.shared = { s.shared with lock := some w }) (hw : s'.position w = some h)
    (hother : ∀ w' ≠ w, s'.position w' = s.position w') (hok : h.Ok cfg s.shared)
    (hpoll : s'.poll.Ok cfg s'.shared) : Inv cfg s' := by
  have hnone (w' : Holder ι) (h' : Held) : s.position w' ≠ some h' := fun hw' => by
    cases hlock.symm.trans (hinv.lock w' h' hw')
  have honly (w' : Holder ι) (h' : Held) (hw' : s'.position w' = some h') : w' = w :=
    Classical.byContradiction fun hne => hnone w' h' ((hother w' hne).symm.trans hw')
  refine ⟨fun w' h' hw' => ?_, fun w' h' hw' => ?_, fun hfree => ?_, fun hmark => ?_, hpoll, ?_⟩
  · rw [hshared, honly w' h' hw']
  · obtain rfl := honly w' h' hw'
    obtain rfl := Option.some.inj (hw'.symm.trans hw)
    rw [hshared]
    exact hok.mono le_rfl rfl rfl
  · rw [hshared] at hfree
    cases hfree
  · rw [hshared] at hmark ⊢
    exact .inl ((hinv.due hmark).resolve_right fun ⟨w', h', hw', _⟩ => hnone w' h' hw')
  · rw [hshared]
    exact hinv.calls

/-- **A step under the lock.** -/
theorem ofHeld (hinv : Inv cfg s) (hw : s.position w = some h) (x : Reading)
    (hshared : s'.shared = (h.step cfg s.shared x).1)
    (hw' : s'.position w = some (h.step cfg s.shared x).2)
    (hother : ∀ w' ≠ w, s'.position w' = s.position w') (hpoll : s'.poll.Ok cfg s'.shared) :
    Inv cfg s' := by
  have honly (v : Holder ι) (h' : Held) (hv : s'.position v = some h') : v = w :=
    Classical.byContradiction fun hne =>
      hne (hinv.eq_of_position hw ((hother v hne).symm.trans hv)).1
  refine ⟨fun v h' hv => ?_, fun v h' hv => ?_, fun hfree => ?_, fun hmark => ?_, hpoll, ?_⟩
  · rw [hshared, (Held.step_frame s.shared x h).2, honly v h' hv]
    exact hinv.lock w h hw
  · obtain rfl := honly v h' hv
    obtain rfl := Option.some.inj (hv.symm.trans hw')
    rw [hshared]
    exact Held.step_ok s.shared x (hinv.held v h hw) (hinv.dueOk hw)
  · rw [hshared, (Held.step_frame s.shared x h).2, hinv.lock w h hw] at hfree
    cases hfree
  · rw [hshared] at hmark ⊢
    exact (Held.step_dueOk s.shared x (hinv.dueOk hw) hmark).imp_right fun hclears =>
      ⟨w, _, hw', hclears⟩
  · rw [hshared]
    exact Held.step_rateLimited s.shared x (hinv.held w h hw) hinv.calls

/-- **The lock is released.** -/
theorem ofRelease (hinv : Inv cfg s) {v : Option Verdict} (hw : s.position w = some (.done v))
    (hshared : s'.shared = { s.shared with lock := none }) (hw' : s'.position w = none)
    (hother : ∀ w' ≠ w, s'.position w' = s.position w') (hpoll : s'.poll.Ok cfg s'.shared) :
    Inv cfg s' := by
  have hnone (u : Holder ι) (h' : Held) (hu : s'.position u = some h') : False := by
    by_cases hne : u = w
    · rw [hne, hw'] at hu
      cases hu
    · exact hne (hinv.eq_of_position hw ((hother u hne).symm.trans hu)).1
  refine ⟨fun u h' hu => (hnone u h' hu).elim, fun u h' hu => (hnone u h' hu).elim, fun _ => ?_,
    fun hmark => ?_, hpoll, ?_⟩
  · rw [hshared]
    exact Shared.Settled.congr rfl rfl (hinv.held w _ hw)
  · rw [hshared] at hmark ⊢
    exact .inl ((hinv.dueOk hw hmark).resolve_right id)
  · rw [hshared]
    exact hinv.calls

end Inv

/-! ## The steps of the threads -/

theorem Poll.position_age {now bound : ℚ} {young old : Poll} {since : Option ℚ}
    (hyoung : young.position = none) (hold : old.position = none) :
    (Poll.age now bound young old since).position = none := by
  cases since with
  | none => rfl
  | some since =>
    unfold Poll.age
    dsimp only
    split_ifs
    · exact hyoung
    · exact hold

/-- Outside the lock the poll thread does not get under it. -/
theorem Poll.step_position (s : Shared ι) (x : Reading) {p : Poll} (h : p.position = none) :
    (p.step cfg s x).2.position = none := by
  cases p with
  | held => cases h
  | lastTrim now =>
    show (Poll.ofLastTrim now s.lastTrim).position = none
    cases s.lastTrim <;> rfl
  | interval now =>
    show (Poll.ofInterval now cfg.minIntervalS s.lastTrim).position = none
    cases s.lastTrim <;> rfl
  | busyAge | dueAge => exact position_age rfl rfl
  | deferAge =>
    show (if _ then _ else _ : Poll).position = none
    split_ifs
    · rfl
    · exact position_age rfl rfl
  | busyMark d =>
    show (Poll.afterBusy d).position = none
    unfold Poll.afterBusy
    split_ifs <;> rfl
  | busySeen d =>
    show (if _ then _ else Poll.afterBusy d : Poll).position = none
    unfold Poll.afterBusy
    split_ifs <;> rfl
  | waiting | gate | growth | dueSeen | undue | rss | grownFree | predict | deferSeen | recheck =>
    show (if _ then _ else _ : Poll).position = none
    split_ifs <;> rfl
  | clock | clearBusy | dueMark | unbusy | info | grownRss | small | deferMark | acquire | stopped =>
    rfl

/-- **The poll thread marks a trim as due outside the interval only**, if its decision is up to
date. -/
theorem Poll.step_due (s : Shared ι) (x : Reading) {p : Poll} (h : p.Ok cfg s)
    (hfresh : p.UpToDate s.lastTrim) (hmark : (p.step cfg s x).1.dueSince ≠ none) :
    s.Elapsed cfg ∨ s.dueSince ≠ none := by
  cases p with
  | dueMark => exact .inl (h.1.elapsed h.2 hfresh)
  | undue => exact absurd rfl hmark
  | _ => exact .inr hmark

variable {s s' : State ι}

/-- **What a step of the poll thread does**: it takes the lock, releases it, goes on under it, or
goes on outside. -/
theorem State.pollStep_cases {x : Reading} {p : Poll} (h : s.pollStep cfg x p = some s') :
    (∃ d how waitGap known, p = .acquire d how waitGap known ∧ s.shared.lock = none ∧
      s' = { s with
        shared := { s.shared with lock := some .poll }
        poll := .held (.enter how waitGap known) }) ∨
    (∃ v, p = .held (.done v) ∧
      s' = { s with shared := { s.shared with lock := none }, poll := .waiting v }) ∨
    (∃ h, p = .held h ∧
      s' = { s with
        shared := (h.step cfg s.shared x).1
        poll := .held (h.step cfg s.shared x).2 }) ∨
    (p.position = none ∧
      s' = { s with shared := (p.step cfg s.shared x).1, poll := (p.step cfg s.shared x).2 }) := by
  cases p with
  | stopped => cases h
  | acquire d how waitGap known =>
    obtain ⟨hlock, h⟩ := Option.ite_none_right_eq_some.mp h
    exact .inl ⟨d, how, waitGap, known, rfl, hlock, (Option.some.inj h).symm⟩
  | held t =>
    cases t with
    | done v => exact .inr (.inl ⟨v, rfl, (Option.some.inj h).symm⟩)
    | _ => exact .inr (.inr (.inl ⟨_, rfl, (Option.some.inj h).symm⟩))
  | _ => exact .inr (.inr (.inr ⟨rfl, (Option.some.inj h).symm⟩))

/-- **A step of the poll thread** whose decision is up to date. -/
theorem Inv.pollStep (hinv : Inv cfg s) {x : Reading} (hfresh : s.poll.UpToDate s.shared.lastTrim)
    (hstep : s.pollStep cfg x s.poll = some s') : Inv cfg s' := by
  have hother (shared : Shared ι) (p : Poll) (w : Holder ι) (hw : w ≠ .poll) :
      { s with shared := shared, poll := p : State ι }.position w = s.position w := by
    cases w with
    | poll => exact absurd rfl hw
    | gap j => rfl
  have hok := hinv.poll
  obtain ⟨d, how, waitGap, known, hp, hlock, rfl⟩ | ⟨v, hp, rfl⟩ | ⟨h, hp, rfl⟩ | ⟨hp, rfl⟩ :=
    State.pollStep_cases hstep
  · rw [hp] at hok hfresh
    have helapsed := hok.1.elapsed hok.2 hfresh
    refine hinv.ofAcquire (w := .poll) hlock rfl rfl (hother _ _) ?_ trivial
    cases known <;> exact ⟨helapsed, hinv.settled hlock⟩
  · exact hinv.ofRelease (w := .poll) (congrArg Poll.position hp) rfl rfl (hother _ _) trivial
  · exact hinv.ofHeld (w := .poll) (congrArg Poll.position hp) x rfl rfl (hother _ _) trivial
  · obtain ⟨hclock, hcalls, hlast, hlock⟩ := @Poll.step_frame ι cfg s.shared x s.poll
    refine hinv.ofFree hclock.ge hcalls hlast hlock (funext fun w => ?_)
      (Poll.step_due s.shared x hok hfresh) ((Poll.step_ok s.shared x hok).mono hclock.ge)
    cases w with
    | poll => exact (Poll.step_position s.shared x hp).trans hp.symm
    | gap j => rfl

variable [DecidableEq ι] {shared : Shared ι} {i : ι} {g : Gap}

theorem State.position_setGap_self : (s.setGap shared i g).position (.gap i) = g.position := by
  show (Function.update s.gaps i g i).position = g.position
  rw [Function.update_self]

theorem State.position_setGap_of_ne {w : Holder ι} (h : w ≠ .gap i) :
    (s.setGap shared i g).position w = s.position w := by
  cases w with
  | poll => rfl
  | gap j =>
    show (Function.update s.gaps i g j).position = (s.gaps j).position
    rw [Function.update_of_ne fun heq => h (congrArg Holder.gap heq)]

/-- A thread that stays outside the lock. -/
theorem State.position_setGap (h : g.position = (s.gaps i).position) :
    (s.setGap shared i g).position = s.position := by
  funext w
  by_cases hw : w = .gap i
  · rw [hw, position_setGap_self, h]
    rfl
  · exact position_setGap_of_ne hw

/-- **A step of a thread in `gap`.** -/
theorem Inv.gapStep (hinv : Inv cfg s) {x : Reading} (hstep : s.gapStep cfg x i (s.gaps i) = some s') :
    Inv cfg s' := by
  cases hg : s.gaps i with
  | out =>
    rw [hg] at hstep
    cases hstep
  | due =>
    rw [hg] at hstep
    obtain rfl := Option.some.inj hstep
    refine hinv.ofFree le_rfl rfl rfl rfl (State.position_setGap ?_) .inr hinv.poll
    rw [hg]
    split_ifs <;> rfl
  | tryLock =>
    rw [hg] at hstep
    obtain rfl := Option.some.inj hstep
    split_ifs with hlock
    · exact hinv.ofAcquire hlock rfl State.position_setGap_self
        (fun w hw => State.position_setGap_of_ne hw) (hinv.settled hlock)
        (Poll.Ok.mono (s := s.shared) le_rfl hinv.poll)
    · refine hinv.ofFree le_rfl rfl rfl rfl (State.position_setGap ?_) .inr hinv.poll
      rw [hg]
      rfl
  | held h =>
    rw [hg] at hstep
    have hw : s.position (.gap i) = some h := congrArg Gap.position hg
    by_cases hdone : ∃ v, h = .done v
    · obtain ⟨v, rfl⟩ := hdone
      obtain rfl := Option.some.inj hstep
      exact hinv.ofRelease hw rfl State.position_setGap_self
        (fun w hw => State.position_setGap_of_ne hw) (Poll.Ok.mono (s := s.shared) le_rfl hinv.poll)
    · have hstep : some (s.setGap (h.step cfg s.shared x).1 i (.held (h.step cfg s.shared x).2)) =
          some s' := by
        cases h with
        | done v => exact absurd ⟨v, rfl⟩ hdone
        | _ => exact hstep
      obtain rfl := Option.some.inj hstep
      exact hinv.ofHeld hw x rfl State.position_setGap_self
        (fun w hw => State.position_setGap_of_ne hw)
        (hinv.poll.mono (Held.step_frame s.shared x h).1.ge)

theorem Gap.position_of_isOut (h : g.isOut) : g.position = none := by
  cases g with
  | out | due | tryLock => rfl
  | held => cases h

/-- **A step of the system** whose decision is up to date. -/
theorem Inv.step (hinv : Inv cfg s) {a : Action ι} (hfresh : UpToDate s a)
    (hstep : s.step cfg a = some s') : Inv cfg s' := by
  cases a with
  | tick dt =>
    obtain ⟨hdt, hstep⟩ := Option.ite_none_right_eq_some.mp hstep
    obtain rfl := Option.some.inj hstep
    have hclock : s.shared.clock ≤ s.shared.clock + dt := le_add_of_nonneg_right hdt
    exact hinv.ofFree hclock rfl rfl rfl rfl .inr (Poll.Ok.mono (s := s.shared) hclock hinv.poll)
  | hook =>
    obtain rfl := Option.some.inj hstep
    exact hinv.ofFree le_rfl rfl rfl rfl rfl .inr (Poll.Ok.mono (s := s.shared) le_rfl hinv.poll)
  | enter i =>
    obtain ⟨-, hstep⟩ := Option.ite_none_right_eq_some.mp hstep
    obtain rfl := Option.some.inj hstep
    exact hinv.ofFree le_rfl rfl rfl rfl rfl .inr (Poll.Ok.mono (s := s.shared) le_rfl hinv.poll)
  | exit i =>
    obtain ⟨⟨hout, -⟩, hstep⟩ := Option.ite_none_right_eq_some.mp hstep
    obtain rfl := Option.some.inj hstep
    have hposition : (if s.shared.inflight - 1 = 0 then Gap.due else Gap.out).position =
        (s.gaps i).position := by
      rw [Gap.position_of_isOut hout]
      split_ifs <;> rfl
    exact hinv.ofFree le_rfl rfl rfl rfl (@State.position_setGap ι s _ s.shared i _ hposition) .inr
      (Poll.Ok.mono (s := s.shared) le_rfl hinv.poll)
  | gap i x => exact hinv.gapStep hstep
  | poll x => exact hinv.pollStep hfresh hstep

omit [DecidableEq ι] in
theorem Inv.init (t : ℚ) (r : ℤ) : Inv cfg (State.init cfg t r : State ι) where
  lock w _ h := by cases w <;> cases h
  held w _ h := by cases w <;> cases h
  settled _ _ h := by cases h
  due h := absurd rfl h
  poll := trivial
  calls := trivial

/-- **The rate limit.** In every run in which the poll thread marks a trim as due, or takes the
lock for one, only while `last_trim` is still the one that it has decided on, each
`malloc_trim` starts at least `minIntervalS` after the end of the one before. -/
theorem rate_limit {t : ℚ} {r : ℤ} {s : State ι}
    (h : Transition.Reachable (State.step cfg) UpToDate (State.init cfg t r) s) :
    RateLimited cfg.minIntervalS s.shared.calls :=
  (h.invariant (Inv cfg) (Inv.init t r) fun _ _ _ hinv hfresh hstep =>
    hinv.step hfresh hstep).calls

/-! ## Runs -/

instance (lastTrim : Option ℚ) (p : Poll) : Decidable (p.UpToDate lastTrim) := by
  cases p <;> unfold Poll.UpToDate <;> infer_instance

instance (s : State ι) (a : Action ι) : Decidable (UpToDate s a) := by
  cases a <;> unfold UpToDate <;> infer_instance

/-- The default settings. -/
def defaultConfig : Config where
  idleS := 3 / 2
  minBytes := 256 * 2 ^ 20
  minIntervalS := 120
  maxBusyS := 30
  infoEveryS := 30
  budgetMs := 50
  maxDeferS := 60
  msPerGib := 40
  nonneg := by decide +kernel
  minBytes_pos := by decide

/-- The heap has grown by 1 GiB, all of it free. -/
def grown : Reading := ⟨2 ^ 20, 2 ^ 30, true, 40⟩

/-- A prompt that takes 61 s: the poll thread sees it three times, marks the trim as due
and waits for the lock at last, when the prompt ends. -/
def longPrompt : List (Action Unit) :=
  [.hook, .enter (), .tick 1] ++ List.replicate 8 (.poll grown) ++
  [.tick 30] ++ List.replicate 10 (.poll grown) ++
  [.tick 30] ++ List.replicate 9 (.poll grown) ++ [.exit ()]

/-- The gap after the prompt runs the due trim, which takes a second. -/
def gapTrims : List (Action Unit) :=
  List.replicate 8 (.gap () grown) ++ [.tick 1] ++ List.replicate 11 (.gap () grown)

/-- **Two trims without a pause**: the poll thread gets the lock after the trim of the gap, and
trims at once. -/
theorem rate_limit_broken : ∃ s : State Unit,
    Transition.Reachable (State.step defaultConfig) (fun _ _ => True)
      (State.init defaultConfig 0 0) s ∧
    s.shared.calls = [.started 62, .ended 62, .started 61] ∧
    ¬RateLimited defaultConfig.minIntervalS s.shared.calls := by
  have h : ((Transition.run (State.step defaultConfig) (State.init defaultConfig 0 0)
      (longPrompt ++ gapTrims ++ List.replicate 5 (.poll grown))).any fun s =>
        s.shared.calls == [.started 62, .ended 62, .started 61]) = true := by decide +kernel
  obtain ⟨s, hrun, hcalls⟩ := (Option.any_eq_true _ _).mp h
  have hcalls := beq_iff_eq.mp hcalls
  refine ⟨s, .of_run hrun (Transition.allowedRun_of_forall (fun _ _ => trivial) _ _), hcalls,
    fun hlimited => ?_⟩
  rw [hcalls] at hlimited
  have hsoon : (62 : ℚ) + 120 ≤ 62 := hlimited.1 _ rfl
  linarith

/-- A run that keeps the limit: the trim of the gap alone, and after 140 s an idle one. -/
def spacedRun : List (Action Unit) :=
  [.hook, .enter (), .tick 1] ++ List.replicate 8 (.poll grown) ++
  [.tick 30] ++ List.replicate 10 (.poll grown) ++ [.exit ()] ++ gapTrims ++
  [.tick 140] ++ List.replicate 16 (.poll ⟨2 ^ 21, 2 ^ 31, true, 40⟩)

theorem rate_limit_spaced : ∃ s : State Unit,
    s.shared.calls = [.started 172, .ended 32, .started 31] ∧
    RateLimited defaultConfig.minIntervalS s.shared.calls := by
  have h : ((Transition.run (State.step defaultConfig) (State.init defaultConfig 0 0)
      spacedRun).any fun s => s.shared.calls == [.started 172, .ended 32, .started 31]) = true := by
    decide +kernel
  have hallowed : Transition.AllowedRun (State.step defaultConfig) UpToDate
      (State.init defaultConfig 0 0) spacedRun := by decide +kernel
  obtain ⟨s, hrun, hcalls⟩ := (Option.any_eq_true _ _).mp h
  exact ⟨s, beq_iff_eq.mp hcalls, rate_limit (.of_run hrun hallowed)⟩

end HeapTrim
