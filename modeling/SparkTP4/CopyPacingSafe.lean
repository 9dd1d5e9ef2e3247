import SparkTP4.CopyPacing
import Mathlib.Algebra.Order.BigOperators.Group.Multiset
import Mathlib.Data.Multiset.Filter

/-!
# The pacing of the weight copies accounts for what is in flight

The ledger is that of the calls that hold a charge, in every run (`Books`): each of them
releases once, whichever future its release hangs on. So the counter is never negative, a
release finds its slab, the budget bounds the counter, and in the end it is zero
(`books`).

That a call holds its charge exactly as long as its own copy is in flight needs the release
to hang on the future of that copy (`Owns`), which it does where no other call has appended
to the list in between (`paced`), as where a list is used by one call at a time
(`ownFuture_of_oneAtATime`). Where two threads share a list, the end of one copy may
release the charge of another that is still running (`paced_broken`).
-/

namespace CopyPacing

variable {budget : ℤ} {s s' : State} {i : ℕ} {c : Call}

/-! ## What a call does in a step -/

/-- A step of a call between its charge and its release: the lists, the futures, and where the
call is then. -/
inductive Progress (s : State) (c : Call) :
    Act → (ℕ → List ℕ) → List Bool → Phase → Option ℕ → Prop where
  | measure : c.phase = .charged →
      Progress s c .measure s.lists s.done (.submitting (s.lists c.list).length) c.own
  | raise {before : ℕ} : c.phase = .submitting before →
      Progress s c .raise s.lists s.done .releasing c.own
  | sync {before : ℕ} : c.phase = .submitting before →
      Progress s c .sync s.lists s.done (.returned before) c.own
  | queue {before : ℕ} : c.phase = .submitting before →
      Progress s c .queue s.lists (s.done ++ [false]) (.queued before) (some s.done.length)
  | append {before f : ℕ} : c.phase = .queued before → c.own = some f →
      Progress s c .append (Function.update s.lists c.list (s.lists c.list ++ [f])) s.done
        (.returned before) c.own
  | found {before : ℕ} : c.phase = .returned before → before < (s.lists c.list).length →
      Progress s c .check s.lists s.done .picking c.own
  | notFound {before : ℕ} : c.phase = .returned before → (s.lists c.list).length ≤ before →
      Progress s c .check s.lists s.done .releasing c.own
  | pick {f : ℕ} : c.phase = .picking → (s.lists c.list).getLast? = some f →
      Progress s c .pick s.lists s.done (.attaching f) c.own
  | late {f : ℕ} : c.phase = .attaching f → s.isDone f = true →
      Progress s c .attach s.lists s.done .releasing c.own
  | arm {f : ℕ} : c.phase = .attaching f → s.isDone f = false →
      Progress s c .attach s.lists s.done (.armed f) c.own

/-- **What a step of a call is**: it takes its charge, releases it, or makes progress between
the two. -/
theorem act_cases {a : Act} (h : s.act budget i c a = some s') :
    (c.phase = .waiting ∧ ¬c.waits budget s.ledger ∧
      s' = { s.setPhase i c .charged with ledger := s.ledger.acquire c.key c.size }) ∨
    (c.phase = .releasing ∧ s' = s.release i c) ∨
    ∃ lists done phase own, Progress s c a lists done phase own ∧
      s' = { s with lists, done, calls := s.calls.set i { c with phase, own } } := by
  cases a with
  | enter =>
    obtain ⟨⟨hphase, hwaits⟩, h⟩ := Option.ite_none_right_eq_some.mp h
    exact .inl ⟨hphase, hwaits, (Option.some.inj h).symm⟩
  | release =>
    obtain ⟨hphase, h⟩ := Option.ite_none_right_eq_some.mp h
    exact .inr (.inl ⟨hphase, (Option.some.inj h).symm⟩)
  | measure =>
    obtain ⟨hphase, h⟩ := Option.ite_none_right_eq_some.mp h
    exact .inr (.inr ⟨_, _, _, _, .measure hphase, (Option.some.inj h).symm⟩)
  | raise =>
    simp only [State.act] at h
    split at h
    · exact .inr (.inr ⟨_, _, _, _, .raise ‹_›, (Option.some.inj h).symm⟩)
    · exact absurd h (Option.some_ne_none s').symm
  | sync =>
    simp only [State.act] at h
    split at h
    · exact .inr (.inr ⟨_, _, _, _, .sync ‹_›, (Option.some.inj h).symm⟩)
    · exact absurd h (Option.some_ne_none s').symm
  | queue =>
    simp only [State.act] at h
    split at h
    · exact .inr (.inr ⟨_, _, _, _, .queue ‹_›, (Option.some.inj h).symm⟩)
    · exact absurd h (Option.some_ne_none s').symm
  | append =>
    simp only [State.act] at h
    split at h
    · exact .inr (.inr ⟨_, _, _, _, .append ‹_› ‹_›, (Option.some.inj h).symm⟩)
    · exact absurd h (Option.some_ne_none s').symm
  | check =>
    simp only [State.act] at h
    split at h
    · obtain rfl := Option.some.inj h
      rename_i before hphase
      by_cases hlen : before < (s.lists c.list).length
      · refine .inr (.inr ⟨_, _, _, _, .found hphase hlen, ?_⟩)
        rw [if_pos hlen]
        rfl
      · refine .inr (.inr ⟨_, _, _, _, .notFound hphase (Nat.not_lt.mp hlen), ?_⟩)
        rw [if_neg hlen]
        rfl
    · exact absurd h (Option.some_ne_none s').symm
  | pick =>
    obtain ⟨hphase, h⟩ := Option.ite_none_right_eq_some.mp h
    obtain ⟨f, hlast, rfl⟩ := Option.map_eq_some_iff.mp h
    exact .inr (.inr ⟨_, _, _, _, .pick hphase hlast, rfl⟩)
  | attach =>
    simp only [State.act] at h
    split at h
    · obtain rfl := Option.some.inj h
      rename_i f hphase
      unfold State.attach
      cases hdone : s.isDone f with
      | true => exact .inr (.inr ⟨_, _, _, _, .late hphase hdone, rfl⟩)
      | false => exact .inr (.inr ⟨_, _, _, _, .arm hphase hdone, rfl⟩)
    · exact absurd h (Option.some_ne_none s').symm

/-! ## One call among the others -/

section calls

variable {calls : List Call} {c' d : Call} {p : Call → Bool}

theorem perm_of_getElem? (hc : calls[i]? = some c) : calls.Perm (c :: calls.eraseIdx i) := by
  obtain ⟨hi, rfl⟩ := List.getElem?_eq_some_iff.mp hc
  exact (List.getElem_cons_eraseIdx_perm hi).symm

theorem set_perm (hc : calls[i]? = some c) (c' : Call) :
    (calls.set i c').Perm (c' :: calls.eraseIdx i) :=
  List.set_perm_cons_eraseIdx (List.getElem?_eq_some_iff.mp hc).1 c'

/-- A call is the one that moves or stays. -/
theorem mem_set_or (hc : calls[i]? = some c) (c' : Call) (hd : d ∈ calls) :
    d = c ∨ d ∈ calls.set i c' := by
  rw [(perm_of_getElem? hc).mem_iff, List.mem_cons] at hd
  rw [(set_perm hc c').mem_iff]
  exact hd.imp_right (List.mem_cons_of_mem c')

theorem mem_of_getElem? (hc : calls[i]? = some c) : c ∈ calls := List.mem_of_getElem? hc

theorem mem_set_self (hc : calls[i]? = some c) (c' : Call) : c' ∈ calls.set i c' :=
  (set_perm hc c').mem_iff.mpr List.mem_cons_self

theorem charges_perm {calls' : List Call} (h : calls.Perm calls') :
    charges p calls = charges p calls' :=
  Multiset.coe_eq_coe.mpr ((h.filter p).map _)

theorem charges_cons_of_pos (hp : p c = true) :
    charges p (c :: calls) = (c.key, c.size) ::ₘ charges p calls := by
  unfold charges
  rw [List.filter_cons_of_pos hp, List.map_cons, Multiset.cons_coe]

theorem charges_cons_of_neg (hp : p c = false) : charges p (c :: calls) = charges p calls := by
  unfold charges
  rw [List.filter_cons_of_neg (by simp [hp])]

/-- A call that takes its charge. -/
theorem charges_set_add (hc : calls[i]? = some c) (h : p c = false) (h' : p c' = true) :
    charges p (calls.set i c') = (c'.key, c'.size) ::ₘ charges p calls := by
  rw [charges_perm (set_perm hc c'), charges_perm (perm_of_getElem? hc), charges_cons_of_pos h',
    charges_cons_of_neg h]

/-- A call that gives its charge back. -/
theorem charges_set_sub (hc : calls[i]? = some c) (h : p c = true) (h' : p c' = false) :
    charges p calls = (c.key, c.size) ::ₘ charges p (calls.set i c') := by
  rw [charges_perm (set_perm hc c'), charges_perm (perm_of_getElem? hc), charges_cons_of_pos h,
    charges_cons_of_neg h']

/-- A call that keeps its charge. -/
theorem charges_set_eq (hc : calls[i]? = some c) (hkey : c'.key = c.key) (hsize : c'.size = c.size)
    (h : p c' = p c) : charges p (calls.set i c') = charges p calls := by
  rw [charges_perm (set_perm hc c'), charges_perm (perm_of_getElem? hc)]
  cases hp : p c with
  | true => rw [charges_cons_of_pos hp, charges_cons_of_pos (h.trans hp), hkey, hsize]
  | false => rw [charges_cons_of_neg hp, charges_cons_of_neg (h.trans hp)]

/-- Calls that hold their charges for the same predicates. -/
theorem charges_congr {q : Call → Bool} (h : ∀ c ∈ calls, p c = q c) :
    charges p calls = charges q calls := by
  unfold charges
  rw [List.filter_congr h]

end calls

/-! ## The books -/

/-- A call has taken this charge. -/
def State.HasCharged (s : State) (key : Option ℕ) (size : ℤ) : Prop :=
  ∃ c ∈ s.calls, c.hasCharged ∧ c.key = key ∧ c.size = size

/-- The futures that a call knows are there, and one that its release hangs on is not done. -/
structure Known (s : State) (c : Call) : Prop where
  size_pos : 1 ≤ c.size
  own : ∀ f, c.own = some f → f < s.done.length
  attaching : ∀ f, c.phase = .attaching f → f < s.done.length
  armed : ∀ f, c.phase = .armed f → s.done[f]? = some false

/-- **The books.** The ledger is that of the calls that hold a charge. -/
structure Books (budget : ℤ) (s : State) : Prop where
  accounts : s.ledger.Accounts (charges Call.live s.calls)
  found : s.keyError = false
  amount : ∀ e ∈ s.ledger.held, s.HasCharged (some e.key) e.amount
  bound : s.ledger.total ≤ 0 ∨ s.ledger.total ≤ budget ∨
    ∃ key size, s.HasCharged key size ∧ s.ledger.total ≤ size
  known : ∀ c ∈ s.calls, Known s c
  lists : ∀ l, ∀ f ∈ s.lists l, f < s.done.length

theorem books_init : Books budget State.init where
  accounts := Ledger.accounts_empty
  found := rfl
  amount _ he := absurd he List.not_mem_nil
  bound := .inl le_rfl
  known _ hc := absurd hc List.not_mem_nil
  lists _ _ hf := absurd hf List.not_mem_nil

/-- Calls that have taken their charges have taken them later. -/
theorem HasCharged.set {key : Option ℕ} {size : ℤ} (h : s.HasCharged key size)
    (hc : s.calls[i]? = some c) {c' : Call} (hcalls : s'.calls = s.calls.set i c')
    (hkey : c'.key = c.key) (hsize : c'.size = c.size) (hcharged : c.hasCharged → c'.hasCharged) :
    s'.HasCharged key size := by
  obtain ⟨d, hd, hdc, rfl, rfl⟩ := h
  rw [State.HasCharged, hcalls]
  rcases mem_set_or hc c' hd with rfl | hd
  · exact ⟨c', mem_set_self hc c', hcharged hdc, hkey, hsize⟩
  · exact ⟨d, hd, hdc, rfl, rfl⟩

theorem Books.amount_pos (h : Books budget s) {e : Entry ℕ} (he : e ∈ s.ledger.held) :
    1 ≤ e.amount := by
  obtain ⟨c, hc, -, -, hsize⟩ := h.amount e he
  rw [← hsize]
  exact (h.known c hc).size_pos

/-- **A call takes its charge.** -/
theorem Books.enter (h : Books budget s) (hc : s.calls[i]? = some c) (hphase : c.phase = .waiting)
    (hwaits : ¬c.waits budget s.ledger) :
    Books budget
      { s.setPhase i c .charged with ledger := s.ledger.acquire c.key c.size } := by
  set c' : Call := { c with phase := .charged } with hc'
  have hkept : ∀ {key size}, s.HasCharged key size → State.HasCharged
      { s.setPhase i c .charged with ledger := s.ledger.acquire c.key c.size } key size :=
    fun hch => HasCharged.set hch hc rfl rfl rfl fun _ => Phase.noConfusion
  have hnew : State.HasCharged
      { s.setPhase i c .charged with ledger := s.ledger.acquire c.key c.size } c.key c.size :=
    ⟨c', mem_set_self hc c', Phase.noConfusion, rfl, rfl⟩
  refine ⟨?_, h.found, fun e he => ?_, ?_, fun d hd => ?_, h.lists⟩
  · show Ledger.Accounts _ (charges Call.live (s.calls.set i c'))
    rw [charges_set_add hc (by unfold Call.live; rw [hphase]; rfl) rfl]
    exact h.accounts.acquire c.key c.size
  · rcases Ledger.mem_acquire he with ⟨hkey, hamount⟩ | ⟨e', he', hkey, hamount⟩
    · rw [← hkey, hamount]
      exact hnew
    · rw [← hkey, ← hamount]
      exact hkept (h.amount e' he')
  · show (s.ledger.acquire c.key c.size).total ≤ 0 ∨ _
    rcases s.ledger.total_acquire c.key c.size with ⟨htotal, hheld⟩ | htotal
    · rw [htotal]
      by_cases hfit : s.ledger.total + c.size ≤ budget
      · exact .inr (.inl hfit)
      · have hnone : s.ledger.total ≤ 0 := by
          by_contra hpos
          exact hwaits ⟨hheld, Int.not_le.mp hpos, Int.not_le.mp hfit⟩
        exact .inr (.inr ⟨c.key, c.size, hnew, by omega⟩)
    · rw [htotal]
      exact h.bound.imp_right (Or.imp_right fun ⟨key, size, hch, hle⟩ => ⟨key, size, hkept hch, hle⟩)
  · rcases List.mem_or_eq_of_mem_set hd with hd | rfl
    · exact ⟨(h.known d hd).1, (h.known d hd).2, (h.known d hd).3, (h.known d hd).4⟩
    · have hk := h.known c (mem_of_getElem? hc)
      exact ⟨hk.size_pos, hk.own, fun _ => Phase.noConfusion, fun _ => Phase.noConfusion⟩

/-- **A call releases its charge**, which finds its slab. -/
theorem Books.release (h : Books budget s) (hc : s.calls[i]? = some c)
    (hphase : c.phase = .releasing) :
    (∃ L, s.release i c = { s.setPhase i c .released with ledger := L } ∧
      s.ledger.release c.key c.size = some L) ∧ Books budget (s.release i c) := by
  set c' : Call := { c with phase := .released } with hc'
  have hlive : c.live = true := by
    unfold Call.live
    rw [hphase]
    rfl
  have haccounts := h.accounts
  have hreleased' : c'.live = false := rfl
  rw [charges_set_sub hc hlive hreleased'] at haccounts
  obtain ⟨L, hL, hL'⟩ := haccounts.release
  have hs' : s.release i c = { s.setPhase i c .released with ledger := L } := by
    unfold State.release
    rw [hL]
  refine ⟨⟨L, hs', hL⟩, ?_⟩
  rw [hs']
  have hkept : ∀ {key size}, s.HasCharged key size →
      State.HasCharged { s.setPhase i c .released with ledger := L } key size :=
    fun hch => HasCharged.set hch hc rfl rfl rfl fun _ => Phase.noConfusion
  refine ⟨hL', h.found, fun e he => ?_, ?_, fun d hd => ?_, h.lists⟩
  · obtain ⟨e', he', hkey, hamount⟩ := Ledger.mem_release hL he
    rw [← hkey, ← hamount]
    exact hkept (h.amount e' he')
  · have hle : L.total ≤ s.ledger.total := by
      refine Ledger.total_release hL ?_ fun e he => ?_
      · exact le_trans (by decide) (h.known c (mem_of_getElem? hc)).size_pos
      · exact le_trans (by decide) (h.amount_pos he)
    rcases h.bound with hzero | hbudget | ⟨key, size, hch, hsize⟩
    · exact .inl (hle.trans hzero)
    · exact .inr (.inl (hle.trans hbudget))
    · exact .inr (.inr ⟨key, size, hkept hch, hle.trans hsize⟩)
  · rcases List.mem_or_eq_of_mem_set hd with hd | rfl
    · exact ⟨(h.known d hd).1, (h.known d hd).2, (h.known d hd).3, (h.known d hd).4⟩
    · have hk := h.known c (mem_of_getElem? hc)
      exact ⟨hk.size_pos, hk.own, fun _ => Phase.noConfusion, fun _ => Phase.noConfusion⟩

/-- What a call makes of the futures it knows. -/
theorem Progress.known {a : Act} {lists : ℕ → List ℕ} {done : List Bool} {phase : Phase}
    {own : Option ℕ} (hp : Progress s c a lists done phase own) (h : Known s c)
    (hlists : ∀ l, ∀ f ∈ s.lists l, f < s.done.length) :
    (∀ f, own = some f → f < done.length) ∧ (∀ f, phase = .attaching f → f < done.length) ∧
      (∀ f, phase = .armed f → done[f]? = some false) := by
  cases hp with
  | measure | raise | sync | append | found | notFound | late =>
    exact ⟨h.own, fun _ => Phase.noConfusion, fun _ => Phase.noConfusion⟩
  | queue =>
    refine ⟨fun f hf => ?_, fun _ => Phase.noConfusion, fun _ => Phase.noConfusion⟩
    rw [List.length_append, ← Option.some.inj hf]
    exact Nat.lt_succ_self _
  | pick _ hlast =>
    refine ⟨h.own, fun f hf => ?_, fun _ => Phase.noConfusion⟩
    rw [← Phase.attaching.inj hf]
    exact hlists c.list _ (List.mem_of_getLast? hlast)
  | arm hphase hdone =>
    refine ⟨h.own, fun _ => Phase.noConfusion, fun f hf => ?_⟩
    rw [← Phase.armed.inj hf]
    unfold State.isDone at hdone
    rw [List.getD_eq_getElem?_getD, List.getElem?_eq_getElem (h.attaching _ hphase)] at hdone
    rw [List.getElem?_eq_getElem (h.attaching _ hphase)]
    exact congrArg some hdone

/-- A call makes progress while it holds its charge. -/
theorem Progress.live {a : Act} {lists : ℕ → List ℕ} {done : List Bool} {phase : Phase}
    {own : Option ℕ} (hp : Progress s c a lists done phase own) :
    c.live = true ∧ phase ≠ .waiting ∧ phase ≠ .released := by
  unfold Call.live
  cases hp with
  | measure hphase | raise hphase | sync hphase | queue hphase =>
    rw [hphase]
    exact ⟨rfl, Phase.noConfusion, Phase.noConfusion⟩
  | append hphase | found hphase | notFound hphase | pick hphase | late hphase | arm hphase =>
    rw [hphase]
    exact ⟨rfl, Phase.noConfusion, Phase.noConfusion⟩

/-- Progress adds futures. -/
theorem Progress.done_eq {a : Act} {lists : ℕ → List ℕ} {done : List Bool} {phase : Phase}
    {own : Option ℕ} (hp : Progress s c a lists done phase own) : ∃ more, done = s.done ++ more := by
  cases hp with
  | queue => exact ⟨[false], rfl⟩
  | measure | raise | sync | append | found | notFound | pick | late | arm =>
    exact ⟨[], (List.append_nil s.done).symm⟩

/-- Progress lists futures that are there. -/
theorem Progress.lists_lt {a : Act} {lists : ℕ → List ℕ} {done : List Bool} {phase : Phase}
    {own : Option ℕ} (hp : Progress s c a lists done phase own) (h : Known s c)
    (hlists : ∀ l, ∀ f ∈ s.lists l, f < s.done.length) :
    ∀ l, ∀ f ∈ lists l, f < done.length := by
  cases hp with
  | measure | raise | sync | found | notFound | pick | late | arm => exact hlists
  | queue =>
    intro l f hf
    rw [List.length_append]
    exact Nat.lt_add_right 1 (hlists l f hf)
  | @append before g hphase hown =>
    intro l f hf
    rcases eq_or_ne l c.list with rfl | hne
    · rw [Function.update_self] at hf
      rcases List.mem_append.mp hf with hf | hf
      · exact hlists _ f hf
      · rw [List.mem_singleton.mp hf]
        exact h.own g hown
    · rw [Function.update_of_ne hne] at hf
      exact hlists l f hf

/-- Later futures do not change what a call knows. -/
theorem Known.append (h : Known s c) {more : List Bool} (hdone : s'.done = s.done ++ more) :
    Known s' c := by
  have hlen : ∀ f, f < s.done.length → f < s'.done.length := fun f hf => by
    rw [hdone, List.length_append]
    exact Nat.lt_add_right _ hf
  refine ⟨h.size_pos, fun f hf => hlen f (h.own f hf), fun f hf => hlen f (h.attaching f hf),
    fun f hf => ?_⟩
  have hf' := h.armed f hf
  rw [hdone, List.getElem?_append_left (List.getElem?_eq_some_iff.mp hf').1]
  exact hf'

/-- **A call makes progress.** -/
theorem Books.progress (h : Books budget s) (hc : s.calls[i]? = some c) {a : Act}
    {lists : ℕ → List ℕ} {done : List Bool} {phase : Phase} {own : Option ℕ}
    (hp : Progress s c a lists done phase own) :
    Books budget { s with lists, done, calls := s.calls.set i { c with phase, own } } := by
  have hk := h.known c (mem_of_getElem? hc)
  obtain ⟨hlive, hwaiting, hreleased⟩ := hp.live
  obtain ⟨more, hmore⟩ := hp.done_eq
  set c' : Call := { c with phase, own } with hc'
  have hlive' : c'.live = true := by
    unfold Call.live
    rw [Bool.and_eq_true, bne_iff_ne, bne_iff_ne]
    exact ⟨hwaiting, hreleased⟩
  have hkept : ∀ {key size}, s.HasCharged key size →
      State.HasCharged { s with lists, done, calls := s.calls.set i c' } key size :=
    fun hch => HasCharged.set hch hc rfl rfl rfl fun _ => hwaiting
  refine ⟨?_, h.found, fun e he => hkept (h.amount e he), ?_, fun d hd => ?_,
    hp.lists_lt hk h.lists⟩
  · show s.ledger.Accounts (charges Call.live (s.calls.set i c'))
    have hkeep : Call.live c' = Call.live c := hlive'.trans hlive.symm
    have hcharges : charges Call.live (s.calls.set i c') = charges Call.live s.calls :=
      charges_set_eq hc rfl rfl hkeep
    rw [hcharges]
    exact h.accounts
  · exact h.bound.imp_right (Or.imp_right fun ⟨key, size, hch, hle⟩ => ⟨key, size, hkept hch, hle⟩)
  · rcases List.mem_or_eq_of_mem_set hd with hd | rfl
    · exact (h.known d hd).append hmore
    · obtain ⟨hown, hattaching, harmed⟩ := hp.known hk h.lists
      exact ⟨hk.size_pos, hown, hattaching, harmed⟩

/-- A call of `paced_submit` begins. -/
theorem Books.call (h : Books budget s) (slabSize : ℕ → Option Slab) (args : List Arg) (list : ℕ) :
    Books budget { s with calls := s.calls ++ [newCall slabSize args list] } := by
  have hkept : ∀ {key size}, s.HasCharged key size → State.HasCharged
      { s with calls := s.calls ++ [newCall slabSize args list] } key size :=
    fun ⟨d, hd, hdc⟩ => ⟨d, List.mem_append_left _ hd, hdc⟩
  refine ⟨?_, h.found, fun e he => hkept (h.amount e he), ?_, fun d hd => ?_, h.lists⟩
  · show s.ledger.Accounts (charges Call.live (s.calls ++ [newCall slabSize args list]))
    have hnew : charges Call.live (s.calls ++ [newCall slabSize args list]) =
        charges Call.live s.calls := by
      unfold charges
      rw [List.filter_append, List.filter_cons_of_neg Bool.noConfusion, List.filter_nil,
        List.append_nil]
    rw [hnew]
    exact h.accounts
  · exact h.bound.imp_right (Or.imp_right fun ⟨key, size, hch, hle⟩ => ⟨key, size, hkept hch, hle⟩)
  · rcases List.mem_append.mp hd with hd | hd
    · exact ⟨(h.known d hd).1, (h.known d hd).2, (h.known d hd).3, (h.known d hd).4⟩
    · obtain rfl := List.mem_singleton.mp hd
      exact ⟨le_max_left _ _, fun _ hf => absurd hf (Option.some_ne_none _).symm,
        fun _ => Phase.noConfusion, fun _ => Phase.noConfusion⟩

theorem Call.finish_spec (f : ℕ) (c : Call) :
    (c.finish f).key = c.key ∧ (c.finish f).size = c.size ∧ (c.finish f).list = c.list ∧
      (c.finish f).own = c.own ∧ (c.finish f).live = c.live := by
  unfold Call.finish
  split_ifs with h
  · refine ⟨rfl, rfl, rfl, rfl, ?_⟩
    unfold Call.live
    rw [h]
    rfl
  · exact ⟨rfl, rfl, rfl, rfl, rfl⟩

/-- **The copy of a future finishes.** -/
theorem Books.finish (h : Books budget s) (f : ℕ) :
    Books budget { s with done := s.done.set f true, calls := s.calls.map (Call.finish f) } := by
  have hlen : (s.done.set f true).length = s.done.length := List.length_set
  have hkept : ∀ {key size}, s.HasCharged key size → State.HasCharged
      { s with done := s.done.set f true, calls := s.calls.map (Call.finish f) } key size := by
    rintro key size ⟨d, hd, hdc, rfl, rfl⟩
    obtain ⟨hkey, hsize, -, -, -⟩ := d.finish_spec f
    refine ⟨d.finish f, List.mem_map_of_mem hd, ?_, hkey, hsize⟩
    unfold Call.finish Call.hasCharged
    split_ifs
    · exact Phase.noConfusion
    · exact hdc
  refine ⟨?_, h.found, fun e he => hkept (h.amount e he), ?_, fun d hd => ?_, fun l g hg => ?_⟩
  · show s.ledger.Accounts (charges Call.live (s.calls.map (Call.finish f)))
    have hsame : charges Call.live (s.calls.map (Call.finish f)) = charges Call.live s.calls := by
      unfold charges
      rw [List.filter_map, List.map_map, List.filter_congr fun c _ => (c.finish_spec f).2.2.2.2]
      refine congrArg _ (List.map_congr_left fun c _ => ?_)
      exact Prod.ext (c.finish_spec f).1 (c.finish_spec f).2.1
    rw [hsame]
    exact h.accounts
  · exact h.bound.imp_right (Or.imp_right fun ⟨key, size, hch, hle⟩ => ⟨key, size, hkept hch, hle⟩)
  · obtain ⟨e, he, rfl⟩ := List.mem_map.mp hd
    have hk := h.known e he
    obtain ⟨-, hsize, -, hown, -⟩ := e.finish_spec f
    refine ⟨hsize ▸ hk.size_pos, fun g hg => ?_, fun g hg => ?_, fun g hg => ?_⟩
    · rw [hlen]
      exact hk.own g (hown ▸ hg)
    · rw [hlen]
      unfold Call.finish at hg
      split_ifs at hg
      exact hk.attaching g hg
    · unfold Call.finish at hg
      split_ifs at hg with harmed
      have hne : f ≠ g := fun heq => harmed (heq ▸ hg)
      show (s.done.set f true)[g]? = some false
      rw [List.getElem?_set_ne hne]
      exact hk.armed g hg
  · show g < (s.done.set f true).length
    rw [hlen]
    exact h.lists l g hg

/-- **Every step keeps the books.** -/
theorem Books.step (h : Books budget s) {a : Action} (hs : s.step budget a = some s') :
    Books budget s' := by
  cases a with
  | call slabSize args list =>
    obtain rfl := Option.some.inj hs
    exact h.call slabSize args list
  | act i a =>
    obtain ⟨c, hc, hact⟩ := Option.bind_eq_some_iff.mp hs
    rcases act_cases hact with ⟨hphase, hwaits, rfl⟩ | ⟨hphase, rfl⟩ | ⟨_, _, _, _, hp, rfl⟩
    · exact h.enter hc hphase hwaits
    · exact (h.release hc hphase).2
    · exact h.progress hc hp
  | finish f =>
    obtain ⟨-, hs⟩ := Option.ite_none_right_eq_some.mp hs
    obtain rfl := Option.some.inj hs
    exact h.finish f

/-- **The books are kept in every run.** -/
theorem books {allowed : State → Action → Prop}
    (h : Transition.Reachable (State.step budget) allowed State.init s) : Books budget s :=
  h.invariant (Books budget) books_init fun _ _ _ hinv _ hs => hinv.step hs

/-! ## Each release hangs on its own copy -/

/-- **A call has the future of its own copy.** -/
def Owns (s : State) (c : Call) : Prop :=
  match c.phase with
  | .waiting | .charged => c.own = none
  | .submitting before => c.own = none ∧ before ≤ (s.lists c.list).length
  | .queued before => before ≤ (s.lists c.list).length
  | .returned before => ∀ f, c.own = some f → before < (s.lists c.list).length
  | .picking => True
  | .attaching f | .armed f => c.own = some f
  | .releasing | .released => ∀ f, c.own = some f → s.isDone f = true

/-- Longer lists and more futures that are done do not change whose future a call has. -/
theorem Owns.mono (h : Owns s c) (hlists : ∀ l, (s.lists l).length ≤ (s'.lists l).length)
    (hdone : ∀ f, s.isDone f = true → s'.isDone f = true) : Owns s' c := by
  unfold Owns at h ⊢
  cases hphase : c.phase with
  | submitting before =>
    rw [hphase] at h
    exact ⟨h.1, h.2.trans (hlists c.list)⟩
  | queued before =>
    rw [hphase] at h
    exact h.trans (hlists c.list)
  | returned before =>
    rw [hphase] at h
    exact fun f hf => (h f hf).trans_le (hlists c.list)
  | releasing | released =>
    rw [hphase] at h
    exact fun f hf => hdone f (h f hf)
  | waiting | charged | picking | attaching | armed =>
    rw [hphase] at h
    exact h

theorem isDone_append {done more : List Bool} {f : ℕ} (h : done.getD f false = true) :
    (done ++ more).getD f false = true := by
  rw [List.getD_eq_getElem?_getD] at h ⊢
  cases hget : done[f]? with
  | none =>
    rw [hget] at h
    exact absurd h Bool.noConfusion
  | some b =>
    rw [hget] at h
    rw [List.getElem?_append_left (List.getElem?_eq_some_iff.mp hget).1, hget]
    exact h

/-- Progress only appends to the lists. -/
theorem Progress.lists_le {a : Act} {lists : ℕ → List ℕ} {done : List Bool} {phase : Phase}
    {own : Option ℕ} (hp : Progress s c a lists done phase own) (l : ℕ) :
    (s.lists l).length ≤ (lists l).length := by
  cases hp with
  | measure | raise | sync | queue | found | notFound | pick | late | arm => exact le_rfl
  | append =>
    rcases eq_or_ne l c.list with rfl | hne
    · rw [Function.update_self, List.length_append]
      exact Nat.le_add_right _ _
    · rw [Function.update_of_ne hne]

/-- **A call that makes progress keeps its own future**, where it finds it. -/
theorem Progress.owns {a : Act} {lists : ℕ → List ℕ} {done : List Bool} {phase : Phase}
    {own : Option ℕ} (hp : Progress s c a lists done phase own) (h : Owns s c)
    (hpick : a = .pick → (s.lists c.list).getLast? = c.own) {calls : List Call} :
    Owns { s with lists, done, calls } { c with phase, own } := by
  unfold Owns at h
  cases hp with
  | measure hphase =>
    rw [hphase] at h
    exact ⟨h, le_rfl⟩
  | raise hphase =>
    rw [hphase] at h
    exact fun f hf => absurd (hf.symm.trans h.1) (Option.some_ne_none f)
  | sync hphase =>
    rw [hphase] at h
    exact fun f hf => absurd (hf.symm.trans h.1) (Option.some_ne_none f)
  | queue hphase =>
    rw [hphase] at h
    exact h.2
  | append hphase hown =>
    rw [hphase] at h
    intro f hf
    show _ < (Function.update s.lists c.list _ c.list).length
    rw [Function.update_self, List.length_append]
    exact Nat.lt_succ_of_le h
  | found hphase hlt => trivial
  | notFound hphase hle =>
    rw [hphase] at h
    exact fun f hf => absurd (h f hf) (Nat.not_lt.mpr hle)
  | pick hphase hlast => exact (hpick rfl).symm.trans hlast
  | late hphase hdone =>
    rw [hphase] at h
    intro f hf
    rw [← Option.some.inj (h.symm.trans hf)]
    exact hdone
  | arm hphase hdone =>
    rw [hphase] at h
    exact h

/-- A call that owns its future is in flight as long as it holds its charge. -/
theorem Owns.inFlight (h : Owns s c) (hk : Known s c) : s.inFlight c = c.live := by
  unfold Owns at h
  unfold State.inFlight Call.live
  cases hphase : c.phase with
  | waiting | charged | submitting | queued | returned | picking | attaching | releasing => rfl
  | armed f =>
    rw [hphase] at h
    have hdone := hk.armed f hphase
    show (c.own.any fun f => !s.isDone f) = true
    rw [h, Option.any_some]
    unfold State.isDone
    rw [List.getD_eq_getElem?_getD, hdone]
    rfl
  | released =>
    rw [hphase] at h
    show (c.own.any fun f => !s.isDone f) = false
    cases hown : c.own with
    | none => rfl
    | some f => rw [Option.any_some, h f hown, Bool.not_true]

/-- **Every allowed step keeps each call its own future.** -/
theorem owns_step (h : ∀ c ∈ s.calls, Owns s c) (hbooks : Books budget s) {a : Action}
    (hallowed : OwnFuture s a) (hs : s.step budget a = some s') : ∀ c ∈ s'.calls, Owns s' c := by
  cases a with
  | call slabSize args list =>
    obtain rfl := Option.some.inj hs
    intro d hd
    rcases List.mem_append.mp hd with hd | hd
    · exact (h d hd).mono (fun _ => le_rfl) fun _ => id
    · obtain rfl := List.mem_singleton.mp hd
      rfl
  | act i a =>
    obtain ⟨c, hc, hact⟩ := Option.bind_eq_some_iff.mp hs
    have hown := h c (mem_of_getElem? hc)
    rcases act_cases hact with ⟨hphase, -, rfl⟩ | ⟨hphase, rfl⟩ | ⟨_, _, _, _, hp, rfl⟩
    · intro d hd
      rcases List.mem_or_eq_of_mem_set hd with hd | rfl
      · exact (h d hd).mono (fun _ => le_rfl) fun _ => id
      · unfold Owns at hown
        rw [hphase] at hown
        exact hown
    · obtain ⟨⟨L, hrelease, -⟩, -⟩ := hbooks.release hc hphase
      rw [hrelease]
      intro d hd
      rcases List.mem_or_eq_of_mem_set hd with hd | rfl
      · exact (h d hd).mono (fun _ => le_rfl) fun _ => id
      · unfold Owns at hown
        rw [hphase] at hown
        exact hown
    · intro d hd
      rcases List.mem_or_eq_of_mem_set hd with hd | rfl
      · refine (h d hd).mono hp.lists_le fun f hf => ?_
        obtain ⟨more, hmore⟩ := hp.done_eq
        show List.getD _ f false = true
        rw [hmore]
        exact isDone_append hf
      · refine hp.owns hown fun ha => ?_
        rw [ha] at hallowed
        exact hallowed c hc
  | finish f =>
    obtain ⟨hf, hs⟩ := Option.ite_none_right_eq_some.mp hs
    obtain rfl := Option.some.inj hs
    have hdone : ∀ g, (g = f ∨ s.isDone g = true) → (s.done.set f true).getD g false = true := by
      intro g hg
      rw [List.getD_eq_getElem?_getD, List.getElem?_set]
      rcases eq_or_ne f g with rfl | hne
      · rw [if_pos rfl, if_pos (List.getElem?_eq_some_iff.mp hf).1]
        rfl
      · rw [if_neg hne, ← List.getD_eq_getElem?_getD]
        exact hg.resolve_left hne.symm
    intro d hd
    obtain ⟨c, hc, rfl⟩ := List.mem_map.mp hd
    have hown := h c hc
    unfold Call.finish
    split_ifs with hphase
    · unfold Owns at hown
      rw [hphase] at hown
      intro g hg
      exact hdone g (.inl (Option.some.inj (hg.symm.trans hown)))
    · exact hown.mono (fun _ => le_rfl) fun g hg => hdone g (.inr hg)

/-! ## What the pacing keeps -/

/-- **The counter is what is in flight**: the ledger is that of the copies in flight – each slab
with a queued copy charged once, by one of its copies – and no release missed its slab. -/
structure Paced (budget : ℤ) (s : State) : Prop where
  accounts : s.ledger.Accounts s.copies
  amount : ∀ e ∈ s.ledger.held, s.HasCharged (some e.key) e.amount
  nonneg : 0 ≤ s.ledger.total
  bound : s.ledger.total ≤ max budget s.largest
  found : s.keyError = false
  settled : s.Settled → s.ledger = Ledger.empty

theorem le_largest {key : Option ℕ} {size : ℤ} (h : s.HasCharged key size) : size ≤ s.largest := by
  obtain ⟨c, hc, hcharged, -, rfl⟩ := h
  have hmem : c.size ∈ (s.calls.filter fun c => c.phase != .waiting).map Call.size :=
    List.mem_map_of_mem (List.mem_filter.mpr ⟨hc, bne_iff_ne.mpr hcharged⟩)
  unfold State.largest
  revert hmem
  generalize (s.calls.filter fun c => c.phase != .waiting).map Call.size = sizes
  intro hmem
  induction sizes with
  | nil => exact absurd hmem List.not_mem_nil
  | cons a sizes ih =>
    rcases List.mem_cons.mp hmem with rfl | hmem
    · exact le_max_left _ _
    · exact (ih hmem).trans (le_max_right _ _)

theorem largest_nonneg : 0 ≤ s.largest := by
  unfold State.largest
  generalize (s.calls.filter fun c => c.phase != .waiting).map Call.size = sizes
  induction sizes with
  | nil => exact le_rfl
  | cons a sizes ih => exact ih.trans (le_max_right _ _)

theorem Books.nonneg (h : Books budget s) : 0 ≤ s.ledger.total := by
  rw [h.accounts.total]
  refine add_nonneg (List.sum_nonneg fun amount hamount => ?_) (Multiset.sum_nonneg fun size hsize => ?_)
  · obtain ⟨e, he, rfl⟩ := List.mem_map.mp hamount
    exact le_trans (by decide) (h.amount_pos he)
  · obtain ⟨p, hp, rfl⟩ := Multiset.mem_map.mp hsize
    obtain ⟨c, hc, rfl⟩ := List.mem_map.mp (Multiset.mem_coe.mp hp)
    split_ifs
    · exact le_trans (by decide) (h.known c (List.mem_filter.mp hc).1).size_pos
    · exact le_rfl

/-- **The budget bounds the counter**, or a single charge does. -/
theorem Books.le_max (h : Books budget s) : s.ledger.total ≤ max budget s.largest := by
  rcases h.bound with hzero | hbudget | ⟨key, size, hch, hle⟩
  · exact hzero.trans (largest_nonneg.trans (le_max_right _ _))
  · exact hbudget.trans (le_max_left _ _)
  · exact (hle.trans (le_largest hch)).trans (le_max_right _ _)

/-- **In the end nothing is charged.** -/
theorem Books.settled (h : Books budget s) (hs : s.Settled) : s.ledger = Ledger.empty := by
  refine Ledger.Accounts.eq_empty ?_
  have hnone : charges Call.live s.calls = 0 := by
    unfold charges
    rw [List.filter_eq_nil_iff.mpr]
    · rfl
    intro c hc
    unfold Call.live
    rcases hs.2 c hc with hphase | hphase | ⟨f, hphase⟩
    · rw [hphase]
      exact Bool.noConfusion
    · rw [hphase]
      exact Bool.noConfusion
    · have hdone := (h.known c hc).armed f hphase
      exact absurd (hs.1 false (List.mem_of_getElem? hdone)) Bool.noConfusion
  rw [← hnone]
  exact h.accounts

/-- **The pacing, where each call finds its own future.** -/
theorem paced (budget : ℤ) (s : State)
    (h : Transition.Reachable (State.step budget) OwnFuture State.init s) : Paced budget s := by
  have hinv : Books budget s ∧ ∀ c ∈ s.calls, Owns s c := by
    refine h.invariant (fun s => Books budget s ∧ ∀ c ∈ s.calls, Owns s c)
      ⟨books_init, fun _ hc => absurd hc List.not_mem_nil⟩ fun s a s' hinv hallowed hs => ?_
    exact ⟨hinv.1.step hs, owns_step hinv.2 hinv.1 hallowed hs⟩
  obtain ⟨hbooks, howns⟩ := hinv
  refine ⟨?_, hbooks.amount, hbooks.nonneg, hbooks.le_max, hbooks.found, hbooks.settled⟩
  have hcopies : s.copies = charges Call.live s.calls :=
    charges_congr fun c hc => (howns c hc).inFlight (hbooks.known c hc)
  rw [hcopies]
  exact hbooks.accounts

/-! ## Lists that are used by one call at a time -/

/-- The end of the list of a call is what the call has appended. -/
def Tail (s : State) (c : Call) : Prop :=
  match c.phase with
  | .waiting | .charged => c.own = none
  | .submitting before => c.own = none ∧ (s.lists c.list).length = before
  | .queued before => (s.lists c.list).length = before
  | .returned before =>
    (c.own = none ∧ (s.lists c.list).length = before) ∨ (s.lists c.list).getLast? = c.own
  | .picking => (s.lists c.list).getLast? = c.own
  | _ => True

/-- Each list is used by one call at a time, whose end it has. -/
structure Exclusive (s : State) : Prop where
  tail : ∀ c ∈ s.calls, Tail s c
  alone : ∀ (i j : ℕ) (c d : Call), s.calls[i]? = some c → s.calls[j]? = some d → i ≠ j →
    c.list = d.list → c.reads = true → d.reads = false

theorem Tail.of_lists (h : Tail s c) (hlists : c.reads = true → s'.lists c.list = s.lists c.list) :
    Tail s' c := by
  unfold Tail at h ⊢
  unfold Call.reads at hlists
  cases hphase : c.phase with
  | submitting | queued | returned | picking =>
    rw [hphase] at h hlists
    rw [hlists rfl]
    exact h
  | waiting | charged | attaching | armed | releasing | released =>
    rw [hphase] at h
    exact h

/-- A call that makes progress has the end of its list. -/
theorem Progress.tail {a : Act} {lists : ℕ → List ℕ} {done : List Bool} {phase : Phase}
    {own : Option ℕ} (hp : Progress s c a lists done phase own) (h : Tail s c)
    {calls : List Call} : Tail { s with lists, done, calls } { c with phase, own } := by
  unfold Tail at h
  cases hp with
  | measure hphase =>
    rw [hphase] at h
    exact ⟨h, rfl⟩
  | sync hphase =>
    rw [hphase] at h
    exact .inl h
  | queue hphase =>
    rw [hphase] at h
    exact h.2
  | append hphase hown =>
    refine .inr ?_
    show (Function.update s.lists c.list _ c.list).getLast? = c.own
    rw [Function.update_self, List.getLast?_concat, hown]
  | found hphase hlt =>
    rw [hphase] at h
    exact h.resolve_left fun ⟨_, hlen⟩ => absurd hlt (hlen ▸ lt_irrefl _)
  | raise | notFound | pick | late | arm => trivial

/-- Only a call that reads its list appends to a list. -/
theorem Progress.lists_of_ne {a : Act} {lists : ℕ → List ℕ} {done : List Bool} {phase : Phase}
    {own : Option ℕ} (hp : Progress s c a lists done phase own) {l : ℕ}
    (hl : l = c.list → c.reads = false) : lists l = s.lists l := by
  cases hp with
  | measure | raise | sync | queue | found | notFound | pick | late | arm => rfl
  | append hphase =>
    refine Function.update_of_ne (fun heq => ?_) _ _
    have hreads := hl heq
    unfold Call.reads at hreads
    rw [hphase] at hreads
    exact Bool.noConfusion hreads

/-- A call begins to read its list when it reads its length. -/
theorem Progress.reads {a : Act} {lists : ℕ → List ℕ} {done : List Bool} {phase : Phase}
    {own : Option ℕ} (hp : Progress s c a lists done phase own) {c' : Call} (hc' : c'.phase = phase)
    (hreads : c'.reads = true) : a = .measure ∨ c.reads = true := by
  unfold Call.reads at hreads ⊢
  rw [hc'] at hreads
  cases hp with
  | measure => exact .inl rfl
  | raise | notFound | pick | late | arm => exact absurd hreads Bool.noConfusion
  | sync hphase | queue hphase => exact .inr (by rw [hphase])
  | append hphase | found hphase => exact .inr (by rw [hphase])

/-- A call that moves without reading its list leaves the others alone. -/
theorem Exclusive.set (h : Exclusive s) (hc : s.calls[i]? = some c) {c' : Call}
    (hcalls : s'.calls = s.calls.set i c') (hlist : c'.list = c.list) (htail : Tail s' c')
    (hlists : ∀ d ∈ s.calls.eraseIdx i, Tail s' d)
    (hreads : c'.reads = true → c.reads = true ∨ ∀ (j : ℕ) (d : Call), j ≠ i →
      s.calls[j]? = some d → d.list = c.list → d.reads = false) : Exclusive s' := by
  have hget : ∀ {j : ℕ} {d : Call}, s'.calls[j]? = some d →
      (j = i ∧ d = c') ∨ (j ≠ i ∧ s.calls[j]? = some d) := by
    intro j d hd
    rw [hcalls] at hd
    rcases eq_or_ne j i with rfl | hne
    · rw [List.getElem?_set_self (List.getElem?_eq_some_iff.mp hc).1] at hd
      exact .inl ⟨rfl, (Option.some.inj hd).symm⟩
    · rw [List.getElem?_set_ne hne.symm] at hd
      exact .inr ⟨hne, hd⟩
  refine ⟨fun d hd => ?_, fun j k d e hd he hne hsame hread => ?_⟩
  · rw [hcalls, (set_perm hc c').mem_iff] at hd
    rcases List.mem_cons.mp hd with rfl | hd
    · exact htail
    · exact hlists d hd
  · rcases hget hd with ⟨rfl, rfl⟩ | ⟨hj, hd⟩
    · rcases hget he with ⟨rfl, -⟩ | ⟨hk, he⟩
      · exact absurd rfl hne
      · rcases hreads hread with hread | hfree
        · exact h.alone _ _ c e hc he hne (hlist.symm.trans hsame) hread
        · exact hfree k e hk he (hsame.symm.trans hlist)
    · rcases hget he with ⟨rfl, rfl⟩ | ⟨hk, he⟩
      · cases hread' : e.reads with
        | false => rfl
        | true =>
          rcases hreads hread' with hread' | hfree
          · have := h.alone _ _ c d hc hd hj.symm (hlist.symm.trans hsame.symm) hread'
            exact absurd (this.symm.trans hread) Bool.noConfusion
          · have := hfree j d hj hd (hsame.trans hlist)
            exact absurd (this.symm.trans hread) Bool.noConfusion
      · exact h.alone _ _ d e hd he hne hsame hread

/-- **A call that reads `futures[-1]` finds its own future**, and every step keeps the lists to
one call at a time. -/
theorem Exclusive.step (h : Exclusive s) (hbooks : Books budget s) {a : Action}
    (hallowed : OneAtATime s a) (hs : s.step budget a = some s') :
    Exclusive s' ∧ OwnFuture s a := by
  cases a with
  | call slabSize args list =>
    obtain rfl := Option.some.inj hs
    have hget : ∀ {j : ℕ} {d : Call},
        (s.calls ++ [newCall slabSize args list])[j]? = some d → d.reads = true →
          s.calls[j]? = some d := by
      intro j d hd hreads
      rw [List.getElem?_append] at hd
      split_ifs at hd
      · exact hd
      · rw [List.mem_singleton.mp (List.mem_of_getElem? hd)] at hreads
        exact absurd hreads Bool.noConfusion
    refine ⟨⟨fun d hd => ?_, fun j k d e hd he hne hsame hread => ?_⟩, fun d hd =>
      absurd hd (Option.some_ne_none d).symm⟩
    · rcases List.mem_append.mp hd with hd | hd
      · exact (h.tail d hd).of_lists fun _ => rfl
      · rw [List.mem_singleton.mp hd]
        rfl
    · cases hread' : e.reads with
      | false => rfl
      | true =>
        exact hread'.symm.trans (h.alone j k d e (hget hd hread) (hget he hread') hne hsame hread)
  | act i a =>
    obtain ⟨c, hc, hact⟩ := Option.bind_eq_some_iff.mp hs
    have htail := h.tail c (mem_of_getElem? hc)
    have hothers : ∀ {s'' : State}, s''.lists = s.lists → ∀ d ∈ s.calls.eraseIdx i, Tail s'' d :=
      fun hlists d hd => (h.tail d (List.mem_of_mem_eraseIdx hd)).of_lists fun _ => by rw [hlists]
    have hown : OwnFuture s (.act i a) := by
      intro d hd
      cases a with
      | pick =>
        obtain rfl := Option.some.inj (hc.symm.trans hd)
        unfold Tail at htail
        rw [(Option.ite_none_right_eq_some.mp hact).1] at htail
        exact htail
      | enter | measure | raise | sync | queue | append | check | attach | release =>
        exact absurd hd (Option.some_ne_none d).symm
    refine ⟨?_, hown⟩
    rcases act_cases hact with ⟨hphase, -, rfl⟩ | ⟨hphase, rfl⟩ | ⟨_, _, _, _, hp, rfl⟩
    · refine h.set hc rfl rfl ?_ (hothers rfl) fun hreads => absurd hreads Bool.noConfusion
      unfold Tail at htail
      rw [hphase] at htail
      exact htail
    · obtain ⟨⟨L, hrelease, -⟩, -⟩ := hbooks.release hc hphase
      rw [hrelease]
      exact h.set hc rfl rfl trivial (hothers rfl) fun hreads => absurd hreads Bool.noConfusion
    · refine h.set hc rfl rfl (hp.tail htail) (fun d hd => ?_) fun hreads => ?_
      · obtain ⟨j, hj, hd⟩ := List.mem_eraseIdx_iff_getElem?.mp hd
        refine (h.tail d (mem_of_getElem? hd)).of_lists fun hread => ?_
        refine hp.lists_of_ne fun hsame => ?_
        exact h.alone j i d c hd hc hj hsame hread
      · rcases hp.reads rfl hreads with rfl | hread
        · exact .inr (hallowed c hc)
        · exact .inl hread
  | finish f =>
    obtain ⟨-, hs⟩ := Option.ite_none_right_eq_some.mp hs
    obtain rfl := Option.some.inj hs
    have hreads : ∀ c : Call, (c.finish f).reads = c.reads := by
      intro c
      unfold Call.finish
      split_ifs with hphase
      · unfold Call.reads
        rw [hphase]
      · rfl
    refine ⟨⟨fun d hd => ?_, fun j k d e hd he hne hsame hread => ?_⟩, fun d hd =>
      absurd hd (Option.some_ne_none d).symm⟩
    · obtain ⟨c, hc, rfl⟩ := List.mem_map.mp hd
      unfold Call.finish
      split_ifs
      · trivial
      · exact (h.tail c hc).of_lists fun _ => rfl
    · rw [List.getElem?_map, Option.map_eq_some_iff] at hd he
      obtain ⟨d, hd, rfl⟩ := hd
      obtain ⟨e, he, rfl⟩ := he
      rw [(d.finish_spec f).2.2.1, (e.finish_spec f).2.2.1] at hsame
      rw [hreads] at hread ⊢
      exact h.alone j k d e hd he hne hsame hread

/-- **Where a list is used by one call at a time, each call finds its own future.** -/
theorem ownFuture_of_oneAtATime
    (h : Transition.Reachable (State.step budget) OneAtATime State.init s) :
    Transition.Reachable (State.step budget) OwnFuture State.init s := by
  have hinv : Transition.Reachable (State.step budget) OwnFuture State.init s ∧ Exclusive s := by
    refine h.invariant (fun s => Transition.Reachable (State.step budget) OwnFuture State.init s ∧
      Exclusive s) ⟨.start, ?_⟩ fun s a s' hinv hallowed hs => ?_
    · exact ⟨fun _ hc => absurd hc List.not_mem_nil, fun _ _ _ _ hc =>
        absurd hc (Option.some_ne_none _).symm⟩
    · obtain ⟨hnext, hown⟩ := hinv.2.step (books hinv.1) hallowed hs
      exact ⟨.step hinv.1 hown hs, hnext⟩
  exact hinv.1

/-- A copy of four bytes. -/
def fourBytes : Action := .call (fun _ => none) [.parameter, .tensor ⟨some 4, none, some 0⟩] 0

/-- Two threads submit through one list: both futures are appended before either call reads
`futures[-1]`. -/
def sharedList : List Action :=
  [fourBytes, fourBytes, .act 0 .enter, .act 1 .enter, .act 0 .measure, .act 1 .measure,
    .act 0 .queue, .act 0 .append, .act 1 .queue, .act 1 .append, .act 0 .check, .act 0 .pick,
    .act 0 .attach, .act 1 .check, .act 1 .pick, .act 1 .attach, .finish 1, .act 0 .release,
    .act 1 .release]

/-- **A charge released early**: the end of the second copy releases the charge of the first
one too, which is still running. -/
theorem paced_broken : ∃ s : State,
    Transition.Reachable (State.step 8) (fun _ _ => True) State.init s ∧
    s.ledger.total = 0 ∧ s.isDone 0 = false ∧ Ledger.unshared s.copies = 4 ∧ ¬Paced 8 s := by
  have h : ((Transition.run (State.step 8) State.init sharedList).any fun s =>
      s.ledger.total == 0 && s.ledger.held.length == 0 && !s.isDone 0 &&
        ((s.calls.filter s.inFlight).map fun c => (c.key, c.size)) == [(none, 4)]) = true := by
    decide +kernel
  obtain ⟨s, hrun, hs⟩ := (Option.any_eq_true _ _).mp h
  simp only [Bool.and_eq_true, beq_iff_eq] at hs
  obtain ⟨⟨⟨htotal, hheld⟩, hdone⟩, hcopies⟩ := hs
  have hunshared : Ledger.unshared s.copies = 4 := by
    unfold State.copies charges
    rw [hcopies]
    rfl
  refine ⟨s, .of_run hrun (Transition.allowedRun_of_forall (fun _ _ => trivial) _ _), htotal,
    Bool.not_eq_true' _ |>.mp hdone, hunshared, fun hpaced => ?_⟩
  have hbooks := hpaced.accounts.total
  rw [htotal, hunshared, List.length_eq_zero_iff.mp hheld] at hbooks
  exact absurd hbooks (by decide)

/-- The same two copies, the second one submitted when the first call has hung its release on
its own future, and two views into one slab of six bytes. -/
def ownLists : List Action :=
  [fourBytes, fourBytes, .act 0 .enter, .act 0 .measure, .act 0 .queue, .act 0 .append,
    .act 0 .check, .act 0 .pick, .act 0 .attach, .act 1 .enter, .act 1 .measure, .act 1 .queue,
    .finish 1, .act 1 .append, .act 1 .check, .act 1 .pick, .act 1 .attach, .act 1 .release,
    .finish 0, .act 0 .release,
    .call (fun _ => some ⟨6, false⟩) [.tensor ⟨some 2, none, some 7⟩] 1,
    .call (fun _ => some ⟨6, false⟩) [.tensor ⟨some 2, none, some 7⟩] 1,
    .act 2 .enter, .act 3 .enter, .act 2 .measure, .act 2 .raise, .act 2 .release]

theorem paced_own_lists : ∃ s : State,
    s.ledger.total = 6 ∧ (s.calls.filter s.inFlight).length = 1 ∧ Paced 8 s := by
  have h : ((Transition.run (State.step 8) State.init ownLists).any fun s =>
      s.ledger.total == 6 && (s.calls.filter s.inFlight).length == 1) = true := by
    decide +kernel
  have hallowed : Transition.AllowedRun (State.step 8) OwnFuture State.init ownLists := by
    decide +kernel
  obtain ⟨s, hrun, hs⟩ := (Option.any_eq_true _ _).mp h
  rw [Bool.and_eq_true, beq_iff_eq, beq_iff_eq] at hs
  exact ⟨s, hs.1, hs.2, paced 8 s (.of_run hrun hallowed)⟩

end CopyPacing
