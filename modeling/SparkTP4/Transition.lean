import Mathlib.Logic.Basic

/-!
# Transition systems and their runs

A system is given by a partial step function: from a state, an action either
leads to a next state or is not possible there. A *reachable* state is one a
run of possible actions leads to; a run may moreover be restricted to steps
that are *allowed*, where a result is only about runs whose every step meets
a condition. The induction over a run is stated once, as the invariant rule.
-/

namespace Transition

variable {S A : Type}

/-- The states reachable from `start` by steps that are allowed. -/
inductive Reachable (step : S → A → Option S) (allowed : S → A → Prop) (start : S) : S → Prop
  | start : Reachable step allowed start start
  | step {s s' : S} {a : A} : Reachable step allowed start s → allowed s a →
      step s a = some s' → Reachable step allowed start s'

variable {step : S → A → Option S} {allowed : S → A → Prop} {start : S}

/-- **The invariant rule.** What holds initially and is preserved by every
allowed step holds in every reachable state. -/
theorem Reachable.invariant (Inv : S → Prop) (hstart : Inv start)
    (hstep : ∀ s a s', Inv s → allowed s a → step s a = some s' → Inv s') {s : S}
    (h : Reachable step allowed start s) : Inv s := by
  induction h with
  | start => exact hstart
  | step _ hallowed hs ih => exact hstep _ _ _ ih hallowed hs

/-- Reachability composes. -/
theorem Reachable.trans {s t : S} (hs : Reachable step allowed start s)
    (ht : Reachable step allowed s t) : Reachable step allowed start t := by
  induction ht with
  | start => exact hs
  | step _ hallowed hstep ih => exact .step ih hallowed hstep

/-- A weaker condition on the steps reaches more states. -/
theorem Reachable.mono {allowed' : S → A → Prop} (hle : ∀ s a, allowed s a → allowed' s a) {s : S}
    (h : Reachable step allowed start s) : Reachable step allowed' start s := by
  induction h with
  | start => exact .start
  | step _ hallowed hstep ih => exact .step ih (hle _ _ hallowed) hstep

/-- **The simulation rule.** A relation that holds initially, and that every allowed step of
one system keeps with some steps of another, holds of every reachable state. -/
theorem Reachable.simulates {T B : Type} {step' : T → B → Option T} {allowed' : T → B → Prop}
    {start' : T} (R : S → T → Prop) (hstart : R start start')
    (hstep : ∀ s a s₁ t, R s t → allowed s a → step s a = some s₁ →
      ∃ t₁, Reachable step' allowed' t t₁ ∧ R s₁ t₁) {s : S}
    (h : Reachable step allowed start s) : ∃ t, Reachable step' allowed' start' t ∧ R s t := by
  induction h with
  | start => exact ⟨start', .start, hstart⟩
  | step _ hallowed hs ih =>
    obtain ⟨t, ht, hR⟩ := ih
    obtain ⟨t₁, ht₁, hR₁⟩ := hstep _ _ _ t hR hallowed hs
    exact ⟨t₁, ht.trans ht₁, hR₁⟩

/-- The state a list of actions leads to, if each of them is possible. -/
def run (step : S → A → Option S) (s : S) : List A → Option S
  | [] => some s
  | a :: as => (step s a).bind (fun s' => run step s' as)

/-- Every action of the list is allowed where it is taken. -/
def AllowedRun (step : S → A → Option S) (allowed : S → A → Prop) (s : S) : List A → Prop
  | [] => True
  | a :: as => allowed s a ∧ ∀ s', step s a = some s' → AllowedRun step allowed s' as

theorem AllowedRun.mono {allowed' : S → A → Prop} (hle : ∀ s a, allowed s a → allowed' s a) {s : S}
    {as : List A} (h : AllowedRun step allowed s as) : AllowedRun step allowed' s as := by
  induction as generalizing s with
  | nil => trivial
  | cons a as ih => exact ⟨hle s a h.1, fun s' hs' => ih (h.2 s' hs')⟩

/-- A run of allowed steps leads to a reachable state. -/
theorem Reachable.of_run {as : List A} {s : S} (h : run step start as = some s)
    (hallowed : AllowedRun step allowed start as) : Reachable step allowed start s := by
  induction as generalizing start with
  | nil =>
    obtain rfl := Option.some.inj h
    exact .start
  | cons a as ih =>
    obtain ⟨s', hs', hrun⟩ := Option.bind_eq_some_iff.mp h
    exact Reachable.trans (.step .start hallowed.1 hs') (ih hrun (hallowed.2 s' hs'))

instance decidableAllowedRun [∀ s a, Decidable (allowed s a)] (s : S) (as : List A) :
    Decidable (AllowedRun step allowed s as) :=
  match as with
  | [] => isTrue trivial
  | a :: as =>
    match h : step s a with
    | none => decidable_of_iff (allowed s a)
      ⟨fun ha => ⟨ha, fun _ h' => by cases h.symm.trans h'⟩, fun ha => ha.1⟩
    | some t =>
      have := decidableAllowedRun t as
      decidable_of_iff (allowed s a ∧ AllowedRun step allowed t as)
        ⟨fun ha => ⟨ha.1, fun _ h' => Option.some.inj (h.symm.trans h') ▸ ha.2⟩,
          fun ha => ⟨ha.1, ha.2 t h⟩⟩

/-- Without a condition on the steps every run is allowed. -/
theorem allowedRun_of_forall (h : ∀ s a, allowed s a) (s : S) (as : List A) :
    AllowedRun step allowed s as := by
  induction as generalizing s with
  | nil => trivial
  | cons a as ih => exact ⟨h s a, fun s' _ => ih s'⟩

/-- A run of actions that are allowed everywhere is allowed. -/
theorem allowedRun_of_mem {as : List A} (h : ∀ a ∈ as, ∀ s, allowed s a) (s : S) :
    AllowedRun step allowed s as := by
  induction as generalizing s with
  | nil => trivial
  | cons a as ih =>
    exact ⟨h a List.mem_cons_self s, fun s' _ =>
      ih (fun b hb => h b (List.mem_cons_of_mem a hb)) s'⟩

end Transition
