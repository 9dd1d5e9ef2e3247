import SparkTP4.TwinRegistry

/-!
# The registry of fp8 twins serves the weights last loaded

A twin rebuilds the weight it was made from (`makeTwin_weight`), so an entry is
right when it is made. It stays right while its address belongs to the same
module with the same weight. What breaks this is a load that changes a weight
and makes no new twin for it: then the entry under its address, made for an
earlier weight at that address, is served.

The three passes of a load – the edits, the twins, the tags – are followed
module by module: `Pending` says what a module the twins were not yet made for
needs, `Ok` what holds afterwards.
-/

namespace TwinRegistry

variable {B E : Type} [DecidableEq B] {shape : Shape} {fp : Fp8 B E} {cfg : Config}

/-! ## A twin -/

omit [DecidableEq B] in
/-- The stored exponent is the one the values were scaled with. -/
theorem exponent_stored (w : Weight B shape) (g : Fin shape.g) (rb cb : ℕ) :
    (((exponent fp w g rb cb + 127).toNat : ℕ) : ℤ) - 127 = exponent fp w g rb cb := by
  have hlow : -127 ≤ exponent fp w g rb cb := by
    unfold exponent
    omega
  rw [Int.toNat_of_nonneg (by omega)]
  omega

/-- **A twin rebuilds its weight.** -/
theorem makeTwin_weight {w : Weight B shape} {t : Twin E shape} (h : makeTwin fp w = some t) :
    t.weight fp = w := by
  unfold makeTwin at h
  dsimp only at h
  split at h
  · next hback =>
    obtain rfl := Option.some.inj h
    refine Eq.trans ?_ hback
    funext g r d
    unfold Twin.weight
    dsimp only
    rw [exponent_stored]
  · cases h

/-! ## What holds of a module -/

/-- The entry of a module is its weight, a tag has an entry, and a storage holds what was
loaded. -/
structure Ok (fp : Fp8 B E) (s : State B E shape) (i : ℕ) : Prop where
  exact : ∀ t, Memo.get s.twins (s.param i).ptr = some t → t.weight fp = (s.param i).loaded
  tag : (s.param i).isTag = true →
    (s.param i).ptr ∈ s.dropped ∧ ∃ t, Memo.get s.twins (s.param i).ptr = some t
  full : (s.param i).isTag = false → (s.param i).weight = (s.param i).loaded

/-- A module that waits for its twin. -/
structure Pending (fp : Fp8 B E) (cfg : Config) (s : State B E shape) (i : ℕ) : Prop where
  notTag : (s.param i).isTag = false
  full : (s.param i).weight = (s.param i).loaded
  unlisted : candidate fp cfg s i = none → Memo.get s.twins (s.param i).ptr = none

/-- Live weights have storages of their own. -/
structure Apart (cfg : Config) (s : State B E shape) : Prop where
  params : ∀ i ∈ cfg.all, ∀ j ∈ cfg.all, i ≠ j → (s.param i).ptr ≠ (s.param j).ptr
  others : ∀ i ∈ cfg.all, (s.param i).ptr ∉ s.others

omit [DecidableEq B] in
/-- A weight moves to an address that is not in use. -/
theorem Apart.move {s t : State B E shape} {i : ℕ} (h : Apart cfg s)
    (hfree : ¬s.live cfg (t.param i).ptr) (hsame : ∀ j, j ≠ i → t.param j = s.param j)
    (hothers : t.others = s.others) : Apart cfg t := by
  unfold State.live at hfree
  push Not at hfree
  obtain ⟨hothers', hparams⟩ := hfree
  refine ⟨fun j hj k hk hne => ?_, fun j hj => ?_⟩
  · by_cases hji : j = i
    · subst hji
      rw [hsame k hne.symm]
      exact (hparams k hk).symm
    · rw [hsame j hji]
      by_cases hki : k = i
      · subst hki
        exact hparams j hj
      · rw [hsame k hki]
        exact h.params j hj k hk hne
  · rw [hothers]
    by_cases hji : j = i
    · subst hji
      exact hothers'
    · rw [hsame j hji]
      exact h.others j hj

omit [DecidableEq B] in
theorem Apart.of_ptr {s t : State B E shape} (h : Apart cfg s)
    (hsame : ∀ j, (t.param j).ptr = (s.param j).ptr) (hothers : t.others = s.others) :
    Apart cfg t :=
  ⟨fun j hj k hk hne => by rw [hsame, hsame]; exact h.params j hj k hk hne,
    fun j hj => by rw [hsame, hothers]; exact h.others j hj⟩

/-! ## The edits -/

/-- What the stock load does. -/
structure Loaded (cfg : Config) (m : Model) (s t : State B E shape) : Prop where
  apart : Apart cfg s → Apart cfg t
  twins : t.twins = s.twins
  dropped : t.dropped = s.dropped
  others : t.others = s.others
  same : ∀ i, i ∉ cfg.modules m → t.param i = s.param i
  full : ∀ i, ((s.param i).isTag = false → (s.param i).weight = (s.param i).loaded) →
    (t.param i).isTag = false → (t.param i).weight = (t.param i).loaded

omit [DecidableEq B] in
/-- One edit. -/
theorem edit_spec {m : Model} {s t : State B E shape} {i : ℕ} {e : Edit B shape}
    (hi : i ∈ cfg.modules m) (h : s.edit cfg i e = some t) : Loaded cfg m s t := by
  cases e with
  | rewrite w =>
    obtain ⟨-, h⟩ := Option.ite_none_left_eq_some.mp h
    obtain rfl := Option.some.inj h
    have hptr (j : ℕ) : (Function.update s.param i
        { s.param i with weight := w, loaded := w } j).ptr = (s.param j).ptr := by
      by_cases hj : j = i
      · rw [hj, Function.update_self]
      · rw [Function.update_of_ne hj]
    refine ⟨fun hapart => hapart.of_ptr hptr rfl, rfl, rfl, rfl, fun j hj => ?_, fun j hfull => ?_⟩
    · have hne : j ≠ i := fun heq => hj (heq ▸ hi)
      exact Function.update_of_ne hne ..
    · dsimp only
      by_cases hj : j = i
      · rw [hj, Function.update_self]
        exact fun _ => rfl
      · rw [Function.update_of_ne hj]
        exact hfull
  | replace ptr w =>
    obtain ⟨hfree, h⟩ := Option.ite_none_left_eq_some.mp h
    obtain rfl := Option.some.inj h
    refine ⟨fun hapart => hapart.move (i := i) ?_ (fun j hj => Function.update_of_ne hj ..) rfl,
      rfl, rfl, rfl, fun j hj => ?_, fun j hfull => ?_⟩
    · dsimp only
      rw [Function.update_self]
      exact hfree
    · have hne : j ≠ i := fun heq => hj (heq ▸ hi)
      exact Function.update_of_ne hne ..
    · dsimp only
      by_cases hj : j = i
      · rw [hj, Function.update_self]
        exact fun _ => rfl
      · rw [Function.update_of_ne hj]
        exact hfull

omit [DecidableEq B] in
/-- All edits of a load. -/
theorem origLoad_spec {m : Model} {s t : State B E shape} {edits : List (ℕ × Edit B shape)}
    (h : s.origLoad cfg m edits = some t) : Loaded cfg m s t := by
  induction edits generalizing s with
  | nil =>
    obtain rfl := Option.some.inj h
    exact ⟨id, rfl, rfl, rfl, fun _ _ => rfl, fun _ h => h⟩
  | cons e edits ih =>
    obtain ⟨i, e⟩ := e
    obtain ⟨hi, h⟩ := Option.ite_none_right_eq_some.mp h
    obtain ⟨u, hu, h⟩ := Option.bind_eq_some_iff.mp h
    have hfirst := edit_spec hi hu
    have hrest := ih h
    exact ⟨hrest.apart ∘ hfirst.apart, hrest.twins.trans hfirst.twins,
      hrest.dropped.trans hfirst.dropped, hrest.others.trans hfirst.others,
      fun j hj => (hrest.same j hj).trans (hfirst.same j hj),
      fun j hfull => hrest.full j (hfirst.full j hfull)⟩

/-! ## The twins -/

/-- One module gets its twin, and the others keep what they have. -/
theorem buildOne_spec {s t : State B E shape} {i : ℕ} (hpending : Pending fp cfg s i)
    (ht : s.buildOne fp cfg i = t) : t.param = s.param ∧ t.others = s.others ∧
      t.dropped = s.dropped ∧ Ok fp t i ∧ Pending fp cfg t i ∧
        ∀ a, a ≠ (s.param i).ptr → Memo.get t.twins a = Memo.get s.twins a := by
  unfold State.buildOne at ht
  split at ht
  · next hnone =>
    subst ht
    refine ⟨rfl, rfl, rfl, ⟨fun x hx => ?_, fun htag => ?_, fun _ => hpending.full⟩, hpending,
      fun _ _ => rfl⟩
    · cases (hpending.unlisted hnone).symm.trans hx
    · cases hpending.notTag.symm.trans htag
  · next x hx =>
    have hparam : t.param = s.param := by rw [← ht]
    have hget : Memo.get t.twins (s.param i).ptr = some x := by
      rw [← ht]
      exact Memo.get_set_self ..
    have hweight : x.weight fp = (s.param i).loaded := by
      unfold candidate at hx
      obtain ⟨-, hx⟩ := Option.ite_none_right_eq_some.mp hx
      exact (makeTwin_weight hx).trans hpending.full
    have hcandidate : candidate fp cfg t i = some x := by
      unfold candidate at hx ⊢
      rw [hparam]
      exact hx
    refine ⟨hparam, by rw [← ht], by rw [← ht], ⟨fun y hy => ?_, fun htag => ?_, fun _ => ?_⟩,
      ⟨?_, ?_, fun hnone => ?_⟩, fun a ha => ?_⟩
    · rw [hparam] at hy ⊢
      rw [← Option.some.inj (hget.symm.trans hy)]
      exact hweight
    · rw [hparam] at htag
      cases hpending.notTag.symm.trans htag
    · rw [hparam]
      exact hpending.full
    · rw [hparam]
      exact hpending.notTag
    · rw [hparam]
      exact hpending.full
    · cases hcandidate.symm.trans hnone
    · rw [← ht]
      exact Memo.get_set_of_ne ha x

omit [DecidableEq B] in
/-- What a module has depends on the entry under its address. -/
theorem Ok.of_get {s t : State B E shape} {i : ℕ} (h : Ok fp s i) (hparam : t.param i = s.param i)
    (hdropped : s.dropped ⊆ t.dropped)
    (hget : Memo.get t.twins (s.param i).ptr = Memo.get s.twins (s.param i).ptr) : Ok fp t i := by
  refine ⟨fun x hx => ?_, fun htag => ?_, ?_⟩
  · rw [hparam] at hx ⊢
    exact h.exact x (hget ▸ hx)
  · rw [hparam] at htag ⊢
    obtain ⟨hmem, hsome⟩ := h.tag htag
    exact ⟨hdropped hmem, hget ▸ hsome⟩
  · rw [hparam]
    exact h.full

theorem Pending.of_get {s t : State B E shape} {i : ℕ} (h : Pending fp cfg s i)
    (hparam : t.param i = s.param i)
    (hget : Memo.get t.twins (s.param i).ptr = Memo.get s.twins (s.param i).ptr) :
    Pending fp cfg t i := by
  refine ⟨hparam ▸ h.notTag, hparam ▸ h.full, fun hnone => ?_⟩
  rw [hparam, hget]
  refine h.unlisted ?_
  unfold candidate at hnone ⊢
  rw [← hparam]
  exact hnone

/-- **All modules get their twins.** The induction is on the modules left to do. -/
theorem buildTwins_spec {s : State B E shape} {ids : List ℕ} (hids : ∀ i ∈ ids, i ∈ cfg.all)
    (hapart : Apart cfg s) (hpending : ∀ i ∈ ids, Pending fp cfg s i)
    (hok : ∀ i ∈ cfg.all, i ∉ ids → Ok fp s i) :
    Apart cfg (s.buildTwins fp cfg ids) ∧ ∀ i ∈ cfg.all, Ok fp (s.buildTwins fp cfg ids) i := by
  induction ids generalizing s with
  | nil => exact ⟨hapart, fun i hi => hok i hi List.not_mem_nil⟩
  | cons j ids ih =>
    obtain ⟨hparam, hothers, hdropped, hokj, hpendingj, hget⟩ :=
      buildOne_spec (hpending j List.mem_cons_self) rfl
    have hget' (i : ℕ) (hi : i ∈ cfg.all) (hne : i ≠ j) :
        Memo.get (s.buildOne fp cfg j).twins (s.param i).ptr =
          Memo.get s.twins (s.param i).ptr :=
      hget _ (hapart.params i hi j (hids j List.mem_cons_self) hne)
    refine ih (fun i hi => hids i (List.mem_cons_of_mem j hi))
      (hapart.of_ptr (fun i => by rw [hparam]) hothers) (fun i hi => ?_) (fun i hi hni => ?_)
    · by_cases hne : i = j
      · exact hne ▸ hpendingj
      · exact (hpending i (List.mem_cons_of_mem j hi)).of_get (by rw [hparam])
          (hget' i (hids i (List.mem_cons_of_mem j hi)) hne)
    · by_cases hne : i = j
      · exact hne ▸ hokj
      · have hold : i ∉ j :: ids := fun hmem => (List.mem_cons.mp hmem).elim hne hni
        exact (hok i hi hold).of_get (by rw [hparam]) (hdropped ▸ List.Subset.refl _)
          (hget' i hi hne)

/-! ## The tags -/

/-- One weight is released, or left as it is. -/
theorem dropOne_spec {s t : State B E shape} {i tag : ℕ} (hi : i ∈ cfg.all)
    (hapart : Apart cfg s) (hok : ∀ j ∈ cfg.all, Ok fp s j)
    (h : s.dropOne fp cfg i tag = some t) : Apart cfg t ∧ ∀ j ∈ cfg.all, Ok fp t j := by
  unfold State.dropOne at h
  split at h
  · split at h
    · obtain rfl := Option.some.inj h
      exact ⟨hapart, hok⟩
    · next x hx =>
      split at h
      · obtain ⟨hfree, h⟩ := Option.ite_none_left_eq_some.mp h
        obtain rfl := Option.some.inj h
        have hself : Function.update s.param i
            { s.param i with ptr := tag, isTag := true, weight := fun _ _ _ => fp.zero } i =
              { s.param i with ptr := tag, isTag := true, weight := fun _ _ _ => fp.zero } :=
          Function.update_self ..
        have hfree' := hfree
        unfold State.live at hfree'
        push Not at hfree'
        refine ⟨hapart.move (i := i) ?_ (fun j hj => Function.update_of_ne hj ..) rfl,
          fun j hj => ?_⟩
        · dsimp only
          rw [hself]
          exact hfree
        · by_cases hji : j = i
          · subst hji
            have hget := Memo.get_set_self (Memo.drop s.twins (s.param j).ptr) tag x
            refine ⟨fun y hy => ?_, fun _ => ?_, fun htag => ?_⟩
            · dsimp only at hy ⊢
              rw [hself] at hy ⊢
              rw [← Option.some.inj (hget.symm.trans hy)]
              exact (hok j hj).exact x hx
            · dsimp only
              rw [hself]
              exact ⟨List.mem_cons_self, x, hget⟩
            · dsimp only at htag
              rw [hself] at htag
              cases htag
          · refine (hok j hj).of_get (Function.update_of_ne hji ..)
              (fun a ha => List.mem_cons_of_mem tag ha) ?_
            have hnew : (s.param j).ptr ≠ tag := hfree'.2 j hj
            have hold : (s.param j).ptr ≠ (s.param i).ptr := hapart.params j hj i hi hji
            exact (Memo.get_set_of_ne hnew x).trans (Memo.get_drop_of_ne hold)
      · obtain rfl := Option.some.inj h
        exact ⟨hapart, hok⟩
  · obtain rfl := Option.some.inj h
    exact ⟨hapart, hok⟩

/-- All weights of a model. -/
theorem dropBf16_spec {s t : State B E shape} {tags : ℕ → ℕ} {ids : List ℕ}
    (hids : ∀ i ∈ ids, i ∈ cfg.all) (hapart : Apart cfg s) (hok : ∀ j ∈ cfg.all, Ok fp s j)
    (h : s.dropBf16 fp cfg tags ids = some t) : Apart cfg t ∧ ∀ j ∈ cfg.all, Ok fp t j := by
  induction ids generalizing s with
  | nil =>
    obtain rfl := Option.some.inj h
    exact ⟨hapart, hok⟩
  | cons i ids ih =>
    obtain ⟨u, hu, h⟩ := Option.bind_eq_some_iff.mp h
    obtain ⟨hapart', hok'⟩ := dropOne_spec (hids i List.mem_cons_self) hapart hok hu
    exact ih (fun j hj => hids j (List.mem_cons_of_mem i hj)) hapart' hok' h

/-! ## Runs -/

/-- What holds in every state of a run. -/
structure Inv (fp : Fp8 B E) (cfg : Config) (s : State B E shape) : Prop where
  apart : Apart cfg s
  ok : ∀ i ∈ cfg.all, Ok fp s i

theorem mem_all {m : Model} {i : ℕ} (h : i ∈ cfg.modules m) : i ∈ cfg.all := by
  cases m with
  | target => exact List.mem_append_left _ h
  | draft => exact List.mem_append_right _ h

/-- **One event keeps the registry right.** -/
theorem Inv.next {s t : State B E shape} {e : Event B shape} (h : Inv fp cfg s)
    (hrenewed : Renewed fp cfg s e) (hs : s.next fp cfg e = some t) : Inv fp cfg t := by
  cases e with
  | load m edits tags =>
    obtain ⟨u, hu, hs⟩ := Option.bind_eq_some_iff.mp hs
    have hloaded := origLoad_spec hu
    have hpending (i : ℕ) (hi : i ∈ cfg.modules m) : Pending fp cfg u i := by
      obtain ⟨htag, hunlisted⟩ := hrenewed u hu i hi
      refine ⟨htag, hloaded.full i (h.ok i (mem_all hi)).full htag, fun hnone => ?_⟩
      rw [hloaded.twins]
      exact hunlisted hnone
    have hother (i : ℕ) (hi : i ∈ cfg.all) (hni : i ∉ cfg.modules m) : Ok fp u i :=
      (h.ok i hi).of_get (hloaded.same i hni) (hloaded.dropped ▸ List.Subset.refl _)
        (by rw [hloaded.twins])
    obtain ⟨hapart, hok⟩ := buildTwins_spec (fun i hi => mem_all hi) (hloaded.apart h.apart)
      hpending hother
    dsimp only at hs
    split at hs
    · exact (dropBf16_spec (fun i hi => mem_all hi) hapart hok hs).elim Inv.mk
    · obtain rfl := Option.some.inj hs
      exact ⟨hapart, hok⟩
  | alloc a =>
    obtain ⟨hfree, hs⟩ := Option.ite_none_left_eq_some.mp hs
    obtain rfl := Option.some.inj hs
    unfold State.live at hfree
    push Not at hfree
    refine ⟨⟨h.apart.params, fun i hi hmem => ?_⟩, fun i hi => (h.ok i hi).of_get rfl
      (List.Subset.refl _) rfl⟩
    obtain heq | hmem := List.mem_cons.mp hmem
    · exact hfree.2 i hi heq
    · exact h.apart.others i hi hmem
  | free a =>
    obtain rfl := Option.some.inj hs
    exact ⟨⟨h.apart.params, fun i hi hmem => h.apart.others i hi (List.mem_of_mem_filter hmem)⟩,
      fun i hi => (h.ok i hi).of_get rfl (List.Subset.refl _) rfl⟩

omit [DecidableEq B] in
/-- The invariant of a process before its first load. -/
theorem Fresh.inv {s : State B E shape} (h : Fresh cfg s) : Inv fp cfg s := by
  refine ⟨⟨h.apart, h.others⟩, fun i hi => ⟨fun t ht => ?_, fun htag => ?_, fun _ => (h.full i hi).2⟩⟩
  · simp [h.twins, Memo.get] at ht
  · cases (h.full i hi).1.symm.trans htag

omit [DecidableEq B] in
/-- The stock dispatch on a weight whose entry, if it has one, is right. -/
theorem stock_eq {s : State B E shape} {ptr : ℕ} {w loaded : Weight B shape} (hw : w = loaded)
    (hget : ∀ t, Memo.get s.twins ptr = some t → t.weight fp = loaded) (c : Call) :
    s.stock fp c ptr w = loaded := by
  unfold State.stock
  split
  · cases ht : Memo.get s.twins ptr with
    | none => exact hw
    | some t => exact hget t ht
  · exact hw

omit [DecidableEq B] in
/-- **What holds of the modules makes every dispatch right.** -/
theorem Inv.sound {s : State B E shape} (h : Inv fp cfg s) : Sound fp cfg s := by
  refine ⟨fun i hi => (h.ok i hi).exact, fun i hi c hscratch w hw => ?_,
    fun i hi => (h.ok i hi).tag⟩
  have hok := h.ok i hi
  unfold State.served at hw
  dsimp only at hw
  split at hw
  · obtain ⟨t, ht, rfl⟩ := Option.map_eq_some_iff.mp hw
    unfold State.droppedPath
    split
    · exact hok.exact t ht
    · exact stock_eq (hok.exact t ht) (fun x hx => by cases hscratch.symm.trans hx) c
  · next hdropped =>
    have hfull : (s.param i).isTag = false := by
      by_contra htag
      exact hdropped (hok.tag (Bool.not_eq_false _ ▸ htag)).1
    have hstock := stock_eq (hok.full hfull) hok.exact c
    split at hw
    · obtain rfl := Option.some.inj hw
      cases ht : Memo.get s.twins (s.param i).ptr with
      | none => exact hstock
      | some t => exact hok.exact t ht
    · obtain rfl := Option.some.inj hw
      exact hstock

/-- The runs of a process whose every load renews what it leaves. -/
abbrev Reachable (fp : Fp8 B E) (cfg : Config) (start s : State B E shape) : Prop :=
  Transition.Reachable (State.next fp cfg) (Renewed fp cfg) start s

/-- bf16 values in units of `2 ** -7`, of which e4m3 holds, from `16` to `255`, the multiples of
`16`. -/
def sampleFp8 : Fp8 ℤ ℤ where
  zero := 0
  blockExponent _ := 0
  quantize v _ := if v < 16 then v else (v + 8) / 16 * 16
  dequantize q _ := q

/-- One module in each model. -/
def sampleConfig (drop : Bool) : Config where
  modules m := match m with
    | .target => [0]
    | .draft => [1]
  fits _ := true
  mid := true
  drop := drop

/-- Weights of one element, all zero. -/
def sampleStart : State ℤ ℤ ⟨1, 1, 1⟩ where
  param i := ⟨i, false, fun _ _ _ => 0, fun _ _ _ => 0⟩
  others := []
  twins := []
  dropped := []

theorem fresh_sampleStart (drop : Bool) : Fresh (sampleConfig drop) sampleStart :=
  ⟨rfl, fun _ _ => ⟨rfl, rfl⟩, fun _ _ _ _ hne => hne, fun _ _ => List.not_mem_nil⟩

end TwinRegistry
